import HdlLint.Command.Run

/-! # The program -/

namespace HdlLint

open Files (FileSystem ReadFault)

/-- Why the computer refused a file. -/
def faultOf : IO.Error → ReadFault
  | .noFileOrDirectory .. => .notFound
  | .inappropriateType .. => .isDirectory
  | e => .other (toString e)

/-- The files in a directory and in those below it. -/
partial def listFiles (dir : String) : IO (List String) := do
  let here ← IO.currentDir
  let entries ← (here / dir).readDir
  let mut files := []
  for e in entries do
    let name := Files.join dir e.fileName
    if ← (here / name).isDir then files := files ++ (← listFiles name)
    else files := files ++ [name]
  return files

/-- The files of the computer. -/
def computerFiles : FileSystem IO where
  currentDirectory := return toString (← IO.currentDir)
  isDirectory name := do
    if name.isEmpty then return false else ((← IO.currentDir) / name).isDir
  isFile name := do
    if name.isEmpty then return false
    let path := (← IO.currentDir) / name
    return (← path.pathExists) && !(← path.isDir)
  read name := do
    if name.isEmpty then return .error .notFound
    try
      let bytes ← IO.FS.readBinFile ((← IO.currentDir) / name)
      match String.fromUTF8? bytes with
      | some text => return .ok text
      | none => return .error .notText
    catch e => return .error (faultOf e)
  filesBelow dir := do
    try return .ok (← listFiles dir)
    catch e => return .error (faultOf e)

end HdlLint

def main (arguments : List String) : IO UInt32 := do
  let stdout ← IO.getStdout
  let outcome ← HdlLint.Command.run HdlLint.computerFiles (← stdout.isTty) arguments
  IO.eprint outcome.messages
  IO.print outcome.output
  return outcome.exitCode.toUInt32
