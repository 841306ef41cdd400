import HdlLint.Text.Ascii
import HdlLint.Toml.Reader

/-! # Dates and times -/

namespace HdlLint.Toml

def isLeapYear (year : Nat) : Bool :=
  year % 4 == 0 && (year % 100 != 0 || year % 400 == 0)

def daysOf (year month : Nat) : Nat :=
  if month = 2 then (if isLeapYear year then 29 else 28)
  else if month = 4 || month = 6 || month = 9 || month = 11 then 30
  else 31

namespace Reader

/-- A number of a given count of digits, from `least` to `greatest`. -/
def field (count least greatest : Nat) : Reader Nat := do
  let ds ← times (satisfy Char.isDigit) count
  let n := (Ascii.number? 10 ds).getD 0
  if least ≤ n && n ≤ greatest then return n else failure

def date : Reader Unit := do
  let year ← field 4 0 9999
  char '-'
  let month ← field 2 1 12
  char '-'
  let day ← field 2 1 31
  guard (day ≤ daysOf year month)

/-- A time of the day. There may be a leap second. -/
def time : Reader Unit := do
  let _ ← field 2 0 23
  char ':'
  let _ ← field 2 0 59
  char ':'
  let _ ← field 2 0 60
  let _ ← optional do
    char '.'
    let ds ← takeWhile Char.isDigit
    guard !ds.isEmpty

def zone : Reader Unit := do
  match ← satisfy fun _ => true with
  | 'Z' | 'z' => pure ()
  | '+' | '-' =>
    let _ ← field 2 0 23
    char ':'
    let _ ← field 2 0 59
  | _ => failure

/-- A date, a time, or a date with a time and perhaps a zone. -/
def moment : Reader Unit :=
  (do
    date
    let _ ← optional do
      let _ ← satisfy fun c => c == 'T' || c == 't' || c == ' '
      time
      let _ ← optional zone
      pure ()) <|> time

end Reader

end HdlLint.Toml
