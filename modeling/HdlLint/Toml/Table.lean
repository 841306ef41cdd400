import HdlLint.Toml.Value

/-! # Putting tables together

A table can come into being in four ways: by a header of its own, by a header of a table in it, by a
dotted key, and as a value. How it came into being decides what may be added to it later. -/

namespace HdlLint.Toml

mutual

inductive Item where
  | value (v : Value)
  | table (t : Table)
  /-- A list of tables, of which only the last can be added to. -/
  | tables (earlier : List Table) (last : Table)

structure Table where
  /-- It has had no header of its own so far. -/
  implicit : Bool
  /-- It came into being by a dotted key. -/
  dotted : Bool
  entries : List (String × Item)

end

instance : Inhabited Table := ⟨⟨false, false, []⟩⟩

instance : Inhabited Item := ⟨.table default⟩

namespace Table

/-- A table with a header of its own, and nothing in it. -/
def empty : Table := ⟨false, false, []⟩

def find? (t : Table) (key : String) : Option Item := t.entries.lookup key

/-- Enters an item in place of the one under its key, if there is one. -/
def put (t : Table) (key : String) (i : Item) : Table :=
  { t with entries := t.entries.filter (·.1 != key) ++ [(key, i)] }

/-- Changes the table at the end of a path. Tables on the way that do not exist come into being. -/
def change (dotted : Bool) (f : Table → Option Table) : List String → Table → Option Table
  | [], t => f t
  | k :: ks, t =>
    match t.find? k with
    | none => do
      let child ← change dotted f ks ⟨true, dotted, []⟩
      return t.put k (.table child)
    | some (.value _) => none
    | some (.table child) =>
      if dotted && !child.implicit then none
      else do
        let child ← change dotted f ks child
        return t.put k (.table child)
    | some (.tables earlier last) => do
      let last ← change dotted f ks last
      return t.put k (.tables earlier last)

/-- Enters a value under a new key, which stands at the end of a dotted path. -/
def insert (t : Table) (path : List String) (key : String) (v : Value) : Option Table :=
  change true (fun t =>
    if t.dotted == path.isEmpty || (t.find? key).isSome then none
    else some (t.put key (.value v))) path t

end Table

/-- A key with its value. -/
structure Assignment where
  path : List String
  key : String
  value : Value
  deriving Inhabited

/-- The head of a section. -/
structure Header where
  path : List String
  key : String
  /-- Whether the section is one more element of a list of tables. -/
  isElement : Bool
  deriving Inhabited

namespace Table

def insertAll (t : Table) (as : List Assignment) : Option Table :=
  as.foldlM (fun t a => t.insert a.path a.key a.value) t

/-- Enters a section. -/
def addSection (root : Table) (h : Header) (body : List Assignment) : Option Table :=
  root.change false (fun t =>
    if h.isElement then
      match t.find? h.key with
      | none => do return t.put h.key (.tables [] (← empty.insertAll body))
      | some (.tables earlier last) => do
        return t.put h.key (.tables (earlier ++ [last]) (← empty.insertAll body))
      | some _ => none
    else
      match t.find? h.key with
      | none => do return t.put h.key (.table (← empty.insertAll body))
      | some (.table c) =>
        if c.implicit && !c.dotted then do
          return t.put h.key (.table (← insertAll { c with implicit := false } body))
        else none
      | some _ => none) h.path

end Table

mutual

/-- What an item holds, however it came into being. -/
def Item.toValue : Item → Value
  | .value v => v
  | .table t => t.toValue
  | .tables earlier last => .array (tableValues earlier ++ [last.toValue])

def Table.toValue : Table → Value
  | ⟨_, _, entries⟩ => .table (entryValues entries)

def tableValues : List Table → List Value
  | [] => []
  | t :: ts => t.toValue :: tableValues ts

def entryValues : List (String × Item) → List (String × Value)
  | [] => []
  | (k, i) :: es => (k, i.toValue) :: entryValues es

end

end HdlLint.Toml
