import ProxyPulse.Document

/-!
The tables of a TOML document while it is read. A table remembers how it came about, because a
table that was written once may not be written again in another way.
-/

namespace ProxyPulse.Toml

/-- What a name stands for. A table is implied when only names below it were written, and dotted
when those were written with dots in front of a value. A series holds its tables, oldest first. -/
inductive Node where
  | value (document : Document)
  | table (implied dotted : Bool) (entries : List (String × Node))
  | series (tables : List (List (String × Node)))

abbrev Entries := List (String × Node)

namespace Node

mutual

def toDocument : Node → Document
  | .value d => d
  | .table _ _ entries => .table (entriesToDocument entries)
  | .series tables => .list (seriesToDocument tables)

def entriesToDocument : List (String × Node) → List (String × Document)
  | [] => []
  | (k, n) :: rest => (k, toDocument n) :: entriesToDocument rest

def seriesToDocument : List (List (String × Node)) → List Document
  | [] => []
  | entries :: rest => .table (entriesToDocument entries) :: seriesToDocument rest

end

end Node

namespace Entries

def get? (entries : Entries) (key : String) : Option Node :=
  entries.lookup key

def set (entries : Entries) (key : String) (node : Node) : Entries :=
  entries.map fun e => if e.1 == key then (key, node) else e

def remove (entries : Entries) (key : String) : Entries :=
  entries.filter (·.1 != key)

def update (dottedPath : Bool) (change : Bool → Entries → Option Entries) :
    List String → Bool → Entries → Option Entries
  | [], dotted, entries => change dotted entries
  | key :: path, _, entries =>
    match entries.get? key with
    | none =>
      (update dottedPath change path dottedPath []).map fun inner =>
        entries ++ [(key, .table true dottedPath inner)]
    | some (.value _) => none
    | some (.series tables) =>
      match tables.getLast? with
      | none => none
      | some last =>
        (update dottedPath change path false last).map fun inner =>
          entries.set key (.series (tables.dropLast ++ [inner]))
    | some (.table implied dotted inner) =>
      if dottedPath && !implied then none
      else
        (update dottedPath change path dotted inner).map fun inner =>
          entries.set key (.table implied dotted inner)

def insert (entries : Entries) (path : List String) (key : String) (value : Document) :
    Option Entries :=
  update true (fun dotted inner =>
    if dotted == path.isEmpty || (inner.get? key).isSome then none
    else some (inner ++ [(key, .value value)])) path false entries

end Entries

structure Draft where
  root : Entries := []
  current : Entries := []
  -- The header of the current table; empty for the keys before the first header.
  path : List String := []
  -- Whether the current table goes to the end of a series.
  inSeries : Bool := false

namespace Draft

def splitLast (path : List String) : List String × String :=
  (path.dropLast, path.getLast?.getD "")

def close (d : Draft) : Option Entries :=
  if d.path.isEmpty then some d.current
  else
    let (parent, key) := splitLast d.path
    Entries.update false (fun _ entries =>
      if d.inSeries then
        match entries.get? key with
        | none => some (entries ++ [(key, .series [d.current])])
        | some (.series tables) => some (entries.set key (.series (tables ++ [d.current])))
        | some _ => none
      else if (entries.get? key).isSome then none
      else some (entries ++ [(key, .table false false d.current)])) parent false d.root

def claimed? (entries : Entries) (key : String) : Option Entries :=
  match entries.get? key with
  | none => some []
  | some (.table true false inner) => some inner
  | some _ => none

def find? : List String → Entries → Option Entries
  | [], entries => some entries
  | key :: path, entries =>
    match entries.get? key with
    | some (.table _ _ inner) => find? path inner
    | some (.series tables) => tables.getLast?.bind (find? path)
    | _ => none

def openTable (d : Draft) (path : List String) : Option Draft := do
  let root ← d.close
  let (parent, key) := splitLast path
  let root ← Entries.update false (fun _ entries =>
    (claimed? entries key).map fun _ => entries) parent false root
  let current := ((find? parent root).bind fun entries => claimed? entries key).getD []
  let root ← Entries.update false (fun _ entries => some (entries.remove key)) parent false root
  return ⟨root, current, path, false⟩

def openSeries (d : Draft) (path : List String) : Option Draft := do
  let root ← d.close
  let (parent, key) := splitLast path
  let root ← Entries.update false (fun _ entries =>
    match entries.get? key with
    | none => some entries
    | some (.series _) => some entries
    | some _ => none) parent false root
  return ⟨root, [], path, true⟩

def insert (d : Draft) (path : List String) (value : Document) : Option Draft :=
  let (parent, key) := splitLast path
  (d.current.insert parent key value).map fun current => { d with current }

def finish (d : Draft) : Option Document :=
  d.close.map fun root => .table (Node.entriesToDocument root)

end Draft

end ProxyPulse.Toml
