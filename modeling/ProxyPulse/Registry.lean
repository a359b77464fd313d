import ProxyPulse.Board
import ProxyPulse.Endpoint

/-!
The groups that are tracked, in order, and the board that shows them. Everything that is written
goes to an index under a name; what comes too late, when another group stands at the index, is
dropped.
-/

namespace ProxyPulse

structure Registry where
  names : List String := []
  board : Board := {}

structure Retracking where
  changed : Bool
  referenced : Std.ExtTreeSet String

instance : Coe Retracking Bool := ⟨Retracking.changed⟩

namespace Registry

def holds (r : Registry) (index : Nat) (name : String) : Bool :=
  r.names[index]? == some name

def indexOf? (r : Registry) (name : String) : Option Nat :=
  r.names.findIdx? (· == name)

def group? (r : Registry) (index : Nat) : Option Group :=
  (r.board.records[index]?.filter fun record => r.holds index record.group.name).map Record.group

def groupByName? (r : Registry) (name : String) : Option Group :=
  (r.indexOf? name).bind r.group?

def table (r : Registry) : GroupTable :=
  r.names.foldl (fun table name =>
    match r.groupByName? name with
    | none => table
    | some g => table.insert name g) ∅

def referenced (r : Registry) : Std.ExtTreeSet String :=
  Std.ExtTreeSet.ofList <| (List.range r.names.length).flatMap fun index =>
    (r.board.records[index]?.elim [] (·.group.members)).map Proxy.name

def shown (r : Registry) : GroupTable :=
  r.board.records.toList.foldl (fun table (index, record) =>
    if r.holds index record.group.name then table.insert record.group.name record.group
    else table) ∅

/-- The groups that a list of names starts out with. A name takes over what was shown of it, but only
once; any other place starts empty. -/
def takeOver (shown : GroupTable) : List String → List Group
  | [] => []
  | name :: rest => shown[name]?.getD (Group.empty name) :: takeOver (shown.erase name) rest

def publishAll (board : Board) : Nat → List Group → Board
  | _, [] => board
  | index, g :: rest => publishAll (board.publish index g).1 (index + 1) rest

def replace (r : Registry) (names : List String) : Registry × Retracking :=
  if r.names = names then (r, ⟨false, r.referenced⟩)
  else
    let groups := takeOver r.shown names
    (⟨names, publishAll r.board.reset 0 groups⟩,
      ⟨true, .ofList (groups.flatMap fun g => g.members.map Proxy.name)⟩)

def write (r : Registry) (index : Nat) (name : String) (act : Board → Board × Bool) :
    Registry × Bool :=
  if r.holds index name then
    let (board, changed) := act r.board
    ({ r with board := board }, changed)
  else (r, false)

def publish (r : Registry) (index : Nat) (g : Group) : Registry × Bool :=
  r.write index g.name (·.publish index g)

def setSelection (r : Registry) (index : Nat) (name now : String) : Registry × Bool :=
  r.write index name (·.setSelection index now)

def updateDelay (r : Registry) (index : Nat) (name proxy : String) (delay : Int) :
    Registry × Bool :=
  r.write index name (·.updateDelay index proxy delay)

def updateDelays (r : Registry) (index : Nat) (name : String) (delays : DelayTable) :
    Registry × Bool :=
  r.write index name (·.updateDelays index delays)

def setTesting (r : Registry) (index : Nat) (name : String) (testing : Bool) : Registry × Bool :=
  r.write index name (·.setTesting index testing)

end Registry

end ProxyPulse
