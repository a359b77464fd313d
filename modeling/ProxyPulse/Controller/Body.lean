import ProxyPulse.Core
import ProxyPulse.Json.Reader

/-!
Values read from the bodies that a controller sends. A record is an object, whose unknown members do
not matter and whose known ones may not come twice, or the list of its fields in order, from which
fields with a default may be missing at the end.
-/

namespace ProxyPulse.Body

def areNamed (members : List (Option String × Json)) : Bool :=
  members.all (·.1.isSome)

def fields? (names : List String) : Json → Option (List (Option Json))
  | .object members =>
    if areNamed members && names.all fun n => decide (members.countP (·.1 == some n) ≤ 1) then
      some (names.map fun n => members.findSome? fun (k, v) => if k = some n then some v else none)
    else none
  | .list values =>
    if values.length ≤ names.length then some ((List.range names.length).map (values[·]?))
    else none
  | _ => none

def int32? (v : Json) : Option Int :=
  v.int?.bind fun n => if -2147483648 ≤ n ∧ n < 2147483648 then some n else none

def list? (read : Json → Option α) : Json → Option (List α)
  | .list values => values.mapM read
  | _ => none

def optional? (read : Json → Option α) : Json → Option (Option α)
  | .null => some none
  | v => (read v).map some

def orDefault (read : Json → Option α) (default : α) : Option Json → Option α
  | none => some default
  | some v => read v

def table? (read : Json → Option α) : Json → Option (Std.ExtTreeMap String α)
  | .object members => do
    let entries ← members.mapM fun (k, v) => do return (← k, ← read v)
    return entries.foldl (fun table (k, a) => table.insert k a) ∅
  | _ => none

def mode? : Json → Option TunnelMode
  | .text s => s.bind TunnelMode.ofTag?
  | .object [(name, .null)] => name.bind TunnelMode.ofTag?
  | _ => none

def delay? (v : Json) : Option Int := do
  match ← fields? ["delay"] v with
  | [delay] => delay.bind int32?
  | _ => none

def currentMode? (v : Json) : Option (Option TunnelMode) := do
  match ← fields? ["mode"] v with
  | [mode] => orDefault (optional? mode?) none mode
  | _ => none

end ProxyPulse.Body
