import ProxyPulse.Group

/-!
Where a group leads. The walk goes from a group to the member it points at, and on into the group of
that name until it comes to a terminal proxy. A walk that would come to a group twice is lost.
-/

namespace ProxyPulse

structure Endpoint where
  name : String
  subtitle : String
  delay : Int
  deriving DecidableEq, Repr

def Proxy.endpoint (p : Proxy) : Endpoint :=
  ⟨p.name, p.subtitle, p.delay⟩

abbrev GroupTable := Std.ExtTreeMap String Group

def GroupTable.ofList (groups : List Group) : GroupTable :=
  groups.foldl (fun table g => table.insert g.name g) ∅

structure Trail where
  here : String
  passed : List String := []
  deriving DecidableEq, Repr

namespace Trail

inductive Move where
  | arrived (endpoint : Endpoint)
  | lost
  | onward (next : Trail)
  deriving DecidableEq, Repr

def move (t : Trail) (found : Option Group) : Move :=
  match found.bind Group.selected? with
  | none => .lost
  | some p =>
    if p.isGroup then
      if p.name ∈ t.here :: t.passed then .lost else .onward ⟨p.name, t.here :: t.passed⟩
    else .arrived p.endpoint

/-- The names looked up on a walk through a table, in order, and where it ends. No group is needed
again once it was looked up. -/
def follow (table : GroupTable) (t : Trail) : List String × Option Endpoint :=
  match _h : table[t.here]? with
  | none => ([t.here], none)
  | some g =>
    match t.move (some g) with
    | .arrived e => ([t.here], some e)
    | .lost => ([t.here], none)
    | .onward next =>
      let (names, e) := follow (table.erase t.here) next
      (t.here :: names, e)
termination_by table.size
decreasing_by
  have hm : t.here ∈ table := by simp [Std.ExtTreeMap.mem_iff_isSome_getElem?, _h]
  have hs : table.size ≠ 0 := by
    intro hz
    rw [Std.ExtTreeMap.eq_empty_iff_size_eq_zero.mpr hz] at hm
    simp at hm
  rw [Std.ExtTreeMap.size_erase, if_pos (Std.ExtTreeMap.contains_iff_mem.mpr hm)]
  omega

end Trail

def GroupTable.resolve (table : GroupTable) (start : String) : Option Endpoint :=
  (Trail.follow table ⟨start, []⟩).2

end ProxyPulse
