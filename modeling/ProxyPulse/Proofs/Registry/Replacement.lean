import Mathlib.Data.Nat.Find
import ProxyPulse.Proofs.Registry.Operation

namespace ProxyPulse.Registry

variable {r r' : Registry}

def Lists (r : Registry) (proxy : String) : Prop :=
  ∃ (i : Nat) (x : Record), r.board.records[i]? = some x ∧ ∃ p ∈ x.group.members, p.name = proxy

theorem Reachable.announces (h : Reachable r) : r.board.Announces := by
  obtain ⟨config, ops, rfl⟩ := h.operations
  exact performs_keep (Q := fun _ => True) (R := fun _ => True)
    (fun b a _ hb => (b.perform_changes a).announces hb) (fun _ _ _ _ _ _ => trivial)
    (fun _ _ => trivial) (Board.new_announces config)

def showEntry (r : Registry) (table : GroupTable) (entry : Nat × Record) : GroupTable :=
  if r.holds entry.1 entry.2.group.name then table.insert entry.2.group.name entry.2.group
  else table

theorem shown_eq (r : Registry) : r.shown = r.board.records.toList.foldl r.showEntry ∅ := rfl

theorem foldl_showEntry_of_ne {name : String} {entries : List (Nat × Record)}
    (h : ∀ x ∈ entries, x.2.group.name ≠ name) (table : GroupTable) :
    (entries.foldl r.showEntry table)[name]? = table[name]? := by
  induction entries generalizing table with
  | nil => rfl
  | cons x rest ih =>
    rw [List.foldl_cons, ih fun y hy => h y (List.mem_cons_of_mem _ hy)]
    unfold showEntry
    split
    · rw [Std.ExtTreeMap.getElem?_insert, if_neg]
      simpa using h x List.mem_cons_self
    · rfl

theorem shown_of_not_mem (hr : r.Aligned) {name : String} (h : name ∉ r.names) :
    r.shown[name]? = none := by
  rw [shown_eq, foldl_showEntry_of_ne]
  · simp
  · intro x hx hn
    have hx := hr.name (Std.ExtTreeMap.mem_toList_iff_getElem?_eq_some.mp hx)
    exact h (hn ▸ List.mem_of_getElem? hx)

theorem shown_of_last (hr : r.Aligned) {j : Nat} {y : Record} (hy : r.board.records[j]? = some y)
    (hlast : ∀ k, j < k → r.names[k]? ≠ some y.group.name) :
    r.shown[y.group.name]? = some y.group := by
  have hm := Std.ExtTreeMap.mem_toList_iff_getElem?_eq_some.mpr hy
  obtain ⟨before, after, hl⟩ := List.append_of_mem hm
  have hord : (before ++ (j, y) :: after).Pairwise fun a b => compare a.1 b.1 = .lt :=
    hl ▸ Std.ExtTreeMap.ordered_keys_toList
  rw [shown_eq, hl, List.foldl_append, List.foldl_cons, foldl_showEntry_of_ne]
  · have hh : r.holds j y.group.name = true := by
      simp [holds, hr.name hy]
    rw [showEntry, if_pos hh]
    exact Std.ExtTreeMap.getElem?_insert_self
  · -- entries behind the last one of the name have other names
    intro x hx hn
    have hlt := (List.pairwise_cons.mp (List.pairwise_append.mp hord).2.1).1 x hx
    have hx : x ∈ r.board.records.toList := by
      rw [hl]
      exact List.mem_append_right _ (List.mem_cons_of_mem _ hx)
    have hname := hr.name (Std.ExtTreeMap.mem_toList_iff_getElem?_eq_some.mp hx)
    exact hlast x.1 (Nat.compare_eq_lt.mp hlt) (hn ▸ hname)

def IsLast (names : List String) (name : String) (j : Nat) : Prop :=
  names[j]? = some name ∧ ∀ k, j < k → names[k]? ≠ some name

def IsFirst (names : List String) (name : String) (i : Nat) : Prop :=
  names[i]? = some name ∧ ∀ k, k < i → names[k]? ≠ some name

theorem exists_last {name : String} {names : List String} (h : name ∈ names) :
    ∃ j, IsLast names name j := by
  obtain ⟨i, hi⟩ := List.mem_iff_getElem?.mp h
  have hle : i ≤ names.length := Nat.le_of_lt (List.getElem?_eq_some_iff.mp hi).1
  have hs := Nat.findGreatest_spec (P := fun k => names[k]? = some name) hle hi
  refine ⟨_, hs, fun k hk => ?_⟩
  rcases Nat.le_total k names.length with hkl | hkl
  · exact Nat.findGreatest_is_greatest hk hkl
  · rw [List.getElem?_eq_none hkl]
    exact nofun

theorem isFirst_iff {names : List String} {name : String} {i : Nat} (h : names[i]? = some name) :
    IsFirst names name i ↔ name ∉ names.take i := by
  simp only [IsFirst, h, true_and, List.mem_iff_getElem?, List.getElem?_take, not_exists]
  refine forall_congr' fun k => ?_
  split
  · next hk => simp [hk]
  · next hk => simp [hk]

theorem takeOver_getElem? (table : GroupTable) (names : List String) (i : Nat) :
    (takeOver table names)[i]? = names[i]?.map fun name =>
      if name ∈ names.take i then Group.empty name else table[name]?.getD (Group.empty name) := by
  induction names generalizing table i with
  | nil => rfl
  | cons first rest ih =>
    cases i with
    | zero => simp [takeOver]
    | succ i =>
      rw [takeOver, List.getElem?_cons_succ, List.getElem?_cons_succ, ih]
      congr 1
      funext name
      simp only [List.take_succ_cons, List.mem_cons]
      by_cases hf : name = first
      · simp [hf]
      · have hne : ¬ compare first name = .eq := by simpa using Ne.symm hf
        simp only [hf, false_or, Std.ExtTreeMap.getElem?_erase, if_neg hne]

def carried (r : Registry) (names : List String) (name : String) (i : Nat) : Group :=
  if name ∈ names.take i then Group.empty name else r.shown[name]?.getD (Group.empty name)

theorem carried_name (r : Registry) (names : List String) (name : String) (i : Nat) :
    (r.carried names name i).name = name := by
  unfold carried
  split
  · rfl
  · cases hg : r.shown[name]? with
    | none => rfl
    | some g => exact shown_wellNamed r name g hg

theorem carried_of_first (hr : r.Aligned) {names : List String} {name : String} {i : Nat}
    (hfirst : IsFirst names name i) (h : name ∈ r.names) :
    ∃ j y, IsLast r.names name j ∧ r.board.records[j]? = some y ∧
      r.carried names name i = y.group := by
  obtain ⟨j, hj⟩ := exists_last h
  have hmem := (hr.mem_iff j).mpr (List.getElem?_eq_some_iff.mp hj.1).1
  rw [Std.ExtTreeMap.mem_iff_isSome_getElem?] at hmem
  obtain ⟨y, hy⟩ := Option.isSome_iff_exists.mp hmem
  have hn : y.group.name = name := Option.some.inj ((hr.name hy).symm.trans hj.1)
  subst hn
  refine ⟨j, y, hj, hy, ?_⟩
  rw [carried, if_neg ((isFirst_iff hfirst.1).mp hfirst), shown_of_last hr hy hj.2]
  rfl

theorem carried_of_not_first (hr : r.Aligned) {names : List String} {name : String} {i : Nat}
    (hi : names[i]? = some name) (h : ¬ (IsFirst names name i ∧ name ∈ r.names)) :
    r.carried names name i = Group.empty name := by
  rw [isFirst_iff hi] at h
  unfold carried
  split
  · rfl
  · next hfirst =>
    rw [shown_of_not_mem hr fun hm => h ⟨hfirst, hm⟩]
    rfl

theorem arrange_members (b : Board) (g : Group) :
    (b.arrange g).members =
      if b.sortsByDelay then sortProxies .delay g.members else g.members := by
  unfold Board.arrange
  split <;> rfl

theorem arrange_selectable (b : Board) (g : Group) : (b.arrange g).selectable = g.selectable := by
  unfold Board.arrange
  split <;> rfl

theorem arrange_now (b : Board) (g : Group) : (b.arrange g).now = g.now := by
  unfold Board.arrange
  split <;> rfl

theorem arrange_empty (b : Board) (name : String) :
    b.arrange (Group.empty name) = Group.empty name := by
  unfold Board.arrange
  split
  · simp [sortProxies, Group.empty]
  · rfl

theorem arrange_perm (b : Board) (g : Group) : (b.arrange g).members.Perm g.members := by
  rw [arrange_members]
  split
  · exact List.mergeSort_perm _ _
  · exact .refl _

theorem replace_record (r : Registry) {names : List String} (h : r.names ≠ names) {i : Nat}
    {name : String} (hi : names[i]? = some name) :
    (r.replace names).1.board.records[i]? = some ⟨i, r.board.arrange (r.carried names name i),
      linksFor (r.board.arrange (r.carried names name i)).members, false,
      r.board.revision + i + 1⟩ := by
  rw [replace_records r h, takeOver_getElem?, hi]
  rfl

theorem replace_mem_iff (hr : r.Aligned) (names : List String) (i : Nat) :
    i ∈ (r.replace names).1.board.records ↔ i < names.length := by
  rw [(hr.replace names).mem_iff, replace_names]

theorem referenced_iff (hr : r.Aligned) (proxy : String) :
    proxy ∈ r.referenced ↔ r.Lists proxy := by
  simp only [referenced, Std.ExtTreeSet.mem_ofList, List.contains_iff_mem, List.mem_flatMap,
    List.mem_range, List.mem_map, Lists]
  refine exists_congr fun i => ⟨?_, ?_⟩
  · rintro ⟨_, p, hp, hn⟩
    cases hx : r.board.records[i]? with
    | none => simp [hx] at hp
    | some x => exact ⟨x, rfl, p, by simpa [hx] using hp, hn⟩
  · rintro ⟨x, hx, p, hp, hn⟩
    refine ⟨(hr.mem_iff i).mp ?_, p, by simpa [hx] using hp, hn⟩
    rw [Std.ExtTreeMap.mem_iff_isSome_getElem?, hx]
    rfl

theorem replace_referenced_iff (hr : r.Aligned) (names : List String) (proxy : String) :
    proxy ∈ (r.replace names).2.referenced ↔ (r.replace names).1.Lists proxy := by
  by_cases h : r.names = names
  · rw [replace, if_pos h]
    exact referenced_iff hr proxy
  · have hs : (r.replace names).2.referenced =
        .ofList ((takeOver r.shown names).flatMap fun g => g.members.map Proxy.name) := by
      rw [replace, if_neg h]
    rw [hs]
    simp only [Std.ExtTreeSet.mem_ofList, List.contains_iff_mem, List.mem_flatMap, List.mem_map,
      Lists, replace_records r h, List.mem_iff_getElem? (l := takeOver r.shown names)]
    constructor
    · rintro ⟨g, ⟨i, hg⟩, p, hp, hn⟩
      exact ⟨i, _, by rw [hg]; rfl, p, (arrange_perm r.board g).mem_iff.mpr hp, hn⟩
    · rintro ⟨i, x, hx, p, hp, hn⟩
      obtain ⟨g, hg, rfl⟩ := Option.map_eq_some_iff.mp hx
      exact ⟨g, ⟨i, hg⟩, p, (arrange_perm r.board g).mem_iff.mp hp, hn⟩

/-- Nothing happens where the names stay as they are. Otherwise every place gets a record of its own
under a new revision: with the group that was last shown of its name, if this is the first place of
the name and there was one, and with an empty group if not. What is referenced are the members of
all groups that are shown then. -/
theorem replace_takes_groups_along (hr : r.Reachable) (names : List String) :
    (r.names = names → (r.replace names).1 = r ∧ (r.replace names).2.changed = false) ∧
    (r.names ≠ names →
      (r.replace names).2.changed = true ∧ (r.replace names).1.names = names ∧
      (∀ i, i ∈ (r.replace names).1.board.records ↔ i < names.length) ∧
      (∀ (i : Nat) (name : String), names[i]? = some name →
        ∃ x, (r.replace names).1.board.records[i]? = some x ∧
          x.index = i ∧ x.group.name = name ∧ x.testing = false ∧
          x.links = linksFor x.group.members ∧ x.revision = r.board.revision + i + 1 ∧
          (∀ revision ∈ r.board.announced, revision < x.revision) ∧
          (∀ (j : Nat) (y : Record), r.board.records[j]? = some y → y.revision < x.revision) ∧
          (IsFirst names name i → name ∈ r.names →
            ∃ j y, IsLast r.names name j ∧ r.board.records[j]? = some y ∧
              x.group.selectable = y.group.selectable ∧ x.group.now = y.group.now ∧
              x.group.members =
                if r.board.sortsByDelay then sortProxies .delay y.group.members
                else y.group.members) ∧
          (¬ (IsFirst names name i ∧ name ∈ r.names) → x.group = Group.empty name)) ∧
      (r.replace names).1.board.events.reverse = r.board.events.reverse ++
        .reset :: (List.range names.length).map fun i =>
          .updated i (r.board.revision + i + 1)) ∧
    ∀ proxy, proxy ∈ (r.replace names).2.referenced ↔ (r.replace names).1.Lists proxy := by
  have ha := hr.aligned
  have hb := hr.announces
  refine ⟨fun h => ?_, fun h => ⟨?_, replace_names r names, replace_mem_iff ha names, ?_, ?_⟩,
    replace_referenced_iff ha names⟩
  · rw [replace, if_pos h]
    exact ⟨rfl, rfl⟩
  · rw [replace, if_neg h]
  · intro i name hi
    refine ⟨_, replace_record r h hi, rfl, ?_, rfl, rfl, rfl, ?_, ?_, ?_, ?_⟩
    · rw [Board.arrange_name, carried_name]
    · intro revision hm
      rw [hb.announced, List.mem_range'_1] at hm
      show revision < r.board.revision + i + 1
      omega
    · intro j y hy
      have := hb.past j y hy
      show y.revision < r.board.revision + i + 1
      omega
    · intro hfirst hmem
      obtain ⟨j, y, hj, hy, hc⟩ := carried_of_first ha hfirst hmem
      refine ⟨j, y, hj, hy, ?_⟩
      rw [hc]
      exact ⟨arrange_selectable _ _, arrange_now _ _, arrange_members _ _⟩
    · intro hn
      rw [carried_of_not_first ha hi hn]
      exact arrange_empty _ name
  · rw [replace_events_eq r h, List.reverse_append, List.reverse_reverse, List.reverse_cons,
      List.append_assoc]
    rfl

def repeated : Registry :=
  let r : Registry := { board := { config := {} } }
  let r := (r.replace ["auto", "direct", "auto"]).1
  let r := ((Write.publish 0 ⟨"auto", [⟨"p", .terminal, "", 5⟩], true, some "p"⟩).apply r).1
  let r := ((Write.publish 2 ⟨"auto", [⟨"q", .terminal, "", 0⟩, ⟨"p", .terminal, "", 9⟩], true,
    none⟩).apply r).1
  { r with board := r.board.setSortByDelay true }

theorem repeated_reachable : repeated.Reachable :=
  .step (.step (.step (.step (.start _) (.replace _)) (.write _)) (.write _)) (.set (.sort true))

theorem replace_takes_groups_along_repeated :
    let r := (repeated.replace ["other", "auto", "auto"]).1
    (∃ x j y, r.board.records[1]? = some x ∧ IsLast ["auto", "direct", "auto"] "auto" j ∧
      repeated.board.records[j]? = some y ∧
      x.group.members = sortProxies .delay y.group.members) ∧
    ∃ x, r.board.records[2]? = some x ∧ x.group = Group.empty "auto" := by
  intro r
  obtain ⟨_, hswap, _⟩ := replace_takes_groups_along repeated_reachable ["other", "auto", "auto"]
  obtain ⟨_, _, _, hplace, _⟩ := hswap (by decide)
  constructor
  · obtain ⟨x, hx, _, _, _, _, _, _, _, hfirst, _⟩ := hplace 1 "auto" rfl
    obtain ⟨j, y, hj, hy, _, _, hm⟩ := hfirst ⟨rfl, by decide⟩ (by decide)
    exact ⟨x, j, y, hx, hj, hy, hm.trans (if_pos (by decide))⟩
  · obtain ⟨x, hx, _, _, _, _, _, _, _, _, hother⟩ := hplace 2 "auto" rfl
    exact ⟨x, hx, hother fun h => h.1.2 1 (by decide) rfl⟩

end ProxyPulse.Registry
