import ProxyPulse.Controller.Table
import ProxyPulse.Proofs.Proxy

namespace ProxyPulse.ProxyTable

variable {table : ProxyTable} {selectableOnly : Bool} {name : String}

def listed (table : ProxyTable) : List String :=
  table[globalName]?.elim [] TableEntry.members

structure IsWanted (table : ProxyTable) (selectableOnly : Bool) (name : String) : Prop where
  ne_global : name ≠ globalName
  known : ∃ e kind, table[name]? = some e ∧ e.kind? = some kind ∧
    (selectableOnly = true → kind = .selector)

theorem shows_iff : table.shows selectableOnly name = true ↔ table.IsWanted selectableOnly name := by
  have hkind (kind : GroupKind) : (!selectableOnly || kind.isSelectable) = true ↔
      (selectableOnly = true → kind = .selector) := by
    cases selectableOnly <;> simp [GroupKind.isSelectable]
  unfold shows
  simp only [Bool.and_eq_true, bne_iff_ne, Option.any_eq_true, hkind, Option.bind_eq_some_iff]
  constructor
  · rintro ⟨hne, kind, ⟨e, he, hk⟩, hsel⟩
    exact ⟨hne, e, kind, he, hk, hsel⟩
  · rintro ⟨hne, e, kind, he, hk, hsel⟩
    exact ⟨hne, kind, ⟨e, he, hk⟩, hsel⟩

instance (name : String) : Decidable (table.IsWanted selectableOnly name) :=
  decidable_of_iff _ shows_iff

theorem IsWanted.mem (h : table.IsWanted selectableOnly name) : name ∈ table := by
  obtain ⟨e, _, he, _⟩ := h.known
  rw [Std.ExtTreeMap.mem_iff_isSome_getElem?, he]
  rfl

def unlisted (table : ProxyTable) (selectableOnly : Bool) : List String :=
  table.keys.filter fun name => table.IsWanted selectableOnly name ∧ name ∉ table.listed

theorem mem_unlisted : name ∈ table.unlisted selectableOnly ↔
    table.IsWanted selectableOnly name ∧ name ∉ table.listed := by
  simp only [unlisted, List.mem_filter, decide_eq_true_eq, Std.ExtTreeMap.mem_keys]
  exact ⟨fun h => h.2, fun h => ⟨h.1.mem, h⟩⟩

theorem keys_ascend (table : ProxyTable) : table.keys.Pairwise (· < ·) := by
  have hkeys := Std.ExtTreeMap.ordered_keys (t := table)
  exact hkeys.imp fun h => compareOfLessAndEq_eq_lt.mp h

theorem unlisted_ascend (table : ProxyTable) (selectableOnly : Bool) :
    (table.unlisted selectableOnly).Pairwise (· < ·) :=
  table.keys_ascend.filter _

theorem isUnlisted_iff : (table.shows selectableOnly name &&
      !(table.listed.filter (table.shows selectableOnly)).contains name) =
    decide (table.IsWanted selectableOnly name ∧ name ∉ table.listed) := by
  by_cases h : table.shows selectableOnly name = true
  · have hw := shows_iff.mp h
    simp [h, hw]
  · have hw : ¬ table.IsWanted selectableOnly name := fun hw => h (shows_iff.mpr hw)
    simp [h, hw]

theorem groupNames_eq (table : ProxyTable) (selectableOnly : Bool) :
    table.groupNames selectableOnly =
      table.listed.filter (table.IsWanted selectableOnly ·) ++ table.unlisted selectableOnly := by
  have hshows : (table.shows selectableOnly) = fun name => decide (table.IsWanted selectableOnly name) := by
    funext name
    rw [Bool.eq_iff_iff, shows_iff, decide_eq_true_eq]
  rw [← hshows, unlisted, ← funext fun _ => isUnlisted_iff]
  rfl

theorem mem_groupNames :
    name ∈ table.groupNames selectableOnly ↔ table.IsWanted selectableOnly name := by
  rw [groupNames_eq, List.mem_append, mem_unlisted, List.mem_filter, decide_eq_true_eq]
  constructor
  · rintro (⟨_, hw⟩ | ⟨hw, _⟩) <;> exact hw
  · intro hw
    by_cases hl : name ∈ table.listed
    · exact .inl ⟨hl, hw⟩
    · exact .inr ⟨hw, hl⟩

theorem count_groupNames (table : ProxyTable) (selectableOnly : Bool) (name : String) :
    (table.groupNames selectableOnly).count name =
      if table.IsWanted selectableOnly name then max 1 (table.listed.count name) else 0 := by
  split
  · next hw =>
    have hfilter := List.count_filter (l := table.listed)
      (p := fun name => decide (table.IsWanted selectableOnly name)) (decide_eq_true hw)
    rw [groupNames_eq, List.count_append, hfilter]
    by_cases hl : name ∈ table.listed
    · have hno : (table.unlisted selectableOnly).count name = 0 :=
        List.count_eq_zero.mpr fun h => (mem_unlisted.mp h).2 hl
      have : 0 < table.listed.count name := List.count_pos_iff.mpr hl
      omega
    · have hnodup : (table.unlisted selectableOnly).Nodup :=
        Std.ExtTreeMap.nodup_keys.filter _
      have hone : (table.unlisted selectableOnly).count name = 1 := by
        rw [hnodup.count, if_pos (mem_unlisted.mpr ⟨hw, hl⟩)]
      have : table.listed.count name = 0 := List.count_eq_zero.mpr hl
      omega
  · next hw =>
    exact List.count_eq_zero.mpr fun h => hw (mem_groupNames.mp h)

/-- The names as they come from a table without an order of its own, which hands out its names in any
order: those that `GLOBAL` does not list are sorted in the end. -/
def gatherNames (table : ProxyTable) (selectableOnly : Bool) (keys : List String) : List String :=
  let listed := table.listed.filter (table.shows selectableOnly)
  let rest := keys.filter fun name => table.shows selectableOnly name && !listed.contains name
  listed ++ rest.mergeSort fun a b => decide (a ≤ b)

theorem gatherNames_perm {keys : List String} (h : keys.Perm table.keys) :
    table.gatherNames selectableOnly keys = table.groupNames selectableOnly := by
  refine congrArg (table.listed.filter (table.shows selectableOnly) ++ ·) ?_
  have hsorted (l : List String) : (l.mergeSort fun a b => decide (a ≤ b)).Pairwise (· ≤ ·) := by
    have hs := @List.pairwise_mergeSort _ (fun a b : String => decide (a ≤ b))
      (fun a b c => by simpa using String.le_trans) (fun a b => by simpa using String.le_total a b) l
    exact hs.imp fun h => of_decide_eq_true h
  apply List.Perm.eq_of_pairwise (fun a b _ _ => String.le_antisymm) (hsorted _)
  · exact (table.keys_ascend.filter _).imp fun h => String.not_lt.mp (String.lt_asymm h)
  · exact (List.mergeSort_perm _ _).trans (h.filter _)

theorem member_name (table : ProxyTable) (name : String) : (table.member name).name = name := by
  unfold member
  split <;> rfl

theorem member_isGroup : (table.member name).isGroup = true ↔
    ∃ e kind, table[name]? = some e ∧ e.kind? = some kind := by
  unfold member
  split
  · next h => simp [h, Proxy.isGroup]
  · next e h =>
    cases hk : e.kind? with
    | none => simp [h, hk, Proxy.isGroup]
    | some kind => simp [h, hk, Proxy.isGroup]

structure Describes (table : ProxyTable) (name : String) (sort : SortMode) (r : GroupReport) :
    Prop where
  name_eq : r.name = name
  entry : ∃ e, table[name]? = some e ∧ e.kind? = some r.kind ∧
    (r.members.map Proxy.name).Perm e.members ∧
    (sort = .listed → r.members.map Proxy.name = e.members)

theorem group?_describes {sort : SortMode} {r : GroupReport} (h : table.group? name sort = some r) :
    table.Describes name sort r ∧ ∀ p ∈ r.members, p = table.member p.name := by
  obtain ⟨e, he, h⟩ := Option.bind_eq_some_iff.mp h
  obtain ⟨kind, hk, h⟩ := Option.bind_eq_some_iff.mp h
  obtain rfl := Option.some.inj h
  have hnames (names : List String) : (names.map table.member).map Proxy.name = names := by
    rw [List.map_map]
    exact (List.map_congr_left fun n _ => table.member_name n).trans (List.map_id names)
  refine ⟨⟨rfl, e, he, hk, ?_, ?_⟩, ?_⟩
  · have hp := (sortProxies_perm sort (e.members.map table.member)).map Proxy.name
    rwa [hnames] at hp
  · rintro rfl
    exact hnames e.members
  · intro p hp
    obtain ⟨n, _, rfl⟩ := List.mem_map.mp ((sortProxies_perm sort _).mem_iff.mp hp)
    rw [member_name]

theorem IsWanted.group? (h : table.IsWanted selectableOnly name) (sort : SortMode) :
    ∃ r, table.group? name sort = some r ∧ (selectableOnly = true → r.selectable = true) := by
  obtain ⟨e, kind, he, hk, hsel⟩ := h.known
  refine ⟨_, Option.bind_eq_some_iff.mpr ⟨e, he, Option.bind_eq_some_iff.mpr ⟨kind, hk, rfl⟩⟩, ?_⟩
  intro hs
  rw [GroupReport.selectable, hsel hs]
  rfl

/-- The groups to show are those that `GLOBAL` lists, as it lists them, and after them the others in
ascending order, each wanted group at least once, whatever the order in which the table hands out its
names. Each of them is described, with everyone whom it lists; and a member that a description calls a
group is one of the groups to show, `GLOBAL` aside. -/
theorem shown_groups_are_described (table : ProxyTable) (selectableOnly : Bool) :
    (∃ rest, table.groupNames selectableOnly =
        table.listed.filter (table.IsWanted selectableOnly ·) ++ rest ∧ rest.Pairwise (· < ·) ∧
        ∀ name, name ∈ rest ↔ table.IsWanted selectableOnly name ∧ name ∉ table.listed) ∧
    (∀ name, (table.groupNames selectableOnly).count name =
        if table.IsWanted selectableOnly name then max 1 (table.listed.count name) else 0) ∧
    (∀ keys : List String, keys.Perm table.keys →
      table.gatherNames selectableOnly keys = table.groupNames selectableOnly) ∧
    (∀ name ∈ table.groupNames selectableOnly, ∀ sort, ∃ r, table.group? name sort = some r ∧
      table.Describes name sort r ∧ (selectableOnly = true → r.selectable = true)) ∧
    (∀ name sort r, table.group? name sort = some r → ∀ p ∈ r.members, p.isGroup = true →
      p.name ≠ globalName → p.name ∈ table.groupNames false) := by
  refine ⟨⟨_, table.groupNames_eq selectableOnly, table.unlisted_ascend selectableOnly,
    fun _ => mem_unlisted⟩, table.count_groupNames selectableOnly, fun _ => gatherNames_perm, ?_, ?_⟩
  · intro name hname sort
    obtain ⟨r, hr, hsel⟩ := (mem_groupNames.mp hname).group? sort
    exact ⟨r, hr, (group?_describes hr).1, hsel⟩
  · intro name sort r hr p hp hgroup hne
    rw [(group?_describes hr).2 p hp, member_isGroup] at hgroup
    obtain ⟨e, kind, he, hk⟩ := hgroup
    exact mem_groupNames.mpr ⟨hne, e, kind, he, hk, Bool.noConfusion⟩

end ProxyPulse.ProxyTable
