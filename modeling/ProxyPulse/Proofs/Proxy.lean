import ProxyPulse.Board

namespace ProxyPulse

variable {members : List Proxy} {name : String} {delay : Int}

def InDelayOrder (members : List Proxy) : Prop :=
  ∃ known unknown, members = known ++ unknown ∧ (∀ p ∈ known, 0 < p.delay) ∧
    (∀ p ∈ unknown, p.delay ≤ 0) ∧ known.Pairwise (·.delay ≤ ·.delay)

def DistinctNames (members : List Proxy) : Prop :=
  (members.map Proxy.name).Nodup

def Proxy.link (p : Proxy) : Link :=
  ⟨p.name, p.delay⟩

theorem find?_eq_some_of_unique {α : Type} {p : α → Bool} {l : List α} {x : α} (hx : x ∈ l)
    (hp : p x = true) (hu : ∀ y ∈ l, p y = true → y = x) : l.find? p = some x := by
  have hsome : (l.find? p).isSome = true := List.find?_isSome.mpr ⟨x, hx, hp⟩
  obtain ⟨y, hy⟩ := Option.isSome_iff_exists.mp hsome
  rw [hy, hu y (List.mem_of_find?_eq_some hy) (List.find?_some hy)]

theorem delayLe_iff (p q : Proxy) :
    p.delayLe q = true ↔ q.delay ≤ 0 ∨ 0 < p.delay ∧ p.delay ≤ q.delay := by
  unfold Proxy.delayLe Proxy.hasKnownDelay isKnownDelay
  by_cases hp : 0 < p.delay
  · simp [hp]
  · simp [hp]

theorem delayLe_trans (p q r : Proxy) (hpq : p.delayLe q = true) (hqr : q.delayLe r = true) :
    p.delayLe r = true := by
  rw [delayLe_iff] at hpq hqr ⊢
  omega

theorem delayLe_total (p q : Proxy) : (p.delayLe q || q.delayLe p) = true := by
  rw [Bool.or_eq_true, delayLe_iff, delayLe_iff]
  omega

theorem inDelayOrder_iff :
    InDelayOrder members ↔ members.Pairwise fun p q => p.delayLe q = true := by
  constructor
  · rintro ⟨known, unknown, rfl, hk, hu, hs⟩
    refine List.pairwise_append.mpr ⟨?_, ?_, fun p _ q hq => (delayLe_iff p q).mpr (.inl (hu q hq))⟩
    · exact hs.imp_of_mem fun hp _ hle => (delayLe_iff _ _).mpr (.inr ⟨hk _ hp, hle⟩)
    · exact List.pairwise_of_forall_mem_list fun p _ q hq => (delayLe_iff p q).mpr (.inl (hu q hq))
  · intro h
    induction members with
    | nil => exact ⟨[], [], rfl, by simp, by simp, .nil⟩
    | cons p rest ih =>
      obtain ⟨hp, hrest⟩ := List.pairwise_cons.mp h
      by_cases hknown : 0 < p.delay
      · obtain ⟨known, unknown, rfl, hk, hu, hs⟩ := ih hrest
        refine ⟨p :: known, unknown, rfl, List.forall_mem_cons.mpr ⟨hknown, hk⟩, hu,
          List.pairwise_cons.mpr ⟨fun q hq => ?_, hs⟩⟩
        have hle := (delayLe_iff p q).mp (hp q (List.mem_append_left _ hq))
        have := hk q hq
        omega
      · -- nobody with a known delay stands behind one without
        refine ⟨[], p :: rest, rfl, by simp, List.forall_mem_cons.mpr ⟨by omega, fun q hq => ?_⟩,
          .nil⟩
        have hle := (delayLe_iff p q).mp (hp q hq)
        omega

instance (members : List Proxy) : Decidable (InDelayOrder members) :=
  decidable_of_iff _ inDelayOrder_iff.symm

theorem sortProxies_inDelayOrder (members : List Proxy) :
    InDelayOrder (sortProxies .delay members) :=
  inDelayOrder_iff.mpr (List.pairwise_mergeSort delayLe_trans delayLe_total members)

theorem sortProxies_perm (mode : SortMode) (members : List Proxy) :
    (sortProxies mode members).Perm members := by
  cases mode with
  | listed => exact .refl _
  | title => exact List.mergeSort_perm _ _
  | delay => exact List.mergeSort_perm _ _

structure StablySorted (members sorted : List Proxy) : Prop where
  perm : sorted.Perm members
  order : InDelayOrder sorted
  keeps : ∀ kept : List Proxy, kept.Sublist members → InDelayOrder kept → kept.Sublist sorted

theorem sortProxies_stable (members : List Proxy) :
    StablySorted members (sortProxies .delay members) where
  perm := sortProxies_perm .delay members
  order := sortProxies_inDelayOrder members
  keeps _ hkept ho :=
    List.sublist_mergeSort delayLe_trans delayLe_total (inDelayOrder_iff.mp ho) hkept

theorem DistinctNames.perm {members' : List Proxy} (h : DistinctNames members)
    (hp : members'.Perm members) : DistinctNames members' :=
  (hp.map Proxy.name).nodup_iff.mpr h

theorem getElem?_foldl_link (h : DistinctNames members) (links : LinkTable) (l : Link) :
    (members.foldl (fun links p => links.insert p.name p.link) links)[name]? = some l ↔
      (∃ p ∈ members, p.name = name ∧ p.link = l) ∨
        name ∉ members.map Proxy.name ∧ links[name]? = some l := by
  induction members generalizing links with
  | nil => simp
  | cons p rest ih =>
    obtain ⟨hp, hrest⟩ := List.nodup_cons.mp h
    rw [List.foldl_cons, ih hrest, Std.ExtTreeMap.getElem?_insert]
    by_cases hn : p.name = name
    · subst hn
      have hnone : ¬ ∃ q ∈ rest, q.name = p.name ∧ q.link = l := by
        rintro ⟨q, hq, hqn, _⟩
        exact hp (hqn ▸ List.mem_map_of_mem hq)
      simp [hp, hnone]
    · have hne : ¬ compare p.name name = .eq := by simpa using hn
      simp [hne, hn, Ne.symm hn]

theorem getElem?_linksFor (h : DistinctNames members) (l : Link) :
    (linksFor members)[name]? = some l ↔ ∃ p ∈ members, p.name = name ∧ p.link = l := by
  refine (getElem?_foldl_link h ∅ l).trans ?_
  simp

theorem linksFor_perm {members' : List Proxy} (h : DistinctNames members)
    (hp : members'.Perm members) : linksFor members' = linksFor members := by
  refine Std.ExtTreeMap.ext_getElem? fun name => Option.ext fun l => ?_
  rw [getElem?_linksFor (h.perm hp), getElem?_linksFor h]
  simp only [hp.mem_iff]

theorem mem_linksFor : name ∈ linksFor members ↔ name ∈ members.map Proxy.name := by
  have hfold (links : LinkTable) :
      name ∈ members.foldl (fun links p => links.insert p.name p.link) links ↔
        name ∈ members.map Proxy.name ∨ name ∈ links := by
    induction members generalizing links with
    | nil => simp
    | cons p rest ih =>
      rw [List.foldl_cons, ih, Std.ExtTreeMap.mem_insert, List.map_cons, List.mem_cons,
        Std.compare_eq_iff_eq, eq_comm (a := p.name), or_left_comm, or_assoc]
  refine (hfold ∅).trans ?_
  simp

theorem setDelay_names (name : String) (delay : Int) (members : List Proxy) :
    (setDelay name delay members).map Proxy.name = members.map Proxy.name := by
  induction members with
  | nil => rfl
  | cons p rest ih =>
    rw [setDelay]
    split
    · rfl
    · rw [List.map_cons, ih, List.map_cons]

theorem DistinctNames.setDelay (h : DistinctNames members) (name : String) (delay : Int) :
    DistinctNames (setDelay name delay members) := by
  rw [DistinctNames, setDelay_names]
  exact h

theorem setDelay_of_told (h : ∀ p ∈ members, p.name = name → p.delay = delay) :
    setDelay name delay members = members := by
  induction members with
  | nil => rfl
  | cons p rest ih =>
    obtain ⟨hp, hrest⟩ := List.forall_mem_cons.mp h
    rw [setDelay]
    split
    · next hn => rw [← hp hn]
    · rw [ih hrest]

theorem setDelay_eq_map (h : DistinctNames members) : setDelay name delay members =
    members.map fun p => if p.name = name then { p with delay } else p := by
  induction members with
  | nil => rfl
  | cons p rest ih =>
    obtain ⟨hp, hrest⟩ := List.nodup_cons.mp h
    rw [setDelay, List.map_cons]
    split
    · next hn =>
      -- behind the first one of the name there is no other
      congr 1
      refine (List.map_id _).symm.trans (List.map_congr_left fun q hq => ?_)
      have hqn : q.name ≠ name := fun hqn => hp (hn ▸ hqn ▸ List.mem_map_of_mem hq)
      exact (if_neg hqn).symm
    · rw [ih hrest]

theorem setDelay_perm {members' : List Proxy} (h : DistinctNames members)
    (hp : members'.Perm members) (name : String) (delay : Int) :
    (setDelay name delay members').Perm (setDelay name delay members) := by
  rw [setDelay_eq_map h, setDelay_eq_map (h.perm hp)]
  exact hp.map _

theorem mem_setDelay (h : DistinctNames members) {q : Proxy} :
    q ∈ setDelay name delay members ↔
      q ∈ members ∧ q.name ≠ name ∨ ∃ p ∈ members, p.name = name ∧ q = { p with delay } := by
  induction members with
  | nil => simp [setDelay]
  | cons p rest ih =>
    obtain ⟨hp, hrest⟩ := List.nodup_cons.mp h
    rw [setDelay]
    split
    · next hn =>
      -- behind the first one of the name there is no other
      have hother : ∀ x ∈ rest, x.name ≠ name := fun x hx hxn =>
        hp (hn ▸ hxn ▸ List.mem_map_of_mem hx)
      grind
    · next hn =>
      rw [List.mem_cons, ih hrest]
      grind

theorem linksFor_setDelay (h : DistinctNames members) (name : String) (delay : Int) :
    linksFor (setDelay name delay members) =
      (linksFor members).modify name ({ · with delay := delay }) := by
  refine Std.ExtTreeMap.ext_getElem? fun other => Option.ext fun l => ?_
  rw [getElem?_linksFor (h.setDelay name delay), Std.ExtTreeMap.getElem?_modify]
  simp only [mem_setDelay h, Std.compare_eq_iff_eq]
  split
  · next hn =>
    subst hn
    simp only [Option.map_eq_some_iff, getElem?_linksFor h]
    constructor
    · rintro ⟨q, ⟨_, hne⟩ | ⟨p, hp, hn, rfl⟩, hq, rfl⟩
      · exact absurd hq hne
      · exact ⟨p.link, ⟨p, hp, hn, rfl⟩, rfl⟩
    · rintro ⟨_, ⟨p, hp, hn, rfl⟩, rfl⟩
      exact ⟨{ p with delay }, .inr ⟨p, hp, hn, rfl⟩, hn, rfl⟩
  · next hn =>
    rw [getElem?_linksFor h]
    constructor
    · rintro ⟨q, ⟨hq, _⟩ | ⟨p, _, hp, rfl⟩, hqn, rfl⟩
      · exact ⟨q, hq, hqn, rfl⟩
      · exact absurd (hp.symm.trans hqn) hn
    · rintro ⟨q, hq, hqn, rfl⟩
      exact ⟨q, .inl ⟨hq, fun h => hn (h.symm.trans hqn)⟩, hqn, rfl⟩

def setDelays (reports : List (String × Int)) (members : List Proxy) : List Proxy :=
  reports.foldl (fun members report => setDelay report.1 report.2 members) members

def Proxy.reported (reports : List (String × Int)) (p : Proxy) : Proxy :=
  { p with delay := (reports.lookup p.name).getD p.delay }

theorem setDelays_eq_map {reports : List (String × Int)} (h : DistinctNames members)
    (hr : (reports.map Prod.fst).Nodup) :
    setDelays reports members = members.map (Proxy.reported reports) := by
  induction reports generalizing members with
  | nil => exact (List.map_id _).symm
  | cons report rest ih =>
    obtain ⟨name, delay⟩ := report
    obtain ⟨hnot, hrest⟩ := List.nodup_cons.mp hr
    rw [setDelays, List.foldl_cons]
    refine (ih (h.setDelay name delay) hrest).trans ?_
    rw [setDelay_eq_map h, List.map_map]
    refine List.map_congr_left fun p _ => ?_
    unfold Proxy.reported Function.comp
    rw [List.lookup_cons]
    by_cases hn : p.name = name
    · -- nothing that comes later is about the same member
      have hnone : rest.lookup name = none := by
        rw [List.lookup_eq_none_iff]
        exact fun r hmem => bne_iff_ne.mpr fun he => hnot (List.mem_map.mpr ⟨r, hmem, he.symm⟩)
      simp [hn, hnone]
    · rw [beq_false_of_ne hn]
      simp [hn]

theorem lookup_perm {reports reports' : List (String × Int)} (hp : reports.Perm reports')
    (hr : (reports.map Prod.fst).Nodup) (name : String) :
    reports.lookup name = reports'.lookup name := by
  induction hp with
  | nil => rfl
  | cons report _ ih =>
    obtain ⟨other, delay⟩ := report
    rw [List.lookup_cons, List.lookup_cons, ih (List.nodup_cons.mp hr).2]
  | swap a b rest =>
    obtain ⟨first, delay⟩ := a
    obtain ⟨second, delay'⟩ := b
    have hne : second ≠ first := fun he =>
      (List.nodup_cons.mp hr).1 (List.mem_cons.mpr (.inl he))
    simp only [List.lookup_cons]
    by_cases hs : name = second
    · rw [hs, beq_self_eq_true, beq_false_of_ne hne]
    · rw [beq_false_of_ne hs]
  | trans hp _ ih ih' => exact (ih hr).trans (ih' ((hp.map Prod.fst).nodup_iff.mp hr))

end ProxyPulse
