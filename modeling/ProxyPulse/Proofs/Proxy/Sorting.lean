import ProxyPulse.Proofs.Proxy

namespace ProxyPulse

section

variable {α : Type} {le : α → α → Bool}

def level (le : α → α → Bool) (a b : α) : Bool :=
  le a b && le b a

theorem le_of_level (htrans : ∀ a b c, le a b = true → le b c = true → le a c = true)
    {a b c : α} (hb : level le a b = true) (hc : level le a c = true) : le b c = true := by
  rw [level, Bool.and_eq_true] at hb hc
  exact htrans b a c hb.2 hc.1

theorem level_self (htotal : ∀ a b, (le a b || le b a) = true) (a : α) :
    level le a a = true := by
  simpa [level] using htotal a a

theorem filter_level_mergeSort (htrans : ∀ a b c, le a b = true → le b c = true → le a c = true)
    (htotal : ∀ a b, (le a b || le b a) = true) (l : List α) (a : α) :
    (l.mergeSort le).filter (level le a) = l.filter (level le a) := by
  have horder : (l.filter (level le a)).Pairwise fun b c => le b c = true := by
    apply List.pairwise_of_forall_mem_list
    intro b hb c hc
    exact le_of_level htrans (List.mem_filter.mp hb).2 (List.mem_filter.mp hc).2
  have hsub : (l.filter (level le a)).Sublist (l.mergeSort le) :=
    List.sublist_mergeSort htrans htotal horder List.filter_sublist
  have hkept := hsub.filter (level le a)
  rw [List.filter_filter, funext fun b => Bool.and_self (level le a b)] at hkept
  apply (hkept.eq_of_length _).symm
  exact (((List.mergeSort_perm l le).filter _).length_eq).symm

theorem eq_of_filter_level (htotal : ∀ a b, (le a b || le b a) = true) {l l' : List α}
    (h : l.Pairwise fun a b => le a b = true) (h' : l'.Pairwise fun a b => le a b = true)
    (hlevel : ∀ a, l.filter (level le a) = l'.filter (level le a)) : l = l' := by
  have hmem {a : α} {l l' : List α} (hlevel : l.filter (level le a) = l'.filter (level le a))
      (ha : a ∈ l) : a ∈ l' := by
    have : a ∈ l.filter (level le a) := List.mem_filter.mpr ⟨ha, level_self htotal a⟩
    rw [hlevel] at this
    exact (List.mem_filter.mp this).1
  induction l generalizing l' with
  | nil =>
    cases l' with
    | nil => rfl
    | cons b u => cases hmem (hlevel b).symm List.mem_cons_self
  | cons a t ih =>
    cases l' with
    | nil => cases hmem (hlevel a) List.mem_cons_self
    | cons b u =>
      obtain ⟨hfirst, ht⟩ := List.pairwise_cons.mp h
      obtain ⟨hfirst', hu⟩ := List.pairwise_cons.mp h'
      -- each of the two heads stands somewhere in the other list, so they are level
      have hself := level_self htotal a
      have hab : level le a b = true := by
        rw [level, Bool.and_eq_true] at hself ⊢
        constructor
        · rcases List.mem_cons.mp (hmem (hlevel b).symm List.mem_cons_self) with rfl | hb
          · exact hself.1
          · exact hfirst b hb
        · rcases List.mem_cons.mp (hmem (hlevel a) List.mem_cons_self) with rfl | ha
          · exact hself.1
          · exact hfirst' a ha
      have heads := hlevel a
      rw [List.filter_cons_of_pos hself, List.filter_cons_of_pos hab] at heads
      obtain rfl : a = b := (List.cons.inj heads).1
      congr 1
      apply ih ht hu
      intro c
      have hc := hlevel c
      rw [List.filter_cons, List.filter_cons] at hc
      split at hc
      · exact (List.cons.inj hc).2
      · exact hc

end

namespace SortMode

def InOrder : SortMode → List Proxy → Prop
  | .listed, _ => True
  | .title, members => members.Pairwise (·.name ≤ ·.name)
  | .delay, members => InDelayOrder members

def ties : SortMode → Proxy → Proxy → Bool
  | .listed, _, _ => true
  | .title, p, q => p.name = q.name
  | .delay, p, q => p.delay = q.delay || (p.delay ≤ 0 && q.delay ≤ 0)

/-- A list with the members of another one in the order of a mode, where members between which the
mode has no preference come in the order of that other list. -/
structure Arranges (mode : SortMode) (members sorted : List Proxy) : Prop where
  perm : sorted.Perm members
  order : mode.InOrder sorted
  keeps : ∀ p, sorted.filter (mode.ties p) = members.filter (mode.ties p)

def le : SortMode → Proxy → Proxy → Bool
  | .listed, _, _ => true
  | .title, p, q => p.titleLe q
  | .delay, p, q => p.delayLe q

theorem le_trans (mode : SortMode) (p q r : Proxy) (hpq : mode.le p q = true)
    (hqr : mode.le q r = true) : mode.le p r = true := by
  cases mode with
  | listed => rfl
  | title =>
    simp only [le, Proxy.titleLe, decide_eq_true_eq] at *
    exact String.le_trans hpq hqr
  | delay => exact delayLe_trans p q r hpq hqr

theorem le_total (mode : SortMode) (p q : Proxy) : (mode.le p q || mode.le q p) = true := by
  cases mode with
  | listed => rfl
  | title => simpa [le, Proxy.titleLe] using String.le_total p.name q.name
  | delay => exact delayLe_total p q

theorem level_le (mode : SortMode) : level mode.le = mode.ties := by
  funext p q
  rw [Bool.eq_iff_iff]
  cases mode with
  | listed => simp [level, le, ties]
  | title =>
    simp only [level, le, ties, Proxy.titleLe, Bool.and_eq_true, decide_eq_true_eq]
    constructor
    · exact fun h => String.le_antisymm h.1 h.2
    · exact fun h => h ▸ ⟨String.le_refl _, String.le_refl _⟩
  | delay =>
    simp only [level, le, ties, Bool.and_eq_true, Bool.or_eq_true, delayLe_iff, decide_eq_true_eq]
    omega

theorem inOrder_iff (mode : SortMode) (members : List Proxy) :
    mode.InOrder members ↔ members.Pairwise fun p q => mode.le p q = true := by
  cases mode with
  | listed => exact iff_of_true trivial (List.pairwise_of_forall fun _ _ => rfl)
  | title => simp [InOrder, le, Proxy.titleLe]
  | delay => exact inDelayOrder_iff

theorem arranges_sortProxies (mode : SortMode) (members : List Proxy) :
    mode.Arranges members (sortProxies mode members) := by
  have hsorted : mode ≠ .listed → sortProxies mode members = members.mergeSort mode.le := by
    cases mode with
    | listed => exact fun h => absurd rfl h
    | title => exact fun _ => rfl
    | delay => exact fun _ => rfl
  refine ⟨sortProxies_perm mode members, ?_, fun p => ?_⟩
  · cases mode with
    | listed => trivial
    | _ =>
      rw [hsorted SortMode.noConfusion, inOrder_iff]
      exact List.pairwise_mergeSort (le_trans _) (le_total _) members
  · cases mode with
    | listed => rfl
    | _ =>
      rw [hsorted SortMode.noConfusion, ← level_le]
      exact filter_level_mergeSort (le_trans _) (le_total _) members p

theorem Arranges.unique {mode : SortMode} {members sorted sorted' : List Proxy}
    (h : mode.Arranges members sorted) (h' : mode.Arranges members sorted') : sorted = sorted' := by
  apply eq_of_filter_level (le_total mode) ((inOrder_iff mode _).mp h.order)
    ((inOrder_iff mode _).mp h'.order)
  intro p
  rw [level_le]
  exact (h.keeps p).trans (h'.keeps p).symm

end SortMode

/-- Sorting arranges the members, there is no other list that does, and a list that was sorted is not
changed by sorting it again. -/
theorem sorting_leaves_no_choice (mode : SortMode) (members : List Proxy) :
    (∀ sorted, mode.Arranges members sorted ↔ sorted = sortProxies mode members) ∧
      sortProxies mode (sortProxies mode members) = sortProxies mode members := by
  have hsorted := mode.arranges_sortProxies members
  constructor
  · intro sorted
    constructor
    · intro h
      exact h.unique hsorted
    · rintro rfl
      exact hsorted
  · apply (mode.arranges_sortProxies (sortProxies mode members)).unique
    exact ⟨.refl _, hsorted.order, fun _ => rfl⟩

example : sortProxies .delay [⟨"a", .terminal, "", 0⟩, ⟨"b", .terminal, "", 300⟩,
    ⟨"c", .terminal, "", -1⟩, ⟨"d", .terminal, "", 40⟩] = [⟨"d", .terminal, "", 40⟩,
    ⟨"b", .terminal, "", 300⟩, ⟨"a", .terminal, "", 0⟩, ⟨"c", .terminal, "", -1⟩] := by
  cbv

end ProxyPulse
