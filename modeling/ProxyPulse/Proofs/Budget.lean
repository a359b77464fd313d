import ProxyPulse.Budget
import ProxyPulse.Proofs.Config.Validation

namespace ProxyPulse.Budget

/-- The row of a table for a size: of those that cover it the one for the smallest groups, or the last
one where none does. -/
inductive Serves (tiers : List BudgetTier) (size : Nat) : BudgetTier → Prop
  | covers {row : BudgetTier} : row ∈ tiers → size ≤ row.maxGroupSize →
    (∀ other ∈ tiers, size ≤ other.maxGroupSize → row.maxGroupSize ≤ other.maxGroupSize) →
    Serves tiers size row
  | last {row : BudgetTier} : tiers.getLast? = some row →
    (∀ other ∈ tiers, other.maxGroupSize < size) → Serves tiers size row

variable {tiers : List BudgetTier} {size s t : Nat} {row other : BudgetTier}

theorem Serves.mem (h : Serves tiers size row) : row ∈ tiers := by
  cases h with
  | covers hmem => exact hmem
  | last hlast => exact List.mem_of_getLast? hlast

section

variable (hgrows : tiers.Pairwise BudgetTier.Below)

include hgrows

theorem eq_or_below (hrow : row ∈ tiers) (hother : other ∈ tiers)
    (hsize : row.maxGroupSize ≤ other.maxGroupSize) : row = other ∨ row.Below other := by
  obtain ⟨i, hi, rfl⟩ := List.mem_iff_getElem.mp hrow
  obtain ⟨j, hj, rfl⟩ := List.mem_iff_getElem.mp hother
  rcases Nat.lt_trichotomy i j with hlt | rfl | hgt
  · exact .inr (List.pairwise_iff_getElem.mp hgrows i j hi hj hlt)
  · exact .inl rfl
  · have hbelow := List.pairwise_iff_getElem.mp hgrows j i hj hi hgt
    exact absurd hbelow.size (Nat.not_lt.mpr hsize)

theorem le_last (hlast : tiers.getLast? = some row) (hother : other ∈ tiers) :
    other.maxGroupSize ≤ row.maxGroupSize := by
  obtain ⟨before, rfl⟩ := List.getLast?_eq_some_iff.mp hlast
  rcases List.mem_append.mp hother with hbefore | hsame
  · have hbelow := (List.pairwise_append.mp hgrows).2.2 other hbefore row List.mem_cons_self
    exact Nat.le_of_lt hbelow.size
  · rw [List.mem_singleton.mp hsame]

theorem find?_serves (h : tiers.find? (size ≤ ·.maxGroupSize) = some row) :
    Serves tiers size row := by
  obtain ⟨hcovers, before, after, rfl, hbefore⟩ := List.find?_eq_some_iff_append.mp h
  refine .covers (List.mem_append_right _ List.mem_cons_self) (of_decide_eq_true hcovers)
    fun other hother hsize => ?_
  rcases List.mem_append.mp hother with hmem | hmem
  · have hnot := hbefore other hmem
    simp [hsize] at hnot
  · rcases List.mem_cons.mp hmem with rfl | hafter
    · exact Nat.le_refl _
    · have htail := (List.pairwise_append.mp hgrows).2.1
      exact Nat.le_of_lt (List.rel_of_pairwise_cons htail hafter).size

theorem forGroupSize_serves (hgiven : tiers ≠ []) (size : Nat) :
    ∃ row, Serves tiers size row ∧ forGroupSize tiers size = ofTier row := by
  unfold forGroupSize
  cases hfind : tiers.find? (size ≤ ·.maxGroupSize) with
  | some row => exact ⟨row, find?_serves hgrows hfind, rfl⟩
  | none =>
    have hlast := List.getLast?_eq_some_getLast hgiven
    refine ⟨_, .last hlast fun other hother => ?_, by rw [hlast]; rfl⟩
    have hnot := List.find?_eq_none.mp hfind other hother
    rwa [decide_eq_true_eq, Nat.not_le] at hnot

theorem Serves.mono (hle : s ≤ t) (h : Serves tiers s row) (h' : Serves tiers t other) :
    row = other ∨ row.Below other := by
  refine eq_or_below hgrows h.mem h'.mem ?_
  cases h' with
  | last hlast hnone => exact le_last hgrows hlast h.mem
  | covers hmem hsize _ =>
    cases h with
    | covers _ _ hleast => exact hleast other hmem (hle.trans hsize)
    | last _ hnone => exact absurd (hle.trans hsize) (Nat.not_le.mpr (hnone other hmem))

theorem Serves.unique (h : Serves tiers size row) (h' : Serves tiers size other) :
    other = row := by
  rcases h'.mono hgrows (Nat.le_refl size) h with heq | hbelow
  · exact heq
  · rcases h.mono hgrows (Nat.le_refl size) h' with heq | hbelow'
    · exact heq.symm
    · exact absurd hbelow.size (Nat.lt_asymm hbelow'.size)

end

theorem ofTier_eq (h : 0 < row.concurrency ∧ row.maxWait ≤ maxTierWait) :
    ofTier row = ⟨row.concurrency, row.maxWait⟩ := by
  rw [ofTier, Nat.max_eq_left h.1, Nat.min_eq_left h.2]

theorem serves_of_valid {c : Config} (h : c.Faultless) (size : Nat) :
    ∃ row, Serves c.scheduler.tiers size row ∧
      forGroupSize c.scheduler.tiers size = ⟨row.concurrency, row.maxWait⟩ := by
  obtain ⟨row, hserves, hbudget⟩ := forGroupSize_serves h.grows h.given size
  exact ⟨row, hserves, hbudget.trans (ofTier_eq (h.rows row hserves.mem))⟩

theorem forall_forGroupSize_iff {c : Config} (h : c.Faultless) {P : Budget → Prop} :
    (∀ size, P (forGroupSize c.scheduler.tiers size)) ↔
      ∀ row ∈ c.scheduler.tiers, P ⟨row.concurrency, row.maxWait⟩ := by
  constructor
  · intro hall row hrow
    obtain ⟨other, hserves, hbudget⟩ := serves_of_valid h row.maxGroupSize
    have hown : Serves c.scheduler.tiers row.maxGroupSize row :=
      .covers hrow (Nat.le_refl _) fun other _ hle => hle
    rw [hown.unique h.grows hserves] at hbudget
    exact hbudget ▸ hall row.maxGroupSize
  · intro hall size
    obtain ⟨row, hserves, hbudget⟩ := serves_of_valid h size
    exact hbudget ▸ hall row hserves.mem

/-- Under valid settings the budget of a group is a row of the table as it stands: of the rows that
cover the group the one for the smallest groups, or the last row where none does. It lets at least one
probe run and grants no more than the longest wait, and a larger group gets no less. -/
theorem budgets_grow_with_groups {c : Config} (h : c.IsValid) :
    (∀ s t, s ≤ t →
      (forGroupSize c.scheduler.tiers s).concurrency ≤
        (forGroupSize c.scheduler.tiers t).concurrency ∧
      (forGroupSize c.scheduler.tiers s).maxWait ≤ (forGroupSize c.scheduler.tiers t).maxWait) ∧
    ∀ size,
      1 ≤ (forGroupSize c.scheduler.tiers size).concurrency ∧
      (forGroupSize c.scheduler.tiers size).maxWait ≤ maxTierWait ∧
      ∃ row, Serves c.scheduler.tiers size row ∧
        forGroupSize c.scheduler.tiers size = ⟨row.concurrency, row.maxWait⟩ ∧
        ∀ other, Serves c.scheduler.tiers size other → other = row := by
  have hvalid := Config.isValid_iff.mp h
  refine ⟨fun s t hle => ?_, fun size => ?_⟩
  · obtain ⟨row, hrow, hs⟩ := serves_of_valid hvalid s
    obtain ⟨other, hother, ht⟩ := serves_of_valid hvalid t
    rw [hs, ht]
    rcases hrow.mono hvalid.grows hle hother with rfl | hbelow
    · exact ⟨Nat.le_refl _, Nat.le_refl _⟩
    · exact ⟨hbelow.concurrency, hbelow.wait⟩
  · obtain ⟨row, hrow, hbudget⟩ := serves_of_valid hvalid size
    obtain ⟨hconcurrency, hwait⟩ := hvalid.rows row hrow.mem
    rw [hbudget]
    exact ⟨hconcurrency, hwait, row, hrow, rfl, fun other => hrow.unique hvalid.grows⟩

def twoTiers : Config :=
  { scheduler := { tiers := [⟨3, 2, 100⟩, ⟨7, 2, 500⟩] } }

theorem budgets_grow_with_groups_two : twoTiers.IsValid ∧
    (forGroupSize twoTiers.scheduler.tiers 3).maxWait ≤
      (forGroupSize twoTiers.scheduler.tiers 8).maxWait ∧
    ∃ row, Serves twoTiers.scheduler.tiers 8 row ∧
      forGroupSize twoTiers.scheduler.tiers 8 = ⟨row.concurrency, row.maxWait⟩ ∧
      row = ⟨7, 2, 500⟩ := by
  have hvalid : twoTiers.IsValid := by decide
  obtain ⟨hmono, hserves⟩ := budgets_grow_with_groups hvalid
  obtain ⟨-, -, row, hrow, hbudget, hunique⟩ := hserves 8
  refine ⟨hvalid, (hmono 3 8 (by decide)).2, row, hrow, hbudget, ?_⟩
  exact (hunique _ (.last rfl (by decide))).symm

end ProxyPulse.Budget
