import Mathlib.Data.List.Chain
import ProxyPulse.Config.Validation

namespace ProxyPulse

structure BudgetTier.Below (t u : BudgetTier) : Prop where
  size : t.maxGroupSize < u.maxGroupSize
  concurrency : t.concurrency ≤ u.concurrency
  wait : t.maxWait ≤ u.maxWait

namespace BudgetTier

theorem Below.trans {t u v : BudgetTier} (h : t.Below u) (h' : u.Below v) : t.Below v :=
  ⟨h.size.trans h'.size, h.concurrency.trans h'.concurrency, h.wait.trans h'.wait⟩

instance : IsTrans BudgetTier Below :=
  ⟨fun _ _ _ => Below.trans⟩

end BudgetTier

namespace Config

theorem growsOn_iff {before row : BudgetTier} : growsOn before row = true ↔ before.Below row := by
  simp only [growsOn, Bool.and_eq_true, decide_eq_true_eq]
  exact ⟨fun ⟨⟨hs, hc⟩, hw⟩ => ⟨hs, hc, hw⟩, fun ⟨hs, hc, hw⟩ => ⟨⟨hs, hc⟩, hw⟩⟩

theorem tierFaults_eq_nil_iff {t : BudgetTier} :
    tierFaults t = [] ↔ t.concurrency ≠ 0 ∧ t.maxWait ≤ maxTierWait := by
  unfold tierFaults
  split <;> split <;> simp_all

theorem isChain_iff_zip {tiers : List BudgetTier} :
    tiers.IsChain BudgetTier.Below ↔ ∀ pair ∈ tiers.zip tiers.tail, growsOn pair.1 pair.2 := by
  induction tiers with
  | nil => simp
  | cons t rest ih =>
    cases rest with
    | nil => simp
    | cons u rest =>
      rw [List.isChain_cons_cons, ih, List.tail_cons, List.tail_cons, List.zip_cons_cons,
        List.forall_mem_cons, growsOn_iff]

theorem orderFaults_eq_nil_iff {tiers : List BudgetTier} :
    orderFaults tiers = [] ↔ tiers.Pairwise BudgetTier.Below := by
  rw [← List.isChain_iff_pairwise, isChain_iff_zip, orderFaults, List.filterMap_eq_nil_iff]
  constructor
  · intro h pair hpair
    obtain ⟨i, hi⟩ := List.getElem?_of_mem hpair
    have hnone := h (pair, i) (List.mem_zipIdx_iff_getElem?.mpr hi)
    by_contra hno
    simp [hno] at hnone
  · rintro h ⟨pair, i⟩ hpair
    exact if_pos (h pair (List.mem_of_getElem? (List.mem_zipIdx_iff_getElem?.mp hpair)))

structure Faultless (c : Config) : Prop where
  positive : ∀ field ∈ c.positiveFields, 0 < field.2
  cleanup : c.scheduler.inProgressTimeoutSecs < c.scheduler.cleanupTimeoutSecs
  url : isUrl c.runtime.controllerUrl = true
  given : c.scheduler.tiers ≠ []
  grows : c.scheduler.tiers.Pairwise BudgetTier.Below
  rows : ∀ t ∈ c.scheduler.tiers, 0 < t.concurrency ∧ t.maxWait ≤ maxTierWait
  interval : c.scheduler.pollIntervalMs ≤ maxPollInterval

theorem isValid_iff {c : Config} : c.IsValid ↔ c.Faultless := by
  have hrows : c.scheduler.tiers.flatMap tierFaults = [] ↔
      ∀ t ∈ c.scheduler.tiers, 0 < t.concurrency ∧ t.maxWait ≤ maxTierWait := by
    rw [List.flatMap_eq_nil_iff]
    refine forall₂_congr fun t _ => ?_
    rw [tierFaults_eq_nil_iff, Nat.pos_iff_ne_zero]
  simp only [IsValid, faults, List.append_eq_nil_iff, List.filterMap_eq_nil_iff, hrows,
    orderFaults_eq_nil_iff, ite_eq_right_iff, ite_eq_left_iff, List.cons_ne_nil, reduceCtorEq,
    imp_false, Nat.not_le, Nat.not_lt, List.isEmpty_iff, not_not]
  constructor
  · rintro ⟨⟨⟨⟨⟨⟨hpositive, hcleanup⟩, hurl⟩, hgiven⟩, hgrows⟩, hrows⟩, hinterval⟩
    exact ⟨fun field hfield => Nat.pos_of_ne_zero (hpositive field hfield), hcleanup, hurl, hgiven,
      hgrows, hrows, hinterval⟩
  · intro h
    have hpositive := fun field hfield => Nat.ne_of_gt (h.positive field hfield)
    exact ⟨⟨⟨⟨⟨⟨hpositive, h.cleanup⟩, h.url⟩, h.given⟩, h.grows⟩, h.rows⟩, h.interval⟩

end Config

end ProxyPulse
