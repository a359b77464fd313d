import Mathlib.Data.List.Induction
import ProxyPulse.Backoff

namespace ProxyPulse.Backoff

inductive Act where
  | next (draw : Nat)
  | reset
  deriving DecidableEq, Repr

def Act.isNext : Act → Bool
  | .next _ => true
  | .reset => false

def perform (b : Backoff) : Act → Backoff
  | .next draw => (b.next draw).2
  | .reset => b.reset

def taken (acts : List Act) : Nat :=
  (acts.reverse.takeWhile Act.isNext).length

def unbounded (b : Backoff) (n : Nat) : Nat :=
  min (b.base * Nat.pow 2 (n - 1)) b.cap

variable {b : Backoff} {n : Nat}

theorem taken_next (acts : List Act) (draw : Nat) :
    taken (acts ++ [.next draw]) = taken acts + 1 := by
  rw [taken, List.reverse_append]
  rfl

theorem taken_reset (acts : List Act) : taken (acts ++ [.reset]) = 0 := by
  rw [taken, List.reverse_append]
  rfl

theorem foldl_perform (base cap : Nat) (acts : List Act) :
    acts.foldl perform ⟨base, cap, 0⟩ = ⟨base, cap, min (taken acts) word⟩ := by
  induction acts using List.reverseRecOn with
  | nil => rfl
  | append_singleton acts act ih =>
    rw [List.foldl_append, ih]
    cases act with
    | next draw =>
      rw [taken_next]
      show (⟨base, cap, min (min (taken acts) word + 1) word⟩ : Backoff) = _
      congr 1
      omega
    | reset => rw [taken_reset]; rfl

theorem word_eq : word = 4294967295 := by
  decide

theorem pow_lt_pow {k l : Nat} (h : k < l) : Nat.pow 2 k < Nat.pow 2 l :=
  Nat.pow_lt_pow_right Nat.one_lt_two h

theorem pause_of_le (h : n ≤ 32) : b.pause n = b.unbounded n := by
  have hfits : Nat.pow 2 (n - 1) < Nat.pow 2 32 := pow_lt_pow (by omega)
  have hle : Nat.pow 2 (n - 1) ≤ word := Nat.le_sub_one_of_lt hfits
  rw [pause, unbounded, Nat.min_eq_left (by omega : n - 1 ≤ 32), Nat.min_eq_left hle]

theorem pause_of_lt (h : 32 < n) : b.pause n = min (b.base * word) b.cap := by
  have hle : word ≤ Nat.pow 2 32 := Nat.sub_le _ _
  rw [pause, Nat.min_eq_right (by omega : 32 ≤ n - 1), Nat.min_eq_right hle]

theorem pause_min_word (b : Backoff) (n : Nat) : b.pause (min n word) = b.pause n := by
  by_cases h : n ≤ word
  · rw [Nat.min_eq_left h]
  · rw [Nat.min_eq_right (by omega), pause_of_lt (by decide), pause_of_lt (by rw [word_eq] at h; omega)]

theorem pause_eq_unbounded_iff :
    b.pause n = b.unbounded n ↔ n ≤ 32 ∨ b.base = 0 ∨ b.cap ≤ b.base * word := by
  by_cases hn : n ≤ 32
  · exact iff_of_true (pause_of_le hn) (.inl hn)
  rw [pause_of_lt (Nat.lt_of_not_le hn)]
  have hlarge : word < Nat.pow 2 (n - 1) := by
    have hpow : Nat.pow 2 32 ≤ Nat.pow 2 (n - 1) := Nat.pow_le_pow_right (by decide) (by omega)
    exact Nat.lt_of_lt_of_le (Nat.sub_one_lt (by decide)) hpow
  constructor
  · intro h
    by_contra hno
    obtain ⟨-, hbase, hcap⟩ := not_or.mp hno |>.imp_right not_or.mp
    have hgrows := Nat.mul_lt_mul_of_pos_left hlarge (Nat.pos_of_ne_zero hbase)
    rw [unbounded, Nat.min_eq_left (Nat.le_of_not_le hcap)] at h
    omega
  · rintro (h | h | h)
    · exact absurd h hn
    · simp [unbounded, h]
    · have hgrows := Nat.mul_le_mul_left b.base (Nat.le_of_lt hlarge)
      rw [unbounded, Nat.min_eq_right h, Nat.min_eq_right (Nat.le_trans h hgrows)]

theorem next_bounds (b : Backoff) (draw : Nat) :
    b.pause (b.attempts + 1) ≤ (b.next draw).1 ∧
      10 * (b.next draw).1 ≤ 11 * b.pause (b.attempts + 1) := by
  unfold next
  dsimp only
  rw [pause_min_word]
  generalize b.pause (b.attempts + 1) = pause
  have hjitter : (if jitterRange pause = 0 then 0 else draw % jitterRange pause) ≤
      pause / millisecond / 10 := by
    split
    · exact Nat.zero_le _
    · exact Nat.le_of_lt (Nat.mod_lt _ (by omega))
  generalize (if jitterRange pause = 0 then 0 else draw % jitterRange pause) = jitter at hjitter ⊢
  rw [millisecond] at hjitter ⊢
  omega

theorem next_milliseconds {base cap : Nat} (hcap : base = 0 ∨ cap ≤ base * word) (taken draw : Nat) :
    let length := ((⟨base * millisecond, cap * millisecond, min taken word⟩ : Backoff).next draw).1
    let law := min (base * Nat.pow 2 taken) cap
    law ≤ length / millisecond ∧ 10 * (length / millisecond) ≤ 11 * law := by
  intro length law
  have hmillis : 0 < millisecond := by decide
  have hcounter : min (min taken word + 1) word = min (taken + 1) word := by omega
  have hreach : base * millisecond = 0 ∨ cap * millisecond ≤ base * millisecond * word := by
    refine hcap.imp (fun h => by rw [h, Nat.zero_mul]) fun h => ?_
    rw [Nat.mul_right_comm]
    exact Nat.mul_le_mul_right _ h
  have hpause : (⟨base * millisecond, cap * millisecond, min taken word⟩ : Backoff).pause
      (min taken word + 1) = law * millisecond := by
    rw [← pause_min_word, hcounter, pause_min_word, pause_eq_unbounded_iff.mpr (.inr hreach),
      unbounded, Nat.add_sub_cancel, Nat.mul_right_comm, ← Nat.mul_min_mul_right]
  have hbounds := next_bounds ⟨base * millisecond, cap * millisecond, min taken word⟩ draw
  rw [hpause] at hbounds
  change law * millisecond ≤ length ∧ 10 * length ≤ 11 * (law * millisecond) at hbounds
  refine ⟨(Nat.le_div_iff_mul_le hmillis).mpr hbounds.1, ?_⟩
  have hfloor : length / millisecond * millisecond ≤ length := Nat.div_mul_le_self _ _
  refine Nat.le_of_mul_le_mul_right ?_ hmillis
  rw [Nat.mul_assoc, Nat.mul_assoc]
  exact Nat.le_trans (Nat.mul_le_mul_left 10 hfloor) hbounds.2

/-- The pause that follows `n - 1` others since the series last began is as long as its factor makes it,
or longer by a tenth at most, whatever jitter is drawn. The factor doubles as long as it fits a word. So
the pauses double until they come to the cap if they come to it in time, or else stay below it. -/
theorem pauses_double_within_a_word (base cap : Nat) (acts : List Act) (draw : Nat) :
    let n := taken acts + 1
    let start : Backoff := ⟨base, cap, 0⟩
    let length := ((acts.foldl perform start).next draw).1
    (start.pause n ≤ length ∧ 10 * length ≤ 11 * start.pause n) ∧
    (n ≤ 32 → start.pause n = start.unbounded n) ∧
    (32 < n → start.pause n = min (base * word) cap) ∧
    (start.pause n = start.unbounded n ↔ n ≤ 32 ∨ base = 0 ∨ cap ≤ base * word) := by
  intro n start length
  refine ⟨?_, pause_of_le, pause_of_lt, pause_eq_unbounded_iff⟩
  have hcounter : min (min (taken acts) word + 1) word = min n word := by omega
  have hpause : (acts.foldl perform start).pause ((acts.foldl perform start).attempts + 1) =
      start.pause n := by
    rw [foldl_perform, ← pause_min_word, hcounter, pause_min_word]
    rfl
  exact hpause ▸ next_bounds (acts.foldl perform start) draw

theorem tiny_pauses_stop_doubling :
    let start : Backoff := ⟨1, 1000000000000, 0⟩
    let acts := List.replicate 33 (Act.next 0)
    taken acts + 1 = 34 ∧ start.unbounded 34 = Nat.pow 2 33 ∧
      ∀ draw, ((acts.foldl perform start).next draw).1 < start.unbounded 34 := by
  refine ⟨by decide, by decide, fun draw => ?_⟩
  have hlast : (List.replicate 33 (Act.next 0)).foldl perform ⟨1, 1000000000000, 0⟩ =
      ⟨1, 1000000000000, 33⟩ := by
    rw [foldl_perform, show taken (List.replicate 33 (.next 0)) = 33 by decide]
    rfl
  have hpause : (⟨1, 1000000000000, 33⟩ : Backoff).pause 34 = word := by decide
  have hbounds := (next_bounds ⟨1, 1000000000000, 33⟩ draw).2
  have hlaw : (⟨1, 1000000000000, 0⟩ : Backoff).unbounded 34 = 8589934592 := by decide
  rw [hlast, hlaw]
  rw [hpause, word_eq] at hbounds
  omega

end ProxyPulse.Backoff
