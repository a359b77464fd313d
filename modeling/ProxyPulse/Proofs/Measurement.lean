import Mathlib.Algebra.GroupWithZero.Nat
import Mathlib.Data.List.Nodup
import ProxyPulse.Measurement

namespace ProxyPulse

def SessionOutcome.all : List SessionOutcome :=
  [.converged, .completed, .timedOut, .stopped, .expired]

def PublishCause.all : List PublishCause :=
  [.topology, .delay, .testing, .selection, .resort]

def Operation.kinds : List Operation :=
  [.names false, .report "" .listed, .trigger "", .choose "" "", .probe "", .mode, .setMode none]

def Operation.plain : Operation → Operation
  | .names _ => .names false
  | .report _ _ => .report "" .listed
  | .trigger _ => .trigger ""
  | .choose _ _ => .choose "" ""
  | .probe _ => .probe ""
  | .mode => .mode
  | .setMode _ => .setMode none

namespace Measurement

def isEnd : Measurement → Bool
  | .sessionEnded _ => true
  | _ => false

def isPublication : Measurement → Bool
  | .published _ => true
  | _ => false

def active? : Measurement → Option Nat
  | .activeSessions count => some count
  | _ => none

def plain : Measurement → Measurement
  | .activeSessions _ => .activeSessions 0
  | .delay _ => .delay 0
  | .callFailed operation => .callFailed operation.plain
  | m => m

def kinds : List Measurement :=
  SessionOutcome.all.map sessionEnded ++ [.activeSessions 0, .delay 0] ++
    [true, false].map cacheLookup ++ PublishCause.all.map published ++
    Operation.kinds.map callFailed ++ [.resorted]

theorem series_plain (m : Measurement) : m.plain.series = m.series := by
  cases m with
  | callFailed operation => cases operation <;> rfl
  | _ => rfl

theorem plain_mem (m : Measurement) : m.plain ∈ kinds := by
  cases m with
  | sessionEnded outcome => cases outcome <;> decide
  | cacheLookup hit => cases hit <;> decide
  | published cause => cases cause <;> decide
  | callFailed operation => cases operation <;> (dsimp only [plain, Operation.plain]; decide)
  | _ => dsimp only [plain]; decide

theorem kinds_series : (kinds.map series).Nodup := by
  decide +kernel

theorem plain_eq_of_series {m x : Measurement} (h : x.series = m.series) : x.plain = m.plain := by
  rw [← series_plain x, ← series_plain m] at h
  exact List.inj_on_of_nodup_map kinds_series (plain_mem x) (plain_mem m) h

theorem sessionEnded_of_series {x : Measurement} {outcome : SessionOutcome}
    (h : x.series = (sessionEnded outcome).series) : x = sessionEnded outcome := by
  have hp := plain_eq_of_series h
  cases x <;> cases hp
  rfl

theorem published_of_series {x : Measurement} {cause : PublishCause}
    (h : x.series = (published cause).series) : x = published cause := by
  have hp := plain_eq_of_series h
  cases x <;> cases hp
  rfl

theorem active_of_series {x : Measurement} {n : Nat} (h : x.series = (activeSessions n).series) :
    ∃ count, x = activeSessions count := by
  have hp := plain_eq_of_series h
  cases x <;> cases hp
  exact ⟨_, rfl⟩

end Measurement

namespace Metrics

open Measurement

def count (totals : Metrics) (series : String) : Nat :=
  match totals[series]? with
  | some (.count n) => n
  | _ => 0

theorem getElem?_ofLog_cons (m : Measurement) (log : List Measurement) (series : String) :
    (ofLog (m :: log))[series]? =
      if m.series = series then some ((ofLog log)[series]?.elim m.total (·.add m.total))
      else (ofLog log)[series]? := by
  rw [ofLog, List.foldr_cons, ← ofLog]
  simp only [Std.ExtTreeMap.getElem?_alter, Std.compare_eq_iff_eq]
  split
  · next h => rw [h]
  · rfl

theorem getElem?_ofLog_tick {m : Measurement} (hm : m.total = .count 1)
    (halone : ∀ x : Measurement, x.series = m.series → x = m) (log : List Measurement) :
    (ofLog log)[m.series]? = if log.count m = 0 then none else some (.count (log.count m)) := by
  induction log with
  | nil => simp [ofLog]
  | cons x rest ih =>
    rw [getElem?_ofLog_cons, ih]
    -- whatever adds to the series is the measurement itself
    by_cases hx : x.series = m.series
    · rw [if_pos hx, halone x hx, List.count_cons_self, if_neg (Nat.succ_ne_zero _), hm]
      split
      · next hz => rw [hz]; rfl
      · rfl
    · rw [if_neg hx, List.count_cons_of_ne fun he => hx (congrArg series he)]

theorem count_ofLog_tick {m : Measurement} (hm : m.total = .count 1)
    (halone : ∀ x : Measurement, x.series = m.series → x = m) (log : List Measurement) :
    (ofLog log).count m.series = log.count m := by
  rw [count, getElem?_ofLog_tick hm halone]
  split
  · next n hn =>
    split at hn
    · cases hn
    · cases hn; rfl
  · next hn =>
    by_cases hz : log.count m = 0
    · exact hz.symm
    · exact absurd (if_neg hz) (hn _)

theorem count_sessionEnded (outcome : SessionOutcome) (log : List Measurement) :
    (ofLog log).count (sessionEnded outcome).series = log.count (sessionEnded outcome) :=
  count_ofLog_tick rfl (fun _ => sessionEnded_of_series) log

theorem count_published (cause : PublishCause) (log : List Measurement) :
    (ofLog log).count (published cause).series = log.count (published cause) :=
  count_ofLog_tick rfl (fun _ => published_of_series) log

theorem countP_mem_cons {m : Measurement} {keys : List Measurement} (h : m ∉ keys)
    (log : List Measurement) :
    log.countP (· ∈ m :: keys) = log.count m + log.countP (· ∈ keys) := by
  induction log with
  | nil => rfl
  | cons x rest ih =>
    rw [List.countP_cons, List.countP_cons, List.count_cons, ih]
    by_cases hx : x = m
    · simp [hx, h]
      omega
    · simp [hx]
      omega

theorem sum_count {α : Type} (f : α → Measurement) {all : List α} (h : (all.map f).Nodup)
    (log : List Measurement) :
    (all.map fun a => log.count (f a)).sum = log.countP (· ∈ all.map f) := by
  induction all with
  | nil => simp
  | cons a rest ih =>
    obtain ⟨ha, hrest⟩ := List.nodup_cons.mp h
    rw [List.map_cons, List.sum_cons, ih hrest, List.map_cons, countP_mem_cons ha]

theorem sum_sessionEnded (log : List Measurement) :
    (SessionOutcome.all.map fun o => (ofLog log).count (sessionEnded o).series).sum =
      log.countP isEnd := by
  simp only [count_sessionEnded]
  rw [sum_count sessionEnded (by decide)]
  refine List.countP_congr fun m _ => ?_
  cases m with
  | sessionEnded outcome => cases outcome <;> decide
  | _ => simp [isEnd]

theorem sum_published (log : List Measurement) :
    (PublishCause.all.map fun c => (ofLog log).count (published c).series).sum =
      log.countP isPublication := by
  simp only [count_published]
  rw [sum_count published (by decide)]
  refine List.countP_congr fun m _ => ?_
  cases m with
  | published cause => cases cause <;> decide
  | _ => simp [isPublication]

theorem getElem?_ofLog_active (n : Nat) (log : List Measurement) :
    (ofLog log)[(activeSessions n).series]? = (log.findSome? active?).map .level := by
  induction log with
  | nil => simp [ofLog]
  | cons x rest ih =>
    rw [getElem?_ofLog_cons, ih]
    by_cases hx : x.series = (activeSessions n).series
    · obtain ⟨count, rfl⟩ := active_of_series hx
      rw [if_pos hx]
      cases rest.findSome? active? <;> rfl
    · have hnone : active? x = none := by
        cases x with
        | activeSessions count => exact absurd rfl hx
        | _ => rfl
      rw [if_neg hx, List.findSome?_cons, hnone]

end Metrics

end ProxyPulse
