import ProxyPulse.Core

namespace ProxyPulse

inductive SessionOutcome where
  | converged
  | completed
  | timedOut
  | stopped
  | expired
  deriving DecidableEq, Repr

def SessionOutcome.tag : SessionOutcome → String
  | .converged => "converged"
  | .completed => "completed"
  | .timedOut => "timed_out"
  | .stopped => "stopped"
  | .expired => "expired"

inductive PublishCause where
  | topology
  | delay
  | testing
  | selection
  | resort
  deriving DecidableEq, Repr

def PublishCause.tag : PublishCause → String
  | .topology => "topology"
  | .delay => "delay"
  | .testing => "testing"
  | .selection => "selection"
  | .resort => "resort"

def Operation.tag : Operation → String
  | .names _ => "query_group_names"
  | .report _ _ => "query_group"
  | .trigger _ => "trigger_health_check"
  | .choose _ _ => "patch_selection"
  | .probe _ => "probe_proxy"
  | .mode => "query_mode"
  | .setMode _ => "patch_mode"

inductive Measurement where
  | sessionEnded (outcome : SessionOutcome)
  | activeSessions (count : Nat)
  | delay (value : Nat)
  | cacheLookup (hit : Bool)
  | published (cause : PublishCause)
  | callFailed (operation : Operation)
  | resorted
  deriving DecidableEq, Repr

namespace Measurement

def metric : Measurement → String
  | .sessionEnded _ => "engine_test_sessions_total"
  | .activeSessions _ => "engine_active_test_sessions"
  | .delay _ => "engine_probe_delay_ms"
  | .cacheLookup _ => "engine_delay_cache_lookups_total"
  | .published _ => "engine_state_publishes_total"
  | .callFailed _ => "engine_runtime_errors_total"
  | .resorted => "engine_group_resorts_total"

def label? : Measurement → Option (String × String)
  | .sessionEnded outcome => some ("outcome", outcome.tag)
  | .cacheLookup hit => some ("result", if hit then "hit" else "miss")
  | .published cause => some ("cause", cause.tag)
  | .callFailed operation => some ("operation", operation.tag)
  | _ => none

def ofDelay? (delay : Int) : Option Measurement :=
  if isKnownDelay delay then some (.delay delay.toNat) else none

def series (m : Measurement) : String :=
  match m.label? with
  | none => m.metric
  | some (name, value) => m.metric ++ "\x7b" ++ name ++ "=" ++ value ++ "\x7d"

inductive Total where
  | count (increase : Nat)
  | level (value : Nat)
  | spread (count sum : Nat)
  deriving DecidableEq, Repr

def total : Measurement → Total
  | .activeSessions count => .level count
  | .delay value => .spread 1 value
  | _ => .count 1

def Total.add : Total → Total → Total
  | .count m, .count n => .count (m + n)
  | .spread m s, .spread n t => .spread (m + n) (s + t)
  | _, later => later

def Total.isLevel : Total → Bool
  | .level _ => true
  | _ => false

end Measurement

abbrev Metrics := Std.ExtTreeMap String Measurement.Total

namespace Metrics

def ofLog (log : List Measurement) : Metrics :=
  log.foldr (fun m totals =>
    totals.alter m.series fun before => some (before.elim m.total (·.add m.total))) ∅

def changes (before recent : List Measurement) : Metrics :=
  let old := ofLog before
  (ofLog recent).filter fun series total => !(total.isLevel && old[series]? == some total)

end Metrics

end ProxyPulse
