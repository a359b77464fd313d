import ProxyPulse.Config.Decode
import ProxyPulse.Config.Validation
import ProxyPulse.Toml.Reader
import ProxyPulse.Toml.Writer

namespace ProxyPulse.Config

def field (name value : String) : String :=
  name ++ " = " ++ value ++ "\n"

def wordField? (name : String) (n : Nat) : Option String :=
  if n < Nat.pow 2 63 then some (field name (toString n)) else none

def textField (name value : String) : String :=
  field name (Toml.quote value)

def boolField (name : String) (value : Bool) : String :=
  field name (if value then "true" else "false")

def writeRuntime? (r : Runtime) : Option String := do
  return "[runtime]\n"
    ++ textField "controller_url" r.controllerUrl
    ++ r.secret.elim "" (textField "secret")
    ++ (← wordField? "request_timeout_ms" r.requestTimeout)
    ++ textField "probe_url" r.probeUrl
    ++ (← wordField? "probe_timeout_ms" r.probeTimeout)

def writeTier? (t : BudgetTier) : Option String := do
  return "\n[[scheduler.tiers]]\n"
    ++ (← wordField? "max_group_size" t.maxGroupSize)
    ++ (← wordField? "concurrency" t.concurrency)
    ++ (← wordField? "max_wait_ms" t.maxWait)

def writeScheduler? (s : Scheduler) : Option String := do
  return "\n[scheduler]\n"
    ++ (← wordField? "in_progress_timeout_secs" s.inProgressTimeoutSecs)
    ++ (← wordField? "cleanup_timeout_secs" s.cleanupTimeoutSecs)
    ++ (← wordField? "cleanup_interval_secs" s.cleanupIntervalSecs)
    ++ (← wordField? "poll_interval_ms" s.pollIntervalMs)
    ++ (← wordField? "max_polls" s.maxPolls)
    ++ (← wordField? "stable_polls_required" s.stablePollsRequired)
    ++ textField "strategy" s.strategy.tag
    ++ (← wordField? "reload_concurrency" s.reloadConcurrency)
    ++ (← wordField? "prefetch_attempts" s.prefetchAttempts)
    ++ (← wordField? "prefetch_base_delay_ms" s.prefetchBaseDelay)
    ++ (if s.tiers.isEmpty then field "tiers" "[]" else "")
    ++ String.join (← s.tiers.mapM writeTier?)

def writeCache? (c : Cache) : Option String := do
  return "\n[cache]\n" ++ (← wordField? "ttl_secs" c.ttlSecs)

def writeView? (v : View) : Option String := do
  return "\n[view]\n"
    ++ textField "sort" v.sort.tag
    ++ boolField "sort_by_delay" v.sortByDelay
    ++ (← wordField? "sort_debounce_ms" v.sortDebounce)
    ++ boolField "exclude_not_selectable" v.excludeNotSelectable

def writeObservability (o : Observability) : String :=
  "\n[observability]\n"
    ++ textField "log_level" o.logLevel
    ++ boolField "metrics_enabled" o.metricsEnabled
    ++ textField "metrics_address" o.metricsAddress

def toToml? (c : Config) : Option String := do
  return (← writeRuntime? c.runtime) ++ (← writeScheduler? c.scheduler)
    ++ (← writeCache? c.cache) ++ (← writeView? c.view) ++ writeObservability c.observability

def ofToml? (text : String) : Option Config :=
  (Toml.parse? text).bind (decode .toml)

end ProxyPulse.Config
