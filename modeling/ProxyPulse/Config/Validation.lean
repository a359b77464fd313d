import ProxyPulse.Config
import ProxyPulse.Url

namespace ProxyPulse

inductive ConfigFault where
  | zero (field : String)
  | cleanupNotAfterInProgress (cleanup inProgress : Nat)
  | controllerUrl (text : String)
  | emptyTiers
  | tierOrder (index : Nat)
  | tooLarge (field : String) (limit : Nat)
  deriving DecidableEq, Repr

namespace ConfigFault

def message : ConfigFault → String
  | .zero field => field ++ " must be greater than zero"
  | .cleanupNotAfterInProgress cleanup inProgress =>
    "cleanup timeout (" ++ toString cleanup ++ "s) must exceed in-progress timeout ("
      ++ toString inProgress ++ "s)"
  | .controllerUrl text => "invalid controller URL '" ++ text ++ "'"
  | .emptyTiers => "budget table is empty"
  | .tierOrder index =>
    "budget tier " ++ toString index ++ " is not monotonic with the tier before it"
  | .tooLarge field limit => field ++ " must not exceed " ++ toString limit ++ "ms"

end ConfigFault

namespace Config

def positiveFields (c : Config) : List (String × Nat) :=
  [("scheduler.in_progress_timeout_secs", c.scheduler.inProgressTimeoutSecs),
    ("scheduler.cleanup_interval_secs", c.scheduler.cleanupIntervalSecs),
    ("scheduler.poll_interval_ms", c.scheduler.pollIntervalMs),
    ("scheduler.max_polls", c.scheduler.maxPolls),
    ("scheduler.reload_concurrency", c.scheduler.reloadConcurrency),
    ("cache.ttl_secs", c.cache.ttlSecs),
    ("runtime.request_timeout_ms", c.runtime.requestTimeout)]

def growsOn (before row : BudgetTier) : Bool :=
  before.maxGroupSize < row.maxGroupSize && before.concurrency ≤ row.concurrency
    && before.maxWait ≤ row.maxWait

def tierFaults (t : BudgetTier) : List ConfigFault :=
  (if t.concurrency = 0 then [.zero "scheduler.tiers.concurrency"] else [])
    ++ if maxTierWait < t.maxWait then [.tooLarge "scheduler.tiers.max_wait_ms" maxTierWait] else []

def orderFaults (tiers : List BudgetTier) : List ConfigFault :=
  (tiers.zip tiers.tail).zipIdx.filterMap fun ((before, row), i) =>
    if growsOn before row then none else some (.tierOrder (i + 1))

def isUrl (text : String) : Bool :=
  match Url.parse text with
  | .ok _ => true
  | .error _ => false

def faults (c : Config) : List ConfigFault :=
  let s := c.scheduler
  (c.positiveFields.filterMap fun (field, value) => if value = 0 then some (.zero field) else none)
    ++ (if s.cleanupTimeoutSecs ≤ s.inProgressTimeoutSecs then
        [.cleanupNotAfterInProgress s.cleanupTimeoutSecs s.inProgressTimeoutSecs] else [])
    ++ (if isUrl c.runtime.controllerUrl then [] else [.controllerUrl c.runtime.controllerUrl])
    ++ (if s.tiers.isEmpty then [.emptyTiers] else [])
    ++ orderFaults s.tiers
    ++ s.tiers.flatMap tierFaults
    ++ (if maxPollInterval < s.pollIntervalMs then
        [.tooLarge "scheduler.poll_interval_ms" maxPollInterval] else [])

def IsValid (c : Config) : Prop :=
  c.faults = []

instance (c : Config) : Decidable c.IsValid :=
  inferInstanceAs (Decidable (c.faults = []))

end Config

end ProxyPulse
