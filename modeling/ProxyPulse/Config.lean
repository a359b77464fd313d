import ProxyPulse.Proxy

namespace ProxyPulse

def maxTierWait : Nat := 3600000

def maxPollInterval : Nat := 60000

inductive ProbeStrategy where
  | group
  | perProxy
  deriving DecidableEq, Repr

structure BudgetTier where
  maxGroupSize : Nat
  concurrency : Nat
  maxWait : Nat
  deriving DecidableEq, Repr

structure Config.Runtime where
  controllerUrl : String := "http://127.0.0.1:9090"
  secret : Option String := none
  requestTimeout : Nat := 5000
  probeUrl : String := "https://www.gstatic.com/generate_204"
  probeTimeout : Nat := 5000
  deriving DecidableEq, Repr

def defaultTiers : List BudgetTier :=
  [⟨50, 8, 8000⟩, ⟨100, 12, 12000⟩, ⟨200, 16, 16000⟩, ⟨Nat.pow 2 64 - 1, 20, 20000⟩]

structure Config.Scheduler where
  inProgressTimeoutSecs : Nat := 60
  cleanupTimeoutSecs : Nat := 90
  cleanupIntervalSecs : Nat := 5
  pollIntervalMs : Nat := 500
  maxPolls : Nat := 30
  stablePollsRequired : Nat := 2
  strategy : ProbeStrategy := .group
  reloadConcurrency : Nat := 8
  prefetchAttempts : Nat := 10
  prefetchBaseDelay : Nat := 200
  tiers : List BudgetTier := defaultTiers
  deriving DecidableEq, Repr

structure Config.Cache where
  ttlSecs : Nat := 30
  deriving DecidableEq, Repr

structure Config.View where
  sort : SortMode := .listed
  sortByDelay : Bool := false
  sortDebounce : Nat := 200
  excludeNotSelectable : Bool := false
  deriving DecidableEq, Repr

structure Config.Observability where
  logLevel : String := "info"
  metricsEnabled : Bool := false
  metricsAddress : String := "127.0.0.1:9464"
  deriving DecidableEq, Repr

structure Config where
  runtime : Config.Runtime := {}
  scheduler : Config.Scheduler := {}
  cache : Config.Cache := {}
  view : Config.View := {}
  observability : Config.Observability := {}
  deriving DecidableEq, Repr

namespace Config.Scheduler

def inProgressTimeout (s : Scheduler) : Nat :=
  1000 * s.inProgressTimeoutSecs

def cleanupTimeout (s : Scheduler) : Nat :=
  1000 * s.cleanupTimeoutSecs

def cleanupInterval (s : Scheduler) : Nat :=
  1000 * s.cleanupIntervalSecs

def pollInterval (s : Scheduler) : Nat :=
  min s.pollIntervalMs maxPollInterval

end Config.Scheduler

namespace Config.Cache

def ttl (c : Cache) : Nat :=
  1000 * c.ttlSecs

end Config.Cache

end ProxyPulse
