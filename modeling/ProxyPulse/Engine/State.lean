import ProxyPulse.Config.Overrides
import ProxyPulse.DelayCache
import ProxyPulse.Engine.Task
import ProxyPulse.Permits
import ProxyPulse.Registry

namespace ProxyPulse

structure Session where
  id : Nat
  group : String
  startedAt : Nat
  deriving DecidableEq, Repr

/-- The engine together with a core whose state is a `σ`. -/
structure Engine (σ : Type) where
  core : σ
  now : Nat := 0
  overrides : Overrides := {}
  registry : Registry := {}
  cache : DelayCache := ∅
  sessions : Std.ExtTreeMap Nat Session := ∅
  nextSession : Nat := 1
  permits : Permits
  -- In the order in which they came to wait.
  tasks : List Task := []
  nextTask : Nat := 0
  measurements : List Measurement := []
  -- What came of requests, by task, the last one first.
  results : List (Nat × Result) := []

namespace Engine

variable {σ : Type}

def new (core : σ) (config : Config) (overrides : Overrides) : Engine σ :=
  let config := overrides.apply config
  { core
    overrides
    registry := { board := { config } }
    permits := { free := max config.scheduler.reloadConcurrency 1 } }

def board (e : Engine σ) : Board :=
  e.registry.board

def config (e : Engine σ) : Config :=
  e.board.config

def measure (e : Engine σ) (m : Measurement) : Engine σ :=
  { e with measurements := m :: e.measurements }

def learn (e : Engine σ) (proxy : String) (delay : Int) : Engine σ :=
  let e := { e with cache := e.cache.record e.now proxy delay }
  (Measurement.ofDelay? delay).elim e e.measure

def lookUp (e : Engine σ) (proxy : String) : Engine σ × Option Int :=
  let delay := e.cache.fresh? e.config.cache.ttl e.now proxy
  (e.measure (.cacheLookup delay.isSome), delay)

def evict (e : Engine σ) : Engine σ × Nat :=
  let kept := e.cache.sweep e.config.cache.ttl e.now
  ({ e with cache := kept }, e.cache.size - kept.size)

def write (e : Engine σ) (act : Registry → Registry × Bool) : Engine σ :=
  { e with registry := (act e.registry).1 }

def spawn (e : Engine σ) (job : Job) : Engine σ :=
  { e with tasks := e.tasks ++ [{ id := e.nextTask, job }], nextTask := e.nextTask + 1 }

def call (C : Core σ) (operation : Operation) (limit : Option Nat) (e : Engine σ) :
    Engine σ × Call :=
  let (core, latency) := C.start e.now operation e.core
  ({ e with core }, ⟨e.now, latency.map (e.now + ·), limit⟩)

def hear (call : Call) (answer : σ → σ × Option (Answer α)) (e : Engine σ) :
    Engine σ × (Call ⊕ Answer α) :=
  if call.isAnswered e.now then
    match answer e.core with
    | (core, some a) => ({ e with core }, .inr a)
    | (core, none) =>
      let call := { call with answerAt := none }
      ({ e with core }, if call.isOverdue e.now then .inr (.error call.timeout) else .inl call)
  else (e, if call.isOverdue e.now then .inr (.error call.timeout) else .inl call)

def note (operation : Operation) (answer : Answer α) (e : Engine σ) : Engine σ :=
  match answer with
  | .error _ => e.measure (.callFailed operation)
  | .ok _ => e

def query (C : Core σ) (group : String) (sort : SortMode) (limit : Nat) (e : Engine σ) :
    Engine σ × Query :=
  let (permits, ticket) := e.permits.acquire
  let e := { e with permits }
  match ticket with
  | some ticket => (e, ⟨group, sort, limit, .inl ticket⟩)
  | none =>
    let (e, call) := e.call C (.report group sort) (some limit)
    (e, ⟨group, sort, limit, .inr call⟩)

def advanceQuery (C : Core σ) (q : Query) (e : Engine σ) :
    Engine σ × (Query ⊕ Answer GroupReport) :=
  match q.stage with
  | .inl ticket =>
    if e.permits.isGranted ticket then
      let e := { e with permits := e.permits.claim ticket }
      let (e, call) := e.call C (.report q.group q.sort) (some q.limit)
      (e, .inl { q with stage := .inr call })
    else (e, .inl q)
  | .inr call =>
    match e.hear call (C.report q.group q.sort) with
    | (e, .inl call) => (e, .inl { q with stage := .inr call })
    | (e, .inr answer) =>
      (note (.report q.group q.sort) answer { e with permits := e.permits.release }, .inr answer)

def dropQuery (q : Query) (e : Engine σ) : Engine σ :=
  { e with permits :=
      match q.stage with
      | .inl ticket => e.permits.abandon ticket
      | .inr _ => e.permits.release }

end Engine

end ProxyPulse
