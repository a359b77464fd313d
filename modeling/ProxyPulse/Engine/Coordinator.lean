import ProxyPulse.Engine.Request

/-!
The coordinator: one task that takes intents in the order they were sent, sweeps at fixed spans, and
takes on new settings. Whatever has to wait is left to a task of its own, so that intents never
queue behind the core. When it ends, every session ends with it.
-/

namespace ProxyPulse.Engine

variable {σ : Type}

def setSortByDelay (e : Engine σ) (on : Bool) : Engine σ :=
  { e with
    overrides := { e.overrides with sortByDelay := on }
    registry := { e.registry with board := e.board.setSortByDelay on } }

def applyConfig (e : Engine σ) (next : Config) : Engine σ :=
  { e with registry := { e.registry with board := e.board.configure (e.overrides.apply next) } }

def sweep (e : Engine σ) : Engine σ :=
  (e.sweepSessions.1.evict).1

def newTicker (e : Engine σ) (span : Nat) : Ticker :=
  ⟨e.now, max span 1⟩

def dispatch (e : Engine σ) : Intent → Engine σ
  | .reloadAll => e.spawn (.start .reloadAll)
  | .reload index => e.spawn (.start (.reload index))
  | .select index proxy => e.spawn (.start (.select index proxy))
  | .test index => (e.requestTest index).1
  | .setMode mode => e.spawn (.start (.setMode mode))
  | .stop index => (e.stopTest index).1
  | .stopAll => e.stopAll.1
  | .refresh => e.spawn (.start .refresh)
  | .sortByDelay on => e.setSortByDelay on

def takeBranch (e : Engine σ) (c : Coordinator) :
    Coordinator.Branch → Engine σ × Option Coordinator
  | .intent =>
    match c.intents with
    | intent :: rest => (e.dispatch intent, some { c with intents := rest })
    | [] => (e.stopAll.1, none)
  | .tick =>
    (e.sweep, some { c with ticker := c.ticker.map fun ticker =>
      { ticker with due := e.now + ticker.period } })
  | .update =>
    match c.updates with
    | next :: rest =>
      let e := e.applyConfig next
      (e, some { c with
        updates := rest, ticker := e.newTicker next.scheduler.cleanupInterval })
    | [] => (e, some c)
  | .stop => (e.stopAll.1, none)

def stepCoordinator (e : Engine σ) (c : Coordinator) : Engine σ × Option Coordinator :=
  match c.branch? e.now with
  | some branch => e.takeBranch c branch
  | none =>
    (e, some { c with
      ticker := c.ticker.or (e.newTicker e.config.scheduler.cleanupInterval) })

def startCoordinator (e : Engine σ) (takesUpdates : Bool) : Engine σ × Nat :=
  (e.spawn (.coordinating { takesUpdates }), e.nextTask)

def coordinator? (e : Engine σ) (handle : Nat) : Option Coordinator :=
  (e.tasks.find? (·.id == handle)).bind fun t =>
    match t.job with
    | .coordinating c => some c
    | _ => none

def changeCoordinator (e : Engine σ) (handle : Nat) (change : Coordinator → Coordinator) :
    Engine σ :=
  { e with tasks := e.tasks.map fun t =>
      match t.job with
      | .coordinating c => if t.id = handle then { t with job := .coordinating (change c) } else t
      | _ => t }

def send (e : Engine σ) (handle : Nat) (intent : Intent) : Engine σ × Except EngineError Unit :=
  if (e.coordinator? handle).isSome then
    (e.changeCoordinator handle fun c => { c with intents := c.intents ++ [intent] }, .ok ())
  else (e, .error .closed)

def sendConfig (e : Engine σ) (handle : Nat) (next : Config) : Engine σ × Bool :=
  if (e.coordinator? handle).any Coordinator.takesUpdates then
    (e.changeCoordinator handle fun c => { c with updates := c.updates ++ [next] }, true)
  else (e, false)

def closeUpdates (e : Engine σ) (handle : Nat) : Engine σ :=
  e.changeCoordinator handle fun c => { c with takesUpdates := false }

def dropHandle (e : Engine σ) (handle : Nat) : Engine σ :=
  e.changeCoordinator handle fun c => { c with isHeld := false }

def shutdown (e : Engine σ) : Engine σ :=
  { e with tasks := e.tasks.map fun t =>
      match t.job with
      | .coordinating c => { t with job := .coordinating { c with isStopped := true } }
      | _ => t }

def listeners (e : Engine σ) : Nat :=
  e.tasks.countP fun t => match t.job with | .coordinating _ => true | _ => false

end ProxyPulse.Engine
