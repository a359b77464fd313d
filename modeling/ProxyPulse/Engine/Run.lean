import ProxyPulse.Engine.Coordinator

/-!
Running the engine. Tasks take turns; in a turn a task goes on until it has to wait. The clock
stands still while any task can go on, and then jumps to the next moment at which one can.
-/

namespace ProxyPulse.Engine

variable {σ : Type}

def build? (core : σ) (config : Config) (overrides : Overrides) : Option (Engine σ) :=
  if maxConcurrency < config.scheduler.reloadConcurrency then none
  else some (Engine.new core config overrides)

def isReady (e : Engine σ) (t : Task) : Bool :=
  t.isAborted || t.job.waits.any e.isOver

def afterSession (plan : SessionPlan) : Engine σ × SessionMove → Engine σ × Option Job
  | (e, .wait job) => (e, some job)
  | (e, .stop outcome) => (e.finishSession plan outcome, none)
  | (e, .breakOff) => (e, none)

def afterRequest (id : Nat) : Engine σ × RequestMove → Engine σ × Option Job
  | (e, .wait job) => (e, some job)
  | (e, .done result) => ({ e with results := (id, result) :: e.results }, none)

def stepJob (C : Core σ) (e : Engine σ) (id : Nat) (job : Job) : Engine σ × Option Job :=
  match job with
  | .batch probes =>
    let (e, probes) := stepBatch C e probes
    (e, probes.map .batch)
  | .triggering session group limit call =>
    let (e, call) := stepTrigger C e group limit call
    (e, call.map fun call => .triggering session group limit (some call))
  | .coordinating c =>
    let (e, c) := e.stepCoordinator c
    (e, c.map .coordinating)
  | job =>
    match job.plan? with
    | some plan => afterSession plan (stepSession C e job)
    | none => afterRequest id (stepRequest C e job)

def without (e : Engine σ) (t : Task) : Engine σ :=
  { e with tasks := e.tasks.filter (·.id != t.id) }

def abandonJob (e : Engine σ) : Job → Engine σ
  | .polling _ _ query => e.dropQuery query
  | _ => e

def park (e : Engine σ) (t : Task) (job : Option Job) : Engine σ :=
  match job with
  | none => e
  | some job => { e with tasks := e.tasks ++ [{ id := t.id, job }] }

def resume (C : Core σ) (e : Engine σ) (t : Task) : Engine σ :=
  let e := e.without t
  if t.isAborted then e.abandonJob t.job
  else
    let (e, job) := stepJob C e t.id t.job
    e.park t job

def readyTask? (e : Engine σ) (id : Nat) : Option Task :=
  e.tasks.find? fun t => t.id == id && e.isReady t

def turn (C : Core σ) (id : Nat) : Nat → Engine σ → Engine σ
  | 0, e => e
  | fuel + 1, e =>
    match e.readyTask? id with
    | none => e
    | some t => turn C id fuel (resume C e t)

def stepBoard (e : Engine σ) : Engine σ :=
  { e with registry := { e.registry with board := e.board.stepResorting e.now } }

def others (e : Engine σ) (aside : Option Nat) : List Task :=
  e.tasks.filter fun t => some t.id != aside

def isBusy (e : Engine σ) (aside : Option Nat) : Bool :=
  e.board.resortReady e.now || (e.others aside).any e.isReady

def round (C : Core σ) (aside : Option Nat) (fuel : Nat) (e : Engine σ) : Engine σ :=
  ((e.others aside).map Task.id).foldl (fun e id => turn C id fuel e) e.stepBoard

/-- Everything that can happen before the clock moves, but for a task set aside. -/
def settleAround (C : Core σ) (aside : Option Nat) : Nat → Engine σ → Engine σ
  | 0, e => e
  | fuel + 1, e =>
    if e.isBusy aside then settleAround C aside fuel (round C aside fuel e) else e

def settle (C : Core σ) (fuel : Nat) (e : Engine σ) : Engine σ :=
  settleAround C none fuel e

def nextMoment? (e : Engine σ) : Option Nat :=
  (((e.tasks.flatMap (·.job.waits)).filterMap Wait.wakeAt
    ++ (e.board.resorting.map Resorting.due).toList).filter (e.now < ·)).min?

def runUntil (C : Core σ) (time : Nat) : Nat → Engine σ → Engine σ
  | 0, e => e
  | fuel + 1, e =>
    let e := settle C fuel e
    match e.nextMoment? with
    | some next =>
      if next ≤ time then runUntil C time fuel { e with now := next } else { e with now := time }
    | none => { e with now := time }

def result? (e : Engine σ) (id : Nat) : Option Result :=
  e.results.lookup id

/-- Everything that happens until a request has its result, or for as long as anything happens. The
task of the request goes first whenever the clock has moved, and again once no other can go on. -/
def runFor (C : Core σ) (id : Nat) : Nat → Engine σ → Engine σ
  | 0, e => e
  | fuel + 1, e =>
    let e := turn C id fuel e
    if (e.result? id).isSome then e
    else
      let e := settleAround C (some id) fuel e
      if (e.readyTask? id).isSome then runFor C id fuel e
      else
        match e.nextMoment? with
        | some next => runFor C id fuel { e with now := next }
        | none => e

def request (e : Engine σ) (r : Request) : Engine σ × Nat :=
  (e.spawn (.start r), e.nextTask)

def amplePatience : Nat := 1000000000

def await (C : Core σ) (e : Engine σ) (r : Request) : Engine σ × Option Result :=
  let (e, id) := e.request r
  let e := runFor C id amplePatience e
  (e, e.result? id)

def runWhile (C : Core σ) (holds : Engine σ → Bool) : Nat → Engine σ → Engine σ
  | 0, e => e
  | fuel + 1, e =>
    let e := settle C fuel e
    if holds e then
      match e.nextMoment? with
      | some next => runWhile C holds fuel { e with now := next }
      | none => e
    else e

end ProxyPulse.Engine
