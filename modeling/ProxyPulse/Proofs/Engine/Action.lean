import ProxyPulse.Engine.Run

/-!
Runs of the engine. What can happen at a moment is an action: a task that is there goes on, in
whatever order tasks come to their turns; somebody asks for something; time passes; the core becomes
another one. A run remembers every request for a test that was made in it, by whomever.
-/

namespace ProxyPulse

inductive Action (σ : Type) where
  | resume (t : Task)
  -- A coordinator takes a branch, be it the first that is open or not.
  | turnTo (t : Task) (c : Coordinator) (branch : Coordinator.Branch)
  | takeResorts
  | serveResorts
  | wait (time : Nat)
  | changeCore (core : σ)
  | request (r : Request)
  | test (index : Nat)
  | backgroundTest (index : Nat)
  | stop (index : Nat)
  | stopAll
  | sweepSessions
  | sortByDelay (on : Bool)
  | configure (next : Config)
  | startCoordinator (takesUpdates : Bool)
  | send (handle : Nat) (intent : Intent)
  | sendConfig (handle : Nat) (next : Config)
  | closeUpdates (handle : Nat)
  | dropHandle (handle : Nat)
  | shutdown
  | remember (proxy : String) (delay : Int)
  | lookUp (proxy : String)
  | evict

structure TestCall (σ : Type) where
  engine : Engine σ
  index : Nat
  background : Bool

namespace TestCall

variable {σ : Type}

def outcome (c : TestCall σ) : Engine σ × TestRequest :=
  if c.background then c.engine.requestBackgroundTest c.index else c.engine.requestTest c.index

def after (c : TestCall σ) : Engine σ :=
  c.outcome.1

def answer (c : TestCall σ) : TestRequest :=
  c.outcome.2

end TestCall

namespace Engine

variable {σ : Type}

def Allows (e : Engine σ) : Action σ → Prop
  | .resume t => t ∈ e.tasks
  | .turnTo t c branch =>
    t ∈ e.tasks ∧ t.job = .coordinating c ∧ c.ticker.isSome ∧ c.canTake e.now branch
  | .wait time => e.now ≤ time
  | _ => True

def turnTo (e : Engine σ) (t : Task) (c : Coordinator) (branch : Coordinator.Branch) : Engine σ :=
  let (e, c) := (e.without t).takeBranch c branch
  e.park t (c.map .coordinating)

def perform (C : Core σ) (e : Engine σ) : Action σ → Engine σ
  | .resume t => resume C e t
  | .turnTo t c branch => e.turnTo t c branch
  | .takeResorts =>
    { e with registry := { e.registry with board := e.board.takeRequests e.now } }
  | .serveResorts =>
    { e with registry := { e.registry with board := e.board.serveResorting e.now } }
  | .wait time => { e with now := time }
  | .changeCore core => { e with core := core }
  | .request r => (e.request r).1
  | .test index => (e.requestTest index).1
  | .backgroundTest index => (e.requestBackgroundTest index).1
  | .stop index => (e.stopTest index).1
  | .stopAll => e.stopAll.1
  | .sweepSessions => e.sweepSessions.1
  | .sortByDelay on => e.setSortByDelay on
  | .configure next => e.applyConfig next
  | .startCoordinator takesUpdates => (e.startCoordinator takesUpdates).1
  | .send handle intent => (e.send handle intent).1
  | .sendConfig handle next => (e.sendConfig handle next).1
  | .closeUpdates handle => e.closeUpdates handle
  | .dropHandle handle => e.dropHandle handle
  | .shutdown => e.shutdown
  | .remember proxy delay => { e with cache := e.cache.record e.now proxy delay }
  | .lookUp proxy => (e.lookUp proxy).1
  | .evict => e.evict.1

def branchCalls (e : Engine σ) (c : Coordinator) : Coordinator.Branch → List (TestCall σ)
  | .intent =>
    match c.intents with
    | .test index :: _ => [⟨e, index, false⟩]
    | _ => []
  | _ => []

def choiceCalls (C : Core σ) (e : Engine σ) (choice : Choice) (call : Call) : List (TestCall σ) :=
  match e.hear call (C.choose choice.group choice.proxy) with
  | (e, .inr (.ok true)) =>
    let e := e.write (·.setSelection choice.index choice.group choice.proxy)
    if choice.leadsOn then (e.registry.indexOf? choice.proxy).toList.map (⟨e, ·, true⟩) else []
  | _ => []

def jobCalls (C : Core σ) (e : Engine σ) : Job → List (TestCall σ)
  | .choosing choice call => choiceCalls C e choice call
  | .coordinating c => (c.branch? e.now).elim [] (e.branchCalls c)
  | _ => []

def calls (C : Core σ) (e : Engine σ) : Action σ → List (TestCall σ)
  | .resume t => if t.isAborted then [] else jobCalls C (e.without t) t.job
  | .turnTo t c branch => (e.without t).branchCalls c branch
  | .test index => [⟨e, index, false⟩]
  | .backgroundTest index => [⟨e, index, true⟩]
  | _ => []

/-- A run, the requests for tests made in it, the first one first, and where it leads. -/
inductive Run (C : Core σ) (e : Engine σ) : List (TestCall σ) → Engine σ → Prop
  | refl : Run C e [] e
  | step {calls : List (TestCall σ)} {e' : Engine σ} {a : Action σ} :
    Run C e calls e' → e'.Allows a → Run C e (calls ++ e'.calls C a) (e'.perform C a)

def Reachable (C : Core σ) (e : Engine σ) : Prop :=
  ∃ core config overrides calls, Run C (Engine.new core config overrides) calls e

end Engine

end ProxyPulse
