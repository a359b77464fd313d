import ProxyPulse.Engine.State

/-!
Test sessions. A group has at most one; while it has one, its record says that it is being tested. A
session is watched over by a task of its own, which goes when the session is stopped; its trigger
and its probes go on, and what they find is still remembered, but no longer shown.
-/

namespace ProxyPulse

inductive TestRequest where
  | started (session : Nat)
  | coalesced (session : Nat)
  | skipped
  | unknownGroup
  | emptyGroup
  deriving DecidableEq, Repr

def maxConcurrency : Nat := Nat.pow 2 61 - 1

namespace Polling

/-- What the polls of a session come to with one more of them; there is nothing to compare where it
failed. A poll counts as stable when it finds what the last one found and the trigger is back. -/
def count (p : Polling) (found : Option DelayTable) (triggering : Bool) : Polling :=
  match found with
  | none => { p with stable := 0 }
  | some delays =>
    if p.last = some delays then
      { p with stable := if triggering then p.stable else p.stable + 1 }
    else { p with stable := 0, last := some delays }

def isSettled (before after : Polling) (required : Nat) : Bool :=
  decide (before.stable < after.stable ∧ required ≤ after.stable)

end Polling

namespace Engine

variable {σ : Type}

def measureSessions (e : Engine σ) : Engine σ :=
  e.measure (.activeSessions e.sessions.size)

def cancel (e : Engine σ) (session : Nat) : Engine σ :=
  { e with tasks := e.tasks.map fun t =>
      if t.job.session? = some session then { t with isAborted := true } else t }

def openSession (e : Engine σ) (index session : Nat) (g : Group) : Engine σ :=
  let e := e.write (·.setTesting index g.name true)
  let plan : SessionPlan := {
    session
    index
    group := g.name
    members := g.members.map Proxy.name
    budget := Budget.forGroupSize e.config.scheduler.tiers g.members.length
    config := e.config }
  ({ e with sessions := e.sessions.insert index ⟨session, g.name, e.now⟩ }.spawn
    (.opening plan)).measureSessions

def isYoung (e : Engine σ) (s : Session) : Bool :=
  decide (e.now - s.startedAt < e.config.scheduler.inProgressTimeout)

def requestTest (e : Engine σ) (index : Nat) : Engine σ × TestRequest :=
  match e.registry.group? index with
  | none => (e, .unknownGroup)
  | some g =>
    if g.members.isEmpty then (e, .emptyGroup)
    else
      let session := e.nextSession
      let e := { e with nextSession := session + 1 }
      match e.sessions[index]? with
      | none => (e.openSession index session g, .started session)
      | some running =>
        if e.isYoung running then (e, .coalesced running.id)
        else
          let e := (e.cancel running.id).measure (.sessionEnded .stopped)
          (e.openSession index session g, .started session)

def requestBackgroundTest (e : Engine σ) (index : Nat) : Engine σ × TestRequest :=
  let isCovered := (e.registry.group? index).any fun g =>
    !g.members.isEmpty
      && e.cache.coversAll e.config.cache.ttl e.now (g.members.map Proxy.name)
  if isCovered then (e, .skipped) else e.requestTest index

def closeSession (e : Engine σ) (index : Nat) (s : Session) (outcome : SessionOutcome) :
    Engine σ :=
  let e := e.write (·.setTesting index s.group false)
  ({ e with sessions := e.sessions.erase index }.measure (.sessionEnded outcome)).measureSessions

def finishSession (e : Engine σ) (plan : SessionPlan) (outcome : SessionOutcome) : Engine σ :=
  match e.sessions[plan.index]? with
  | none => e
  | some s => if s.id = plan.session then e.closeSession plan.index s outcome else e

def stopSession (e : Engine σ) (index : Nat) (outcome : SessionOutcome) : Engine σ × Bool :=
  match e.sessions[index]? with
  | none => (e, false)
  | some s => ((e.cancel s.id).closeSession index s outcome, true)

def stopSessions (e : Engine σ) (indices : List Nat) (outcome : SessionOutcome) : Engine σ × Nat :=
  indices.foldl (fun (e, count) index =>
    let (e, stopped) := e.stopSession index outcome
    (e, if stopped then count + 1 else count)) (e, 0)

def stopTest (e : Engine σ) (index : Nat) : Engine σ × Bool :=
  e.stopSession index .stopped

def stopAll (e : Engine σ) : Engine σ × Nat :=
  e.stopSessions e.sessions.keys .stopped

def sweepSessions (e : Engine σ) : Engine σ × Nat :=
  let old := e.sessions.filter fun _ s =>
    decide (e.config.scheduler.cleanupTimeout ≤ e.now - s.startedAt)
  e.stopSessions old.keys .expired

def isTesting (e : Engine σ) (index : Nat) : Bool :=
  e.sessions.contains index

/-- How a session goes on: to where it waits next, to its end, or nowhere, when it breaks off and
leaves its place in the table as it is. -/
inductive SessionMove where
  | wait (job : Job)
  | stop (outcome : SessionOutcome)
  | breakOff

def openPolling (e : Engine σ) (plan : SessionPlan) : Engine σ × SessionMove :=
  let scheduler := plan.config.scheduler
  let e := e.spawn (.triggering plan.session plan.group plan.budget.maxWait none)
  if scheduler.pollInterval = 0 then (e, .breakOff)
  else if scheduler.maxPolls = 0 then (e, .stop .completed)
  else
    (e, .wait (.ticking plan {
      left := scheduler.maxPolls
      due := e.now + scheduler.pollInterval
      deadline := e.now + plan.budget.maxWait
      last := none
      stable := 0 }))

def openProbes (e : Engine σ) (plan : SessionPlan) : Engine σ × SessionMove :=
  if maxConcurrency < plan.budget.concurrency then (e, .breakOff)
  else
    let runtime := plan.config.runtime
    let e := e.spawn (.batch {
      session := plan.session
      limit := runtime.probeTimeout + runtime.requestTimeout
      concurrency := plan.budget.concurrency
      waiting := plan.members
      running := [] })
    (e, .wait (.collecting plan plan.members.length (e.now + plan.budget.maxWait) []))

def isTriggering (e : Engine σ) (session : Nat) : Bool :=
  e.tasks.any (·.job.isTriggerOf session)

def applyPoll (e : Engine σ) (plan : SessionPlan) (report : GroupReport) : Engine σ :=
  let delays := DelayTable.ofMembers report.members
  let e := delays.toList.foldl (fun e (proxy, delay) => e.learn proxy delay) e
  let e := e.write (·.updateDelays plan.index plan.group delays)
  match report.now? with
  | none => e
  | some now => e.write (·.setSelection plan.index plan.group now)

def afterPoll (e : Engine σ) (plan : SessionPlan) (p : Polling) (found : Option DelayTable) :
    SessionMove :=
  let scheduler := plan.config.scheduler
  let next := p.count found (e.isTriggering plan.session)
  if p.isSettled next scheduler.stablePollsRequired then .stop .converged
  else if p.left ≤ 1 then .stop .completed
  else .wait (.ticking plan { next with left := p.left - 1, due := p.due + scheduler.pollInterval })

def tick (C : Core σ) (e : Engine σ) (plan : SessionPlan) (p : Polling) : Engine σ × SessionMove :=
  if p.due ≤ e.now then
    let (e, query) := e.query C plan.group plan.config.view.sort plan.config.runtime.requestTimeout
    (e, .wait (.polling plan p query))
  else if p.deadline ≤ e.now then (e, .stop .timedOut)
  else (e, .wait (.ticking plan p))

def poll (C : Core σ) (e : Engine σ) (plan : SessionPlan) (p : Polling) (query : Query) :
    Engine σ × SessionMove :=
  match e.advanceQuery C query with
  | (e, .inl query) => (e, .wait (.polling plan p query))
  | (e, .inr (.error _)) => (e, e.afterPoll plan p none)
  | (e, .inr (.ok report)) =>
    let e := e.applyPoll plan report
    (e, e.afterPoll plan p (DelayTable.ofMembers report.members))

def collect (e : Engine σ) (plan : SessionPlan) (missing deadline : Nat)
    (inbox : List (String × Int)) : Engine σ × SessionMove :=
  match inbox with
  | (proxy, delay) :: rest =>
    let e := e.write (·.updateDelay plan.index plan.group proxy delay)
    (e, if missing ≤ 1 then .stop .completed
      else .wait (.collecting plan (missing - 1) deadline rest))
  | [] =>
    (e, if missing = 0 then .stop .completed
      else if deadline ≤ e.now then .stop .timedOut
      else .wait (.collecting plan missing deadline []))

def stepSession (C : Core σ) (e : Engine σ) : Job → Engine σ × SessionMove
  | .opening plan =>
    match plan.config.scheduler.strategy with
    | .group => e.openPolling plan
    | .perProxy => e.openProbes plan
  | .ticking plan p => tick C e plan p
  | .polling plan p query => poll C e plan p query
  | .collecting plan missing deadline inbox => e.collect plan missing deadline inbox
  | job => (e, .wait job)

def report (e : Engine σ) (session : Nat) (proxy : String) (delay : Int) : Engine σ :=
  { e with tasks := e.tasks.map fun t =>
      match t.job with
      | .collecting plan missing deadline inbox =>
        if plan.session = session then
          { t with job := .collecting plan missing deadline (inbox ++ [(proxy, delay)]) }
        else t
      | _ => t }

/-- The first probe that has come to an end, and the others. A probe whose answer never comes is
left with its deadline. -/
def endedProbe (C : Core σ) (e : Engine σ) : List (String × Call) →
    Engine σ × Option (String × Answer Int) × List (String × Call)
  | [] => (e, none, [])
  | (proxy, call) :: rest =>
    match e.hear call (C.probe proxy) with
    | (e, .inr answer) => (e, some (proxy, answer), rest)
    | (e, .inl call) =>
      let (e, ended, rest) := endedProbe C e rest
      (e, ended, (proxy, call) :: rest)

def stepBatch (C : Core σ) (e : Engine σ) (b : ProbeBatch) : Engine σ × Option ProbeBatch :=
  match b.waiting with
  | proxy :: waiting =>
    if b.running.length < b.concurrency then
      let (e, call) := e.call C (.probe proxy) (some b.limit)
      (e, some { b with waiting, running := b.running ++ [(proxy, call)] })
    else settle e
  | [] => settle e
where
  settle (e : Engine σ) : Engine σ × Option ProbeBatch :=
    match endedProbe C e b.running with
    | (e, none, running) => (e, some { b with running })
    | (e, some (proxy, answer), running) =>
      let e := note (.probe proxy) answer e
      let delay := match answer with | .ok delay => delay | .error _ => 0
      let e := (e.learn proxy delay).report b.session proxy delay
      (e, if running.isEmpty && b.waiting.isEmpty then none else some { b with running })

def stepTrigger (C : Core σ) (e : Engine σ) (group : String) (limit : Nat) (call : Option Call) :
    Engine σ × Option Call :=
  match call with
  | none =>
    let (e, call) := e.call C (.trigger group) (some limit)
    (e, some call)
  | some call =>
    match e.hear call (C.trigger group) with
    | (e, .inl call) => (e, some call)
    | (e, .inr answer) => (note (.trigger group) answer e, none)

end Engine

end ProxyPulse
