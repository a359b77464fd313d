import ProxyPulse.Engine.Session

namespace ProxyPulse

inductive RequestMove where
  | wait (job : Job)
  | done (result : Result)

def maxAttemptPause : Nat := 5000 * Backoff.millisecond

def Load.isDone : Load → Bool
  | .done _ => true
  | .asking _ _ => false

namespace Engine

variable {σ : Type}

def requestTimeout (e : Engine σ) : Nat :=
  e.config.runtime.requestTimeout

def startLoad (C : Core σ) (e : Engine σ) (index : Nat) : Engine σ × Load :=
  match e.registry.names[index]? with
  | none => (e, .done false)
  | some group =>
    let (e, query) := e.query C group e.config.view.sort e.requestTimeout
    (e, .asking index query)

def startLoads (C : Core σ) (e : Engine σ) : List Nat → Engine σ × List Load
  | [] => (e, [])
  | index :: rest =>
    let (e, load) := startLoad C e index
    let (e, loads) := startLoads C e rest
    (e, load :: loads)

def fillDelay (e : Engine σ) (p : Proxy) : Engine σ × Proxy :=
  if p.hasKnownDelay then (e, p)
  else
    let (e, delay) := e.lookUp p.name
    (e, { p with delay := delay.getD p.delay })

def fillDelays (e : Engine σ) : List Proxy → Engine σ × List Proxy
  | [] => (e, [])
  | p :: rest =>
    let (e, p) := e.fillDelay p
    let (e, rest) := fillDelays e rest
    (e, p :: rest)

def applyReport (e : Engine σ) (index : Nat) (group : String) (report : GroupReport) : Engine σ :=
  let (e, members) := e.fillDelays report.members
  e.write (·.publish index ⟨group, members, report.selectable, report.now?⟩)

def stepLoad (C : Core σ) (e : Engine σ) (index : Nat) (query : Query) : Engine σ × Load :=
  match e.advanceQuery C query with
  | (e, .inl query) => (e, .asking index query)
  | (e, .inr (.error _)) => (e, .done false)
  | (e, .inr (.ok report)) => (e.applyReport index query.group report, .done true)

def isOver (e : Engine σ) : Wait → Bool
  | .turn => true
  | .moment time => decide (time ≤ e.now)
  | .answer call => call.isAnswered e.now || call.isOverdue e.now
  | .permit ticket => e.permits.isGranted ticket

def stepLoads (C : Core σ) (e : Engine σ) : List Load → Engine σ × List Load
  | [] => (e, [])
  | load :: rest =>
    match load with
    | .asking index query =>
      if e.isOver query.wait then
        let (e, load) := stepLoad C e index query
        (e, load :: rest)
      else
        let (e, rest) := stepLoads C e rest
        (e, load :: rest)
    | .done _ =>
      let (e, rest) := stepLoads C e rest
      (e, load :: rest)

def loadResult (goal : LoadGoal) (loads : List Load) : Result :=
  match goal with
  | .one => .reloaded (loads.any fun | .done ok => ok | _ => false)
  | .all => .loaded (loads.countP fun | .done ok => ok | _ => false)
  | .refresh => .changed (.ok true)

def loadMove (goal : LoadGoal) (loads : List Load) : RequestMove :=
  if loads.all Load.isDone then .done (loadResult goal loads) else .wait (.loading goal loads)

def load (C : Core σ) (e : Engine σ) (goal : LoadGoal) (indices : List Nat) :
    Engine σ × RequestMove :=
  let (e, loads) := startLoads C e indices
  (e, loadMove goal loads)

def loadAll (C : Core σ) (e : Engine σ) (goal : LoadGoal) : Engine σ × RequestMove :=
  load C e goal (List.range e.registry.names.length)

/-- Tracks other groups from now on. When they differ from those before, no session goes on, and
only the delays of their members are remembered. Says whether they differ. -/
def applyNames (e : Engine σ) (names : List String) : Engine σ × Bool :=
  if e.registry.names = names then (e, false)
  else
    let (e, _) := e.stopAll
    let (registry, change) := e.registry.replace names
    let e := { e with registry }
    (if change then { e with cache := e.cache.keep change.referenced.toList } else e, change)

def askNames (C : Core σ) (e : Engine σ) (attempt : Option Attempt) : Engine σ × RequestMove :=
  let selectableOnly := e.config.view.excludeNotSelectable
  let (e, call) := e.call C (.names selectableOnly) (some e.requestTimeout)
  (e, .wait (.naming attempt selectableOnly call))

def startPrefetch (C : Core σ) (e : Engine σ) : Engine σ × RequestMove :=
  let scheduler := e.config.scheduler
  askNames C e (some {
    number := 1
    last := max scheduler.prefetchAttempts 1
    backoff := ⟨scheduler.prefetchBaseDelay * Backoff.millisecond, maxAttemptPause, 0⟩ })

def retry (C : Core σ) (e : Engine σ) (attempt : Attempt) : Engine σ × RequestMove :=
  if attempt.number < attempt.last then
    let (core, draw) := C.draw e.core
    let (pause, backoff) := attempt.backoff.next draw
    ({ e with core }, .wait (.pausing { attempt with number := attempt.number + 1, backoff }
      (e.now + pause / Backoff.millisecond)))
  else (e, .done (.loaded 0))

def takeNames (C : Core σ) (e : Engine σ) (attempt : Option Attempt)
    (answer : Answer (List String)) : Engine σ × RequestMove :=
  match attempt, answer with
  | some attempt, .error _ => retry C e attempt
  | some attempt, .ok [] => retry C e attempt
  | some _, .ok names => loadAll C (e.applyNames names).1 .all
  | none, .error error => (e, .done (.changed (.error (.call error))))
  | none, .ok names =>
    let (e, changed) := e.applyNames names
    if changed then loadAll C e .refresh else (e, .done (.changed (.ok false)))

def startChoice (C : Core σ) (e : Engine σ) (index : Nat) (proxy : String) :
    Engine σ × RequestMove :=
  match e.registry.group? index with
  | none => (e, .done (.changed (.error (.unknownIndex index))))
  | some g =>
    let choice : Choice := ⟨index, g.name, proxy, (g.member? proxy).any Proxy.isGroup⟩
    let (e, call) := e.call C (.choose g.name proxy) (some e.requestTimeout)
    (e, .wait (.choosing choice call))

def testInBackground (e : Engine σ) (group : String) : Engine σ :=
  match e.registry.indexOf? group with
  | some index => (e.requestBackgroundTest index).1
  | none =>
    e.spawn (.triggering none group (e.requestTimeout + e.config.runtime.probeTimeout) none)

def takeChoice (e : Engine σ) (choice : Choice) (answer : Answer Bool) : Engine σ × RequestMove :=
  match answer with
  | .error error => (e, .done (.changed (.error (.call error))))
  | .ok false => (e, .done (.changed (.ok false)))
  | .ok true =>
    let e := e.write (·.setSelection choice.index choice.group choice.proxy)
    (if choice.leadsOn then e.testInBackground choice.proxy else e,
      .done (.changed (.ok true)))

def startWalk (C : Core σ) (e : Engine σ) (current : Bool) (trail : Trail) (limit : Nat) :
    Engine σ × RequestMove :=
  let (e, call) := e.call C (.report trail.here .listed) (some limit)
  (e, .wait (.walking current trail limit call))

def firstSelected? (e : Engine σ) : Option Endpoint :=
  ((e.registry.group? 0).bind Group.selected?).map Proxy.endpoint

/-- A walk has come to a group, or to nothing. One that started at the first group falls back on
what that group points at. -/
def takeStep (C : Core σ) (e : Engine σ) (current : Bool) (trail : Trail) (limit : Nat)
    (answer : Answer GroupReport) : Engine σ × RequestMove :=
  match trail.move (answer.toOption.map GroupReport.toGroup) with
  | .arrived endpoint => (e, .done (.endpoint endpoint))
  | .lost => (e, .done (.endpoint (if current then e.firstSelected? else none)))
  | .onward next => startWalk C e current next limit

def startRequest (C : Core σ) (e : Engine σ) : Request → Engine σ × RequestMove
  | .prefetch => startPrefetch C e
  | .reload index => load C e .one [index]
  | .reloadAll => loadAll C e .all
  | .refresh => askNames C e none
  | .select index proxy => startChoice C e index proxy
  | .setMode mode =>
    let (e, call) := e.call C (.setMode mode) (some e.requestTimeout)
    (e, .wait (.settingMode mode call))
  | .resolve group => startWalk C e false ⟨group, []⟩ e.requestTimeout
  | .current =>
    match e.registry.names[0]? with
    | none => (e, .done (.endpoint none))
    | some group => startWalk C e true ⟨group, []⟩ e.requestTimeout
  | .probe proxy =>
    let (e, call) := e.call C (.probe proxy) none
    (e, .wait (.probing proxy call))
  | .mode =>
    let (e, call) := e.call C .mode none
    (e, .wait (.readingMode call))

def stepRequest (C : Core σ) (e : Engine σ) : Job → Engine σ × RequestMove
  | .start request => startRequest C e request
  | .loading goal loads =>
    let (e, loads) := stepLoads C e loads
    (e, loadMove goal loads)
  | .naming attempt selectableOnly call =>
    match e.hear call (C.names selectableOnly) with
    | (e, .inl call) => (e, .wait (.naming attempt selectableOnly call))
    | (e, .inr answer) => takeNames C (note (.names selectableOnly) answer e) attempt answer
  | .pausing attempt due =>
    if due ≤ e.now then askNames C e (some attempt) else (e, .wait (.pausing attempt due))
  | .choosing choice call =>
    match e.hear call (C.choose choice.group choice.proxy) with
    | (e, .inl call) => (e, .wait (.choosing choice call))
    | (e, .inr answer) =>
      takeChoice (note (.choose choice.group choice.proxy) answer e) choice answer
  | .settingMode mode call =>
    match e.hear call (C.setMode mode) with
    | (e, .inl call) => (e, .wait (.settingMode mode call))
    | (e, .inr answer) =>
      (note (.setMode mode) answer e, .done (.modeSet (answer.mapError .call)))
  | .walking current trail limit call =>
    match e.hear call (C.report trail.here .listed) with
    | (e, .inl call) => (e, .wait (.walking current trail limit call))
    | (e, .inr answer) =>
      takeStep C (note (.report trail.here .listed) answer e) current trail limit answer
  | .probing proxy call =>
    match e.hear call (C.probe proxy) with
    | (e, .inl call) => (e, .wait (.probing proxy call))
    | (e, .inr answer) => (e, .done (.delay answer))
  | .readingMode call =>
    match e.hear call C.mode with
    | (e, .inl call) => (e, .wait (.readingMode call))
    | (e, .inr answer) => (e, .done (.mode answer))
  | job => (e, .wait job)

end Engine

end ProxyPulse
