import ProxyPulse.Backoff
import ProxyPulse.Board
import ProxyPulse.Budget
import ProxyPulse.Call
import ProxyPulse.Endpoint

namespace ProxyPulse

inductive EngineError where
  | closed
  | unknownIndex (index : Nat)
  | call (error : CallError)
  deriving DecidableEq, Repr

def EngineError.message? : EngineError → Option String
  | .closed => some "engine coordinator has stopped"
  | .unknownIndex index => some ("no group at index " ++ toString index)
  | .call error => error.message?

inductive Request where
  | prefetch
  | reload (index : Nat)
  | reloadAll
  | refresh
  | select (index : Nat) (proxy : String)
  | setMode (mode : Option TunnelMode)
  | resolve (group : String)
  | current
  | probe (proxy : String)
  | mode
  deriving DecidableEq, Repr

inductive Result where
  | loaded (count : Nat)
  | reloaded (ok : Bool)
  | changed (outcome : Except EngineError Bool)
  | modeSet (outcome : Except EngineError Unit)
  | endpoint (endpoint : Option Endpoint)
  | delay (answer : Answer Int)
  | mode (answer : Answer (Option TunnelMode))

inductive Intent where
  | reloadAll
  | reload (index : Nat)
  | select (index : Nat) (proxy : String)
  | test (index : Nat)
  | setMode (mode : Option TunnelMode)
  | stop (index : Nat)
  | stopAll
  | refresh
  | sortByDelay (on : Bool)
  deriving DecidableEq, Repr

/-- A query for one group. It holds a permit from the call on. -/
structure Query where
  group : String
  sort : SortMode
  limit : Nat
  -- Its place in the queue for a permit, or the call.
  stage : Nat ⊕ Call
  deriving DecidableEq

inductive Load where
  | asking (index : Nat) (query : Query)
  | done (ok : Bool)
  deriving DecidableEq

inductive LoadGoal where
  | one
  | all
  | refresh
  deriving DecidableEq, Repr

structure Attempt where
  number : Nat
  -- The last attempt.
  last : Nat
  backoff : Backoff
  deriving DecidableEq, Repr

structure Choice where
  index : Nat
  group : String
  proxy : String
  -- Whether the proxy was a group when it was chosen.
  leadsOn : Bool
  deriving DecidableEq, Repr

structure SessionPlan where
  session : Nat
  index : Nat
  group : String
  members : List String
  budget : Budget
  config : Config
  deriving DecidableEq, Repr

structure Polling where
  left : Nat
  due : Nat
  deadline : Nat
  -- What the last poll that succeeded found.
  last : Option DelayTable
  -- How many polls in a row found the same.
  stable : Nat

structure ProbeBatch where
  session : Nat
  limit : Nat
  concurrency : Nat
  waiting : List String
  running : List (String × Call)
  deriving DecidableEq, Repr

structure Ticker where
  due : Nat
  period : Nat
  deriving DecidableEq, Repr

/-- The task that takes intents, sweeps, and takes on new settings. -/
structure Coordinator where
  ticker : Option Ticker := none
  intents : List Intent := []
  -- Whether more of them can come.
  isHeld : Bool := true
  takesUpdates : Bool := false
  updates : List Config := []
  isStopped : Bool := false

inductive Coordinator.Branch where
  | intent
  | tick
  | update
  | stop
  deriving DecidableEq, Repr

def Coordinator.Branch.all : List Coordinator.Branch :=
  [.intent, .tick, .update, .stop]

/-- The points at which a task waits. -/
inductive Job where
  | start (request : Request)
  | loading (goal : LoadGoal) (loads : List Load)
  -- An attempt of a prefetch, or a refresh where there is none.
  | naming (attempt : Option Attempt) (selectableOnly : Bool) (call : Call)
  | pausing (attempt : Attempt) (due : Nat)
  | choosing (choice : Choice) (call : Call)
  | settingMode (mode : Option TunnelMode) (call : Call)
  | walking (current : Bool) (trail : Trail) (limit : Nat) (call : Call)
  | probing (proxy : String) (call : Call)
  | readingMode (call : Call)
  -- A trigger for a whole group, of a session or of none, before the call and after.
  | triggering (session : Option Nat) (group : String) (limit : Nat) (call : Option Call)
  | opening (plan : SessionPlan)
  | ticking (plan : SessionPlan) (polling : Polling)
  | polling (plan : SessionPlan) (polling : Polling) (query : Query)
  -- Until so many members have reported; reports wait in the order they came.
  | collecting (plan : SessionPlan) (missing deadline : Nat) (inbox : List (String × Int))
  | batch (probes : ProbeBatch)
  | coordinating (coordinator : Coordinator)

structure Task where
  id : Nat
  job : Job
  -- Whether it was told to go, which it does at its next turn.
  isAborted : Bool := false

inductive Wait where
  | turn
  | moment (time : Nat)
  | answer (call : Call)
  | permit (ticket : Nat)
  deriving DecidableEq, Repr

def Wait.wakeAt : Wait → Option Nat
  | .moment time => some time
  | .answer call => call.wakeAt
  | _ => none

def Query.wait (q : Query) : Wait :=
  match q.stage with
  | .inl ticket => .permit ticket
  | .inr call => .answer call

def Load.waits : Load → List Wait
  | .asking _ query => [query.wait]
  | .done _ => []

namespace ProbeBatch

def hasRoom (b : ProbeBatch) : Bool :=
  !b.waiting.isEmpty && decide (b.running.length < b.concurrency)

def waits (b : ProbeBatch) : List Wait :=
  (if b.hasRoom then [.turn] else []) ++ b.running.map fun (_, call) => .answer call

end ProbeBatch

def Coordinator.canTake (c : Coordinator) (now : Nat) : Coordinator.Branch → Bool
  | .intent => !c.intents.isEmpty || !c.isHeld
  | .tick => c.ticker.any (·.due ≤ now)
  | .update => !c.updates.isEmpty
  | .stop => c.isStopped

def Coordinator.branch? (c : Coordinator) (now : Nat) : Option Coordinator.Branch :=
  if c.ticker.isNone then none else Coordinator.Branch.all.find? (c.canTake now)

def Coordinator.waits (c : Coordinator) : List Wait :=
  match c.ticker with
  | none => [.turn]
  | some ticker =>
    if !c.intents.isEmpty || !c.isHeld || !c.updates.isEmpty || c.isStopped then [.turn]
    else [.moment ticker.due]

namespace Job

def waits : Job → List Wait
  | .start _ => [.turn]
  | .loading _ loads => loads.flatMap Load.waits
  | .naming _ _ call => [.answer call]
  | .pausing _ due => [.moment due]
  | .choosing _ call => [.answer call]
  | .settingMode _ call => [.answer call]
  | .walking _ _ _ call => [.answer call]
  | .probing _ call => [.answer call]
  | .readingMode call => [.answer call]
  | .triggering _ _ _ call => [call.elim .turn .answer]
  | .opening _ => [.turn]
  | .ticking _ p => [.moment p.due, .moment p.deadline]
  | .polling _ _ query => [query.wait]
  | .collecting _ _ deadline inbox =>
    if inbox.isEmpty then [.moment deadline] else [.turn]
  | .batch probes => probes.waits
  | .coordinating c => c.waits

def plan? : Job → Option SessionPlan
  | .opening plan => some plan
  | .ticking plan _ => some plan
  | .polling plan _ _ => some plan
  | .collecting plan _ _ _ => some plan
  | _ => none

def session? (job : Job) : Option Nat :=
  job.plan?.map SessionPlan.session

def isTriggerOf (session : Nat) : Job → Bool
  | .triggering (some s) _ _ _ => s == session
  | _ => false

end Job

end ProxyPulse
