import ProxyPulse.Core
import Std.Data.ExtTreeMap

namespace ProxyPulse

inductive ScriptedProbe where
  | delay (value : Int)
  | never
  deriving DecidableEq, Repr

structure LoggedCall where
  time : Nat
  operation : Operation
  deriving DecidableEq, Repr

structure Latencies where
  names : Nat := 0
  report : Nat := 0
  trigger : Nat := 0
  choose : Nat := 0
  probe : Nat := 0
  setMode : Nat := 0
  deriving DecidableEq, Repr

structure Script where
  groups : Std.ExtTreeMap String GroupReport := ∅
  order : List String := []
  hidesNames : Bool := false
  hidden : List String := []
  refusesChoices : Bool := false
  latencies : Latencies := {}
  probeLatencies : Std.ExtTreeMap String Nat := ∅
  findings : Std.ExtTreeMap String (List (String × Int)) := ∅
  probes : Std.ExtTreeMap String ScriptedProbe := ∅
  mode : Option TunnelMode := none
  isMinimal : Bool := false
  excuse : String := "offline"
  calls : List LoggedCall := []

namespace Script

def offline (s : Script) : CallError :=
  .unavailable s.excuse

def lacks (s : Script) : Operation → Bool
  | .probe _ => s.isMinimal
  | .mode => s.isMinimal
  | .setMode _ => s.isMinimal
  | _ => false

def addGroup (s : Script) (g : GroupReport) : Script :=
  { s with
    groups := s.groups.insert g.name g
    order := if g.name ∈ s.order then s.order else s.order ++ [g.name] }

def dropGroup (s : Script) (name : String) : Script :=
  { s with groups := s.groups.erase name }

def latency (s : Script) : Operation → Nat
  | .names _ => s.latencies.names
  | .report _ _ => s.latencies.report
  | .trigger _ => s.latencies.trigger
  | .choose _ _ => s.latencies.choose
  | .probe proxy => s.probeLatencies[proxy]?.getD s.latencies.probe
  | .mode => 0
  | .setMode _ => s.latencies.setMode

def start (now : Nat) (operation : Operation) (s : Script) : Script × Option Nat :=
  if s.lacks operation then (s, some 0)
  else
    (if operation = .mode then s else { s with calls := ⟨now, operation⟩ :: s.calls },
      some (s.latency operation))

def tellNames (selectableOnly : Bool) (s : Script) : Answer (List String) :=
  if s.hidesNames then .error s.offline
  else
    .ok (s.order.filter fun name =>
      s.groups[name]?.any fun g => !selectableOnly || g.selectable)

def tellGroup (name : String) (sort : SortMode) (s : Script) : Answer GroupReport :=
  if name ∈ s.hidden then .error s.offline
  else
    match s.groups[name]? with
    | none => .error (.unknownGroup name)
    | some g => .ok { g with members := sortProxies sort g.members }

def find (findings : List (String × Int)) (members : List Proxy) : List Proxy :=
  members.map fun p => { p with delay := (findings.lookup p.name).getD p.delay }

def pull (name : String) (s : Script) : Script × Answer Unit :=
  match s.groups[name]? with
  | none => (s, .error (.unknownGroup name))
  | some g =>
    let members := find (s.findings[name]?.getD []) g.members
    ({ s with groups := s.groups.insert name { g with members } }, .ok ())

def choose (name proxy : String) (s : Script) : Script × Answer Bool :=
  if s.refusesChoices then (s, .error (.status "patch_selection" 503))
  else
    match s.groups[name]? with
    | none => (s, .error (.unknownGroup name))
    | some g =>
      if g.selectable && g.members.any (·.name == proxy) then
        ({ s with groups := s.groups.insert name { g with now := proxy } }, .ok true)
      else (s, .ok false)

def tryProxy (proxy : String) (s : Script) : Option (Answer Int) :=
  match s.probes[proxy]? with
  | none => some (.error (.unavailable (proxy ++ " unreachable")))
  | some .never => none
  | some (.delay d) => some (.ok d)

def unlessLacking (operation : Operation) (name : String)
    (answer : Script → Script × Option (Answer α)) (s : Script) : Script × Option (Answer α) :=
  if s.lacks operation then (s, some (.error (.unsupported name))) else answer s

def core : Core Script where
  start := start
  names selectableOnly s := (s, some (s.tellNames selectableOnly))
  report name sort s := (s, some (s.tellGroup name sort))
  trigger name s := let (s, answer) := s.pull name; (s, some answer)
  choose name proxy s := let (s, answer) := s.choose name proxy; (s, some answer)
  probe proxy := unlessLacking (.probe proxy) "probe_proxy" fun s => (s, s.tryProxy proxy)
  mode := unlessLacking .mode "query_mode" fun s => (s, some (.ok s.mode))
  setMode mode :=
    unlessLacking (.setMode mode) "patch_mode" fun s => ({ s with mode }, some (.ok ()))
  draw s := (s, 0)

end Script

end ProxyPulse
