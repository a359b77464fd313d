import ProxyPulse.Config
import ProxyPulse.Group
import ProxyPulse.Measurement
import Std.Data.ExtTreeSet

/-!
The published records of the groups. A record is only ever replaced as a whole, and only when
something in it changes; every replacement has a revision of its own and is announced as an event.
Records that are to be put into delay order again wait until no further request came for a while.
-/

namespace ProxyPulse

structure Record where
  index : Nat
  group : Group
  links : LinkTable
  testing : Bool
  revision : Nat
  deriving DecidableEq

inductive StateEvent where
  | updated (index revision : Nat)
  | removed (index : Nat)
  | reset
  deriving DecidableEq, Repr

def setDelay (name : String) (delay : Int) : List Proxy → List Proxy
  | [] => []
  | p :: rest =>
    if p.name = name then { p with delay := delay } :: rest else p :: setDelay name delay rest

abbrev DelayTable := Std.ExtTreeMap String Int

def DelayTable.ofMembers (members : List Proxy) : DelayTable :=
  members.foldl (fun table p => table.insert p.name p.delay) ∅

namespace Record

def delays (r : Record) : DelayTable :=
  DelayTable.ofMembers (r.links.toList.map fun (_, l) => ⟨l.name, .terminal, "", l.delay⟩)

def differs (r : Record) (name : String) (delay : Int) : Bool :=
  r.links[name]?.any (·.delay != delay)

def withDelay (r : Record) (name : String) (delay : Int) : Record :=
  { r with
    links := r.links.modify name ({ · with delay := delay })
    group := { r.group with members := setDelay name delay r.group.members } }

def withDelays? (r : Record) (delays : DelayTable) : Option Record :=
  let news := delays.toList.filter fun (name, delay) => r.differs name delay
  if news.isEmpty then none
  else some (news.foldl (fun r (name, delay) => r.withDelay name delay) r)

end Record

structure Resorting where
  indices : Std.ExtTreeSet Nat
  due : Nat

structure Board where
  config : Config := {}
  records : Std.ExtTreeMap Nat Record := ∅
  revision : Nat := 0
  resorts : Nat := 0
  -- Requests to re-sort that were not taken up yet, the first one first.
  requests : List Nat := []
  resorting : Option Resorting := none
  -- Every event, the last one first.
  events : List StateEvent := []
  measurements : List Measurement := []

namespace Board

def sortsByDelay (b : Board) : Bool :=
  b.config.view.sortByDelay

def emit (b : Board) (event : StateEvent) : Board :=
  { b with events := event :: b.events }

def measure (b : Board) (m : Measurement) : Board :=
  { b with measurements := m :: b.measurements }

def put (b : Board) (cause : PublishCause) (r : Record) : Board :=
  let revision := b.revision + 1
  { b with
    records := b.records.insert r.index { r with revision := revision }
    revision := revision
    events := .updated r.index revision :: b.events
    measurements := .published cause :: b.measurements }

def modify (b : Board) (index : Nat) (cause : PublishCause) (change : Record → Option Record) :
    Board × Bool :=
  match b.records[index]?.bind change with
  | none => (b, false)
  | some next => (b.put cause { next with index := index }, true)

def arrange (b : Board) (g : Group) : Group :=
  if b.sortsByDelay then { g with members := sortProxies .delay g.members } else g

/-- Publishes a group, unless the record is the same but for its delays and state. Testing goes on
while the name stays. -/
def publish (b : Board) (index : Nat) (g : Group) : Board × Bool :=
  let g := b.arrange g
  let current := b.records[index]?
  if current.any (·.group == g) then (b, false)
  else
    let testing := current.any fun r => r.group.name == g.name && r.testing
    (b.put .topology ⟨index, g, linksFor g.members, testing, 0⟩, true)

def requestResort (b : Board) (index : Nat) : Board :=
  if b.sortsByDelay then { b with requests := b.requests ++ [index] } else b

def modifyDelays (b : Board) (index : Nat) (change : Record → Option Record) : Board × Bool :=
  let (b, changed) := b.modify index .delay change
  (if changed then b.requestResort index else b, changed)

def updateDelay (b : Board) (index : Nat) (name : String) (delay : Int) : Board × Bool :=
  b.modifyDelays index fun r => if r.differs name delay then some (r.withDelay name delay) else none

def updateDelays (b : Board) (index : Nat) (delays : DelayTable) : Board × Bool :=
  b.modifyDelays index (·.withDelays? delays)

def setTesting (b : Board) (index : Nat) (testing : Bool) : Board × Bool :=
  b.modify index .testing fun r =>
    if r.testing = testing then none else some { r with testing := testing }

def setSelection (b : Board) (index : Nat) (now : String) : Board × Bool :=
  b.modify index .selection fun r =>
    if r.group.now = some now then none else some { r with group := { r.group with now := now } }

def remove (b : Board) (index : Nat) : Board × Bool :=
  if index ∈ b.records then
    ({ b with records := b.records.erase index }.emit (.removed index), true)
  else (b, false)

def reset (b : Board) : Board :=
  { b with records := ∅ }.emit .reset

def setSortByDelay (b : Board) (on : Bool) : Board :=
  let b := { b with config := { b.config with view := { b.config.view with sortByDelay := on } } }
  if on then b.records.keys.foldl requestResort b else b

def configure (b : Board) (next : Config) : Board :=
  let changed := next.view.sortByDelay != b.sortsByDelay
  let b := { b with config := next }
  if changed then b.setSortByDelay next.view.sortByDelay else b

def resortRecord (b : Board) (index : Nat) : Board :=
  (b.modify index .resort fun r =>
    let members := sortProxies .delay r.group.members
    if members = r.group.members then none
    else some { r with group := { r.group with members := members } }).1

def resort (b : Board) (indices : Std.ExtTreeSet Nat) : Board :=
  if b.sortsByDelay then
    indices.toList.foldl resortRecord ({ b with resorts := b.resorts + 1 }.measure .resorted)
  else b

def takeRequests (b : Board) (now : Nat) : Board :=
  if b.requests.isEmpty then b
  else
    let before := b.resorting.elim ∅ Resorting.indices
    { b with
      requests := []
      resorting := some ⟨before.insertMany b.requests, now + b.config.view.sortDebounce⟩ }

def resortReady (b : Board) (now : Nat) : Bool :=
  !b.requests.isEmpty || b.resorting.any (·.due ≤ now)

def serveResorting (b : Board) (now : Nat) : Board :=
  match b.resorting with
  | none => b
  | some r => if r.due ≤ now then { b with resorting := none }.resort r.indices else b

def stepResorting (b : Board) (now : Nat) : Board :=
  (b.takeRequests now).serveResorting now

def elapse (b : Board) (now target : Nat) : Board :=
  let b := b.stepResorting now
  match b.resorting with
  | none => b
  | some r => if r.due ≤ target then b.stepResorting r.due else b

end Board

end ProxyPulse
