import Std.Data.ExtTreeMap

namespace ProxyPulse

inductive Proxy.Kind where
  | terminal
  | group
  deriving DecidableEq, Repr

structure Proxy where
  name : String
  kind : Proxy.Kind
  subtitle : String
  delay : Int
  deriving DecidableEq, Repr

def isKnownDelay (delay : Int) : Bool :=
  decide (0 < delay)

namespace Proxy

def hasKnownDelay (p : Proxy) : Bool :=
  isKnownDelay p.delay

def isGroup (p : Proxy) : Bool :=
  p.kind == .group

def delayLe (p q : Proxy) : Bool :=
  if p.hasKnownDelay then !q.hasKnownDelay || decide (p.delay ≤ q.delay) else !q.hasKnownDelay

def titleLe (p q : Proxy) : Bool :=
  decide (p.name ≤ q.name)

end Proxy

inductive SortMode where
  | listed
  | title
  | delay
  deriving DecidableEq, Repr

def sortProxies (mode : SortMode) (members : List Proxy) : List Proxy :=
  match mode with
  | .listed => members
  | .title => members.mergeSort Proxy.titleLe
  | .delay => members.mergeSort Proxy.delayLe

structure Link where
  name : String
  delay : Int
  deriving DecidableEq, Repr

abbrev LinkTable := Std.ExtTreeMap String Link

def linksFor (members : List Proxy) : LinkTable :=
  members.foldl (fun links p => links.insert p.name ⟨p.name, p.delay⟩) ∅

end ProxyPulse
