import ProxyPulse.Proxy

namespace ProxyPulse

inductive GroupKind where
  | selector
  | urlTest
  | fallback
  | loadBalance
  | relay
  deriving DecidableEq, Repr

namespace GroupKind

def ofTypeName? : String → Option GroupKind
  | "Selector" => some .selector
  | "URLTest" => some .urlTest
  | "Fallback" => some .fallback
  | "LoadBalance" => some .loadBalance
  | "Relay" => some .relay
  | _ => none

def isSelectable (k : GroupKind) : Bool :=
  k == .selector

end GroupKind

structure Group where
  name : String
  members : List Proxy
  selectable : Bool
  now : Option String
  deriving DecidableEq, Repr

namespace Group

def empty (name : String) : Group :=
  ⟨name, [], false, none⟩

def member? (g : Group) (name : String) : Option Proxy :=
  g.members.find? (·.name == name)

def selected? (g : Group) : Option Proxy :=
  g.now.bind g.member?

end Group

structure GroupReport where
  name : String
  kind : GroupKind
  -- The active member; empty when the core reports none.
  now : String
  members : List Proxy
  deriving DecidableEq, Repr

namespace GroupReport

def selectable (r : GroupReport) : Bool :=
  r.kind.isSelectable

def now? (r : GroupReport) : Option String :=
  if r.now.isEmpty then none else some r.now

def toGroup (r : GroupReport) : Group :=
  ⟨r.name, r.members, r.selectable, r.now?⟩

end GroupReport

end ProxyPulse
