import ProxyPulse.Broadcast

namespace ProxyPulse

structure Shutdown where
  signals : List Unit := []
  listeners : List (String × Nat) := []
  deriving DecidableEq, Repr

namespace Shutdown

def capacity : Nat := 1

def drop (s : Shutdown) (id : String) : Shutdown :=
  { s with listeners := s.listeners.filter (·.1 != id) }

def isListening (s : Shutdown) (id : String) : Bool :=
  s.listeners.any (·.1 == id)

def subscribe (s : Shutdown) (id : String) : Shutdown :=
  { s with listeners := (s.drop id).listeners ++ [(id, s.signals.length)] }

def trigger (s : Shutdown) : Shutdown :=
  { s with signals := () :: s.signals }

def receive (s : Shutdown) (id : String) : Option (Broadcast.Reception Unit) × Shutdown :=
  match s.listeners.lookup id with
  | none => (none, s)
  | some taken =>
    let (reception, taken) := Broadcast.receive capacity s.signals taken
    (some reception, { s with
      listeners := s.listeners.map fun l => if l.1 == id then (id, taken) else l })

end Shutdown

end ProxyPulse
