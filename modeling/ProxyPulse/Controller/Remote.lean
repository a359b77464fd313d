import ProxyPulse.Controller

namespace ProxyPulse.Controller

abbrev Traffic := List (Nat × HttpRequest)

def latency (c : Controller) (travel : HttpRequest → HttpReply) (operation : Operation)
    (r : HttpRequest) : Nat :=
  match travel r with
  | .silence => c.patience operation
  | _ => 0

def start (c : Controller) (travel : HttpRequest → HttpReply) (now : Nat) (operation : Operation)
    (traffic : Traffic) : Traffic × Option Nat :=
  match c.sent? operation with
  | none => (traffic, some 0)
  | some r => ((now, r) :: traffic, some (c.latency travel operation r))

def core (c : Controller) (travel : HttpRequest → HttpReply) : Core Traffic where
  start := c.start travel
  names selectableOnly traffic := (traffic, some (c.names travel selectableOnly))
  report group sort traffic := (traffic, some (c.report travel group sort))
  trigger group traffic := (traffic, some (c.trigger travel group))
  choose group proxy traffic := (traffic, some (c.choose travel group proxy))
  probe proxy traffic := (traffic, some (c.probe travel proxy))
  mode traffic := (traffic, some (c.mode travel))
  setMode mode traffic := (traffic, some (c.setMode travel mode))
  draw traffic := (traffic, 0)

end ProxyPulse.Controller
