/-!
A fixed number of permits. Who finds none left queues with a ticket; a permit that comes back goes
to the first in the queue, who then holds it whether it has noticed or not.
-/

namespace ProxyPulse

structure Permits where
  free : Nat
  queue : List Nat := []
  -- Tickets that were handed a permit and have not gone on with it.
  granted : List Nat := []
  nextTicket : Nat := 0
  deriving DecidableEq, Repr

namespace Permits

def acquire (p : Permits) : Permits × Option Nat :=
  if p.free = 0 then
    ({ p with queue := p.queue ++ [p.nextTicket], nextTicket := p.nextTicket + 1 },
      some p.nextTicket)
  else ({ p with free := p.free - 1 }, none)

def release (p : Permits) : Permits :=
  match p.queue with
  | [] => { p with free := p.free + 1 }
  | ticket :: rest => { p with queue := rest, granted := ticket :: p.granted }

def isGranted (p : Permits) (ticket : Nat) : Bool :=
  p.granted.contains ticket

def claim (p : Permits) (ticket : Nat) : Permits :=
  { p with granted := p.granted.erase ticket }

def abandon (p : Permits) (ticket : Nat) : Permits :=
  if p.isGranted ticket then (p.claim ticket).release
  else { p with queue := p.queue.erase ticket }

end Permits

end ProxyPulse
