namespace ProxyPulse.Broadcast

inductive Reception (α : Type) where
  | nothing
  | lagged (missed : Nat)
  | value (a : α)
  deriving DecidableEq, Repr

def receive (capacity : Nat) (sent : List α) (taken : Nat) : Reception α × Nat :=
  let behind := sent.length - taken
  if behind = 0 then (.nothing, taken)
  else if capacity < behind then (.lagged (behind - capacity), sent.length - capacity)
  else
    match sent[behind - 1]? with
    | some a => (.value a, taken + 1)
    | none => (.nothing, taken)

def drain (capacity : Nat) (sent : List α) (taken : Nat) : Nat × List α :=
  let behind := sent.length - taken
  (behind - capacity, (sent.take (min behind capacity)).reverse)

end ProxyPulse.Broadcast
