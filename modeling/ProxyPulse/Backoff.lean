namespace ProxyPulse

structure Backoff where
  base : Nat
  cap : Nat
  attempts : Nat := 0
  deriving DecidableEq, Repr

namespace Backoff

def word : Nat :=
  Nat.pow 2 32 - 1

def millisecond : Nat :=
  1000000

def pause (b : Backoff) (n : Nat) : Nat :=
  min (b.base * min (Nat.pow 2 (min (n - 1) 32)) word) b.cap

def jitterRange (pause : Nat) : Nat :=
  pause / millisecond / 10

def next (draw : Nat) (b : Backoff) : Nat × Backoff :=
  let n := min (b.attempts + 1) word
  let pause := b.pause n
  let range := jitterRange pause
  let jitter := if range = 0 then 0 else draw % range
  (pause + jitter * millisecond, { b with attempts := n })

def reset (b : Backoff) : Backoff :=
  { b with attempts := 0 }

end Backoff

end ProxyPulse
