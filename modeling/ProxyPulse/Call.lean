import ProxyPulse.Core

namespace ProxyPulse

structure Call where
  startedAt : Nat
  -- Never where there is none.
  answerAt : Option Nat
  -- How many milliseconds the caller waits; for ever where there is none.
  limit : Option Nat
  deriving DecidableEq, Repr

namespace Call

def deadline (c : Call) : Option Nat :=
  c.limit.map (c.startedAt + ·)

def isAnswered (c : Call) (now : Nat) : Bool :=
  c.answerAt.any (· ≤ now)

def isOverdue (c : Call) (now : Nat) : Bool :=
  c.deadline.any (· ≤ now)

def wakeAt (c : Call) : Option Nat :=
  c.answerAt.merge min c.deadline

def timeout (c : Call) : CallError :=
  .timeout (c.limit.getD 0)

def outcome? (c : Call) (answer : Answer α) : Option (Answer α × Nat) :=
  c.wakeAt.map fun now => (if c.isAnswered now then answer else .error c.timeout, now)

end Call

end ProxyPulse
