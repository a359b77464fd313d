import ProxyPulse.Config

namespace ProxyPulse

structure Budget where
  concurrency : Nat
  maxWait : Nat
  deriving DecidableEq, Repr

namespace Budget

def fallback : Budget :=
  ⟨8, 8000⟩

def ofTier (t : BudgetTier) : Budget :=
  ⟨max t.concurrency 1, min t.maxWait maxTierWait⟩

def forGroupSize (tiers : List BudgetTier) (size : Nat) : Budget :=
  ((tiers.find? (size ≤ ·.maxGroupSize)).or tiers.getLast?).elim fallback ofTier

end Budget

end ProxyPulse
