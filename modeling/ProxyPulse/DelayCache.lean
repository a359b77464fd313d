import ProxyPulse.Proxy

namespace ProxyPulse

structure CachedDelay where
  delay : Int
  recordedAt : Nat
  deriving DecidableEq, Repr

abbrev DelayCache := Std.ExtTreeMap String CachedDelay

namespace DelayCache

def isFresh (ttl now : Nat) (d : CachedDelay) : Bool :=
  decide (now - d.recordedAt < ttl)

def fresh? (cache : DelayCache) (ttl now : Nat) (name : String) : Option Int :=
  (cache[name]?.filter (isFresh ttl now)).map CachedDelay.delay

def coversAll (cache : DelayCache) (ttl now : Nat) (names : List String) : Bool :=
  names.all fun name => cache[name]?.any (isFresh ttl now)

def record (cache : DelayCache) (now : Nat) (name : String) (delay : Int) : DelayCache :=
  if isKnownDelay delay then cache.insert name ⟨delay, now⟩ else cache

def sweep (cache : DelayCache) (ttl now : Nat) : DelayCache :=
  cache.filter fun _ d => isFresh ttl now d

def keep (cache : DelayCache) (names : List String) : DelayCache :=
  cache.filter fun name _ => names.contains name

end DelayCache

end ProxyPulse
