/-!
The ASCII form of labels beyond ASCII: digits of base 36 that say where the other characters go in
between the ASCII ones.
-/

namespace ProxyPulse.Url.Punycode

def base : Nat := 36

def digit? (c : Char) : Option Nat :=
  if 'a' ≤ c && c ≤ 'z' then some (c.toNat - 0x61)
  else if 'A' ≤ c && c ≤ 'Z' then some (c.toNat - 0x41)
  else if '0' ≤ c && c ≤ '9' then some (c.toNat - 0x30 + 26)
  else none

def threshold (k bias : Nat) : Nat :=
  if k ≤ bias then 1 else if bias + 26 ≤ k then 26 else k - bias

def adaptRounds : Nat → Nat → Nat → Nat
  | 0, k, delta => k + 36 * delta / (delta + 38)
  | fuel + 1, k, delta =>
    if 455 < delta then adaptRounds fuel (k + base) (delta / 35)
    else k + 36 * delta / (delta + 38)

def adapt (delta points : Nat) (first : Bool) : Nat :=
  let delta := if first then delta / 700 else delta / 2
  adaptRounds (delta + 1) 0 (delta + delta / points)

def number? (bias : Nat) : List Char → Nat → Nat → Nat → Option (Nat × List Char)
  | [], _, _, _ => none
  | c :: rest, k, weight, sum => do
    let d ← digit? c
    let sum := sum + d * weight
    if sum ≥ Nat.pow 2 32 then none
    let t := threshold k bias
    if d < t then some (sum, rest) else number? bias rest (k + base) (weight * (base - t)) sum

/-- The code points after every number in `s` was taken. A number says how far the next character
lies behind `place`, counted through all places of all characters from `code` on. Each round takes
a character of `s`. -/
def insertAll : Nat → List Char → Nat → Nat → Nat → List Nat → Option (List Nat)
  | 0, _, _, _, _, _ => none
  | fuel + 1, s, code, place, bias, out =>
    if s.isEmpty then some out
    else do
      let (delta, rest) ← number? bias s base 1 0
      let points := out.length + 1
      let next := (place + delta) % points
      let code := code + (place + delta) / points
      if 0x10FFFF < code || (0xD800 ≤ code && code < 0xE000) then none
      insertAll fuel rest code (next + 1) (adapt delta points (place == 0))
        (out.insertIdx next code)

def decode? (s : List Char) : Option (List Char) :=
  let tail := (s.reverse.takeWhile (· != '-')).reverse
  let front := (s.take (s.length - tail.length)).dropLast
  (insertAll (tail.length + 1) tail 128 0 72 (front.map (·.toNat))).map (·.map Char.ofNat)

end ProxyPulse.Url.Punycode
