import ProxyPulse.Document
import ProxyPulse.Toml.Text

namespace ProxyPulse.Toml

def moreDigits? (isDigit : Char → Bool) : List Char → Option (List Char × List Char)
  | [] => some ([], [])
  | ['_'] => none
  | '_' :: d :: rest =>
    if isDigit d then (moreDigits? isDigit rest).map fun (ds, rest) => (d :: ds, rest) else none
  | c :: rest =>
    if isDigit c then (moreDigits? isDigit rest).map fun (ds, rest) => (c :: ds, rest)
    else some ([], c :: rest)

def digitRun? (isDigit : Char → Bool) : List Char → Option (List Char × List Char)
  | [] => none
  | c :: rest =>
    if isDigit c then (moreDigits? isDigit rest).map fun (ds, rest) => (c :: ds, rest) else none

def isBinary (c : Char) : Bool :=
  c == '0' || c == '1'

def isOctal (c : Char) : Bool :=
  '0' ≤ c && c ≤ '7'

def isHex (c : Char) : Bool :=
  (hexDigit? c).isSome

def digitsValue (base : Nat) (digits : List Char) : Nat :=
  digits.foldl (fun n c => base * n + (hexDigit? c).getD 0) 0

def signed64? (negative : Bool) (n : Nat) : Option Document :=
  if negative then if n ≤ Nat.pow 2 63 then some (.integer (-(n : Int))) else none
  else if n < Nat.pow 2 63 then some (.integer n) else none

def based? (base : Nat) (isDigit : Char → Bool) (s : List Char) :
    Option (Document × List Char) := do
  let (digits, rest) ← digitRun? isDigit s
  return (← signed64? false (digitsValue base digits), rest)

def whole? : List Char → Option (List Char × List Char)
  | '0' :: rest => some (['0'], rest)
  | s => digitRun? Char.isDigit s

def exponent? (s : List Char) : Option (Option (Bool × List Char) × List Char) :=
  match s with
  | [] => some (none, [])
  | c :: rest =>
    if c = 'e' ∨ c = 'E' then
      let (negative, rest) :=
        match rest with
        | '+' :: r => (false, r)
        | '-' :: r => (true, r)
        | r => (false, r)
      (digitRun? Char.isDigit rest).map fun (ds, rest) => (some (negative, ds), rest)
    else some (none, s)

def fraction? : List Char → Option (Option (List Char) × List Char)
  | '.' :: rest => (digitRun? Char.isDigit rest).map fun (ds, rest) => (some ds, rest)
  | s => some (none, s)

/-- Whether a decimal number is nearer to the next power of two than to any number of 64 bits with
a point, and so has no such number. Numbers are compared exactly unless their length decides. -/
def overflows (whole fraction : List Char) (negative : Bool) (exponent : Nat) : Bool :=
  let digits := (whole ++ fraction).dropWhile (· == '0')
  let mantissa := digitsValue 10 digits
  let limit := Nat.pow 2 1024 - Nat.pow 2 970
  if digits.isEmpty then false
  else if negative then
    if fraction.length + exponent < digits.length then
      limit * Nat.pow 10 (fraction.length + exponent) ≤ mantissa
    else false
  else if fraction.length + 400 < digits.length + exponent then true
  else if exponent ≤ fraction.length then
    limit * Nat.pow 10 (fraction.length - exponent) ≤ mantissa
  else limit ≤ mantissa * Nat.pow 10 (exponent - fraction.length)

def decimal? (negative : Bool) (s : List Char) : Option (Document × List Char) := do
  let (whole, s) ← whole? s
  let (fraction, s) ← fraction? s
  let (exponent, s) ← exponent? s
  match fraction, exponent with
  | none, none => return (← signed64? negative (digitsValue 10 whole), s)
  | _, _ =>
    let (down, digits) := exponent.getD (false, [])
    if !negative && overflows whole (fraction.getD []) down (digitsValue 10 digits) then none
    return (.real, s)

def signless? (negative : Bool) : List Char → Option (Document × List Char)
  | 'i' :: 'n' :: 'f' :: rest => some (.real, rest)
  | 'n' :: 'a' :: 'n' :: rest => some (.real, rest)
  | s => decimal? negative s

def number? : List Char → Option (Document × List Char)
  | '0' :: 'x' :: rest => based? 16 isHex rest
  | '0' :: 'o' :: rest => based? 8 isOctal rest
  | '0' :: 'b' :: rest => based? 2 isBinary rest
  | '+' :: rest => signless? false rest
  | '-' :: rest => signless? true rest
  | s => signless? false s

def pair? (low high : Nat) : List Char → Option (Nat × List Char)
  | a :: b :: rest =>
    if a.isDigit && b.isDigit then
      let n := digitsValue 10 [a, b]
      if low ≤ n && n ≤ high then some (n, rest) else none
    else none
  | _ => none

def isLeap (year : Nat) : Bool :=
  year % 4 == 0 && (year % 100 != 0 || year % 400 == 0)

def daysIn (year month : Nat) : Nat :=
  if month == 2 then if isLeap year then 29 else 28
  else if month == 4 || month == 6 || month == 9 || month == 11 then 30
  else 31

def monthDay? (year : Nat) (s : List Char) : Option (List Char) := do
  let (month, s) ← pair? 1 12 s
  match s with
  | '-' :: s =>
    let (day, s) ← pair? 1 31 s
    if day ≤ daysIn year month then some s else none
  | _ => none

def minuteSecond? (s : List Char) : Option (List Char) := do
  let (_, s) ← pair? 0 59 s
  match s with
  | ':' :: s =>
    let (_, s) ← pair? 0 60 s
    match s with
    | '.' :: c :: rest => if c.isDigit then some (rest.dropWhile Char.isDigit) else some s
    | _ => some s
  | _ => none

def startsTime : List Char → Bool
  | a :: b :: ':' :: _ => a.isDigit && b.isDigit
  | _ => false

def time? (s : List Char) : Option (List Char) := do
  let (_, s) ← pair? 0 23 s
  minuteSecond? (s.drop 1)

def offset? : List Char → Option (List Char)
  | 'Z' :: rest => some rest
  | 'z' :: rest => some rest
  | c :: rest =>
    if c = '+' ∨ c = '-' then do
      let (_, s) ← pair? 0 23 rest
      match s with
      | ':' :: s => (pair? 0 59 s).map (·.2)
      | _ => none
    else some (c :: rest)
  | [] => some []

def dateTail? (s : List Char) : Option (List Char) :=
  match s with
  | c :: rest =>
    if (c = 'T' ∨ c = 't' ∨ c = ' ') ∧ startsTime rest then (time? rest).bind offset? else some s
  | [] => some []

def startsDate : List Char → Bool
  | a :: b :: c :: d :: '-' :: _ => [a, b, c, d].all Char.isDigit
  | _ => false

def moment? (s : List Char) : Option (Document × List Char) :=
  let rest :=
    if startsDate s then (monthDay? (digitsValue 10 (s.take 4)) (s.drop 5)).bind dateTail?
    else time? s
  rest.map (.moment, ·)

def scalar? (s : List Char) : Option (Document × List Char) :=
  match s with
  | 't' :: 'r' :: 'u' :: 'e' :: rest => some (.bool true, rest)
  | 'f' :: 'a' :: 'l' :: 's' :: 'e' :: rest => some (.bool false, rest)
  | _ => if startsDate s || startsTime s then moment? s else number? s

end ProxyPulse.Toml
