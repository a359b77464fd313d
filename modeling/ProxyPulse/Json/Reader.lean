import ProxyPulse.Json

namespace ProxyPulse.Json

abbrev Bytes := List UInt8

def isBlank (b : UInt8) : Bool :=
  b == 0x20 || b == 0x0A || b == 0x0D || b == 0x09

def isDigit (b : UInt8) : Bool :=
  0x30 ≤ b && b ≤ 0x39

def hexDigit? (b : UInt8) : Option Nat :=
  if isDigit b then some (b.toNat - 0x30)
  else if 0x61 ≤ b && b ≤ 0x66 then some (b.toNat - 0x61 + 10)
  else if 0x41 ≤ b && b ≤ 0x46 then some (b.toNat - 0x41 + 10)
  else none

def hexUnit? (a b c d : UInt8) : Option Nat := do
  let a ← hexDigit? a
  let b ← hexDigit? b
  let c ← hexDigit? c
  let d ← hexDigit? d
  return ((a * 16 + b) * 16 + c) * 16 + d

def pushChar (code : Nat) (acc : Bytes) : Bytes :=
  (String.singleton (Char.ofNat code)).toUTF8.toList.reverse ++ acc

def isHighHalf (u : Nat) : Bool :=
  0xD800 ≤ u && u < 0xDC00

def isLowHalf (u : Nat) : Bool :=
  0xDC00 ≤ u && u < 0xE000

def shortEscape? (b : UInt8) : Option UInt8 :=
  if b == 0x22 || b == 0x5C || b == 0x2F then some b
  else if b == 0x62 then some 0x08
  else if b == 0x66 then some 0x0C
  else if b == 0x6E then some 0x0A
  else if b == 0x72 then some 0x0D
  else if b == 0x74 then some 0x09
  else none

def readText (acc : Option Bytes) : Bytes → Option (Option String × Bytes)
  | [] => none
  | 0x22 :: rest =>
    some (acc.bind fun bytes => String.fromUTF8? ⟨bytes.reverse.toArray⟩, rest)
  | 0x5C :: 0x75 :: a :: b :: c :: d :: 0x5C :: 0x75 :: e :: f :: g :: h :: rest => do
    let u ← hexUnit? a b c d
    if isHighHalf u then
      match hexUnit? e f g h with
      | some v =>
        if isLowHalf v then
          readText (acc.map (pushChar (0x10000 + (u - 0xD800) * 0x400 + (v - 0xDC00)))) rest
        else
          readText none (0x5C :: 0x75 :: e :: f :: g :: h :: rest)
      | none => none
    else if isLowHalf u then
      readText none (0x5C :: 0x75 :: e :: f :: g :: h :: rest)
    else
      readText (acc.map (pushChar u)) (0x5C :: 0x75 :: e :: f :: g :: h :: rest)
  | 0x5C :: 0x75 :: a :: b :: c :: d :: rest => do
    let u ← hexUnit? a b c d
    if isHighHalf u || isLowHalf u then readText none rest
    else readText (acc.map (pushChar u)) rest
  | 0x5C :: b :: rest =>
    match shortEscape? b with
    | some c => readText (acc.map (c :: ·)) rest
    | none => none
  | b :: rest =>
    if b < 0x20 || b == 0x5C then none else readText (acc.map (b :: ·)) rest

def digits (s : Bytes) : Bytes × Bytes :=
  s.span isDigit

def digitsValue (ds : Bytes) : Nat :=
  ds.foldl (fun n b => n * 10 + (b.toNat - 0x30)) 0

def readFraction : Bytes → Option (Bytes × Bytes)
  | 0x2E :: rest =>
    match digits rest with
    | ([], _) => none
    | (ds, rest) => some (0x2E :: ds, rest)
  | s => some ([], s)

def readExponent : Bytes → Option (Bytes × Bytes)
  | [] => some ([], [])
  | b :: rest =>
    if b == 0x65 || b == 0x45 then
      let (sign, rest) : Bytes × Bytes :=
        match rest with
        | 0x2B :: r => ([0x2B], r)
        | 0x2D :: r => ([0x2D], r)
        | r => ([], r)
      match digits rest with
      | ([], _) => none
      | (ds, rest) => some (b :: sign ++ ds, rest)
    else
      some ([], b :: rest)

def spelling (s : Bytes) : String :=
  String.ofList (s.map fun b => Char.ofNat b.toNat)

def numberOf (negative : Bool) (whole fraction exponent : Bytes) : Number :=
  let sign : Bytes := if negative then [0x2D] else []
  let other := Number.real (spelling (sign ++ whole ++ fraction ++ exponent))
  if fraction.isEmpty && exponent.isEmpty then
    let n := digitsValue whole
    if negative then
      if 0 < n ∧ n ≤ Nat.pow 2 63 then .int (-(n : Int)) else other
    else if n < Nat.pow 2 64 then .int n else other
  else other

def readNumber (s : Bytes) : Option (Number × Bytes) := do
  let (negative, s) :=
    match s with
    | 0x2D :: r => (true, r)
    | r => (false, r)
  let (whole, s) ←
    match digits s with
    | ([], _) => none
    | (0x30 :: ds, rest) => if ds.isEmpty then some ([0x30], rest) else none
    | (ds, rest) => some (ds, rest)
  let (fraction, s) ← readFraction s
  let (exponent, s) ← readExponent s
  return (numberOf negative whole fraction exponent, s)

mutual

def readValue : Nat → Bytes → Option (Json × Bytes)
  | 0, _ => none
  | fuel + 1, s =>
    match s.dropWhile isBlank with
    | 0x6E :: 0x75 :: 0x6C :: 0x6C :: rest => some (.null, rest)
    | 0x74 :: 0x72 :: 0x75 :: 0x65 :: rest => some (.bool true, rest)
    | 0x66 :: 0x61 :: 0x6C :: 0x73 :: 0x65 :: rest => some (.bool false, rest)
    | 0x22 :: rest => (readText (some []) rest).map fun (t, rest) => (.text t, rest)
    | 0x5B :: rest =>
      match rest.dropWhile isBlank with
      | 0x5D :: rest => some (.list [], rest)
      | rest => readElements fuel [] rest
    | 0x7B :: rest =>
      match rest.dropWhile isBlank with
      | 0x7D :: rest => some (.object [], rest)
      | rest => readMembers fuel [] rest
    | rest => (readNumber rest).map fun (n, rest) => (.number n, rest)

def readElements : Nat → List Json → Bytes → Option (Json × Bytes)
  | 0, _, _ => none
  | fuel + 1, acc, s =>
    match readValue fuel s with
    | none => none
    | some (v, rest) =>
      match rest.dropWhile isBlank with
      | 0x2C :: rest => readElements fuel (v :: acc) rest
      | 0x5D :: rest => some (.list (v :: acc).reverse, rest)
      | _ => none

def readMembers : Nat → List (Option String × Json) → Bytes → Option (Json × Bytes)
  | 0, _, _ => none
  | fuel + 1, acc, s =>
    match s.dropWhile isBlank with
    | 0x22 :: rest =>
      match readText (some []) rest with
      | none => none
      | some (key, rest) =>
        match rest.dropWhile isBlank with
        | 0x3A :: rest =>
          match readValue fuel rest with
          | none => none
          | some (v, rest) =>
            match rest.dropWhile isBlank with
            | 0x2C :: rest => readMembers fuel ((key, v) :: acc) rest
            | 0x7D :: rest => some (.object ((key, v) :: acc).reverse, rest)
            | _ => none
        | _ => none
    | _ => none

end

def ofBytes? (s : Bytes) : Option Json :=
  match readValue (2 * s.length + 2) s with
  | some (v, rest) => if (rest.dropWhile isBlank).isEmpty then some v else none
  | none => none

def ofString? (s : String) : Option Json :=
  ofBytes? s.toUTF8.toList

end ProxyPulse.Json
