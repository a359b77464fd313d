namespace ProxyPulse.Url

def digitBelow? (base : Nat) (c : Char) : Option Nat :=
  let value :=
    if '0' ≤ c && c ≤ '9' then c.toNat - 0x30
    else if 'a' ≤ c && c ≤ 'f' then c.toNat - 0x61 + 10
    else if 'A' ≤ c && c ≤ 'F' then c.toNat - 0x41 + 10
    else 16
  if value < base then some value else none

def number? (base : Nat) (s : List Char) : Option Nat :=
  s.foldlM (fun n c => (digitBelow? base c).map (n * base + ·)) 0

def addressPart? : List Char → Option Nat
  | [] => none
  | '0' :: 'x' :: rest => number? 16 rest
  | '0' :: 'X' :: rest => number? 16 rest
  | '0' :: c :: rest => number? 8 (c :: rest)
  | s => number? 10 s

def addressParts (s : List Char) : List (List Char) :=
  let parts := s.splitOn '.'
  if parts.length > 1 ∧ parts.getLast? = some [] then parts.dropLast else parts

def endsInNumber (s : List Char) : Bool :=
  match (addressParts s).getLast? with
  | none => false
  | some part => (!part.isEmpty && part.all (·.isDigit)) || (addressPart? part).isSome

def ipv4? (s : List Char) : Option Nat := do
  let parts := addressParts s
  if parts.length > 4 then none
  let numbers ← parts.mapM addressPart?
  let last ← numbers.getLast?
  let front := numbers.dropLast
  if last < Nat.pow 256 (4 - front.length) ∧ front.all (· < 256) then
    some (front.zipIdx.foldl (fun sum (n, i) => sum + n * Nat.pow 256 (3 - i)) last)
  else none

def piece (s : List Char) : List Char × List Char :=
  let run := (s.takeWhile fun c => (digitBelow? 16 c).isSome).take 4
  (run, s.drop run.length)

def dottedPieces? (s : List Char) : Option (List Nat) := do
  let parts := s.splitOn '.'
  if parts.length ≠ 4 then none
  let numbers ← parts.mapM fun part =>
    if part.isEmpty || (part.head? == some '0' && part.length > 1) then none
    else (number? 10 part).bind fun n => if n < 256 then some n else none
  match numbers with
  | [a, b, c, d] => some [a * 256 + b, c * 256 + d]
  | _ => none

/-- The pieces from here on, behind those in `acc`. A double colon adds one zero, and `gap` is the
number of pieces up to it. Each call consumes a character. -/
def pieces? (fuel : Nat) (acc : List Nat) (gap : Option Nat) (s : List Char) :
    Option (List Nat × Option Nat) :=
  match fuel with
  | 0 => none
  | fuel + 1 =>
    if s.isEmpty then some (acc, gap)
    else if acc.length = 8 then none
    else if s.head? = some ':' then
      if gap.isSome then none else pieces? fuel (acc ++ [0]) (some (acc.length + 1)) (s.drop 1)
    else
      let (digits, rest) := piece s
      match rest with
      | '.' :: _ =>
        if digits.isEmpty || acc.length > 6 then none
        else (dottedPieces? s).map fun two => (acc ++ two, gap)
      | ':' :: rest =>
        if rest.isEmpty then none
        else (number? 16 digits).bind fun n => pieces? fuel (acc ++ [n]) gap rest
      | [] => (number? 16 digits).bind fun n => pieces? fuel (acc ++ [n]) gap []
      | _ => none

def ipv6? (s : List Char) : Option (List Nat) := do
  let (found, gap) ←
    match s with
    | ':' :: ':' :: rest => pieces? (s.length + 1) [0] (some 1) rest
    | ':' :: _ => none
    | s => pieces? (s.length + 1) [] none s
  match gap with
  | some place =>
    some (found.take place ++ List.replicate (8 - found.length) 0 ++ found.drop place)
  | none => if found.length = 8 then some found else none

end ProxyPulse.Url
