namespace ProxyPulse.Toml

def isTextChar (c : Char) : Bool :=
  c == '\t' || (0x20 ≤ c.toNat && c.toNat != 0x7F)

def isBlank (c : Char) : Bool :=
  c == ' ' || c == '\t'

def newline? : List Char → Option (List Char)
  | '\n' :: rest => some rest
  | '\r' :: '\n' :: rest => some rest
  | _ => none

def hexDigit? (c : Char) : Option Nat :=
  if '0' ≤ c && c ≤ '9' then some (c.toNat - 0x30)
  else if 'a' ≤ c && c ≤ 'f' then some (c.toNat - 0x61 + 10)
  else if 'A' ≤ c && c ≤ 'F' then some (c.toNat - 0x41 + 10)
  else none

def char? (code : Nat) : Option Char :=
  if code < 0xD800 || (0xE000 ≤ code && code ≤ 0x10FFFF) then some (Char.ofNat code) else none

def hexChar? (digits : List Char) : Option Char :=
  (digits.foldlM (fun n c => (hexDigit? c).map (16 * n + ·)) 0).bind char?

def escape? : List Char → Option (Char × List Char)
  | 'b' :: rest => some ('\x08', rest)
  | 't' :: rest => some ('\t', rest)
  | 'n' :: rest => some ('\n', rest)
  | 'f' :: rest => some ('\x0c', rest)
  | 'r' :: rest => some ('\r', rest)
  | '"' :: rest => some ('"', rest)
  | '\\' :: rest => some ('\\', rest)
  | 'u' :: a :: b :: c :: d :: rest => (hexChar? [a, b, c, d]).map (·, rest)
  | 'U' :: a :: b :: c :: d :: e :: f :: g :: h :: rest =>
    (hexChar? [a, b, c, d, e, f, g, h]).map (·, rest)
  | _ => none

def skipSpace : List Char → List Char
  | '\r' :: '\n' :: rest => skipSpace rest
  | c :: rest => if isBlank c || c == '\n' then skipSpace rest else c :: rest
  | [] => []

def skippedLine? (s : List Char) : Option (List Char) :=
  (newline? (s.dropWhile isBlank)).map skipSpace

def basic? : Nat → List Char → List Char → Option (String × List Char)
  | 0, _, _ => none
  | fuel + 1, acc, s =>
    match s with
    | [] => none
    | '"' :: rest => some (String.ofList acc.reverse, rest)
    | '\\' :: rest =>
      match escape? rest with
      | some (c, rest) => basic? fuel (c :: acc) rest
      | none => none
    | c :: rest => if isTextChar c then basic? fuel (c :: acc) rest else none

def literal? (s : List Char) : Option (String × List Char) :=
  match s.span fun c => c != '\'' && isTextChar c with
  | (text, '\'' :: rest) => some (String.ofList text, rest)
  | _ => none

/-- A run of quotes inside a string of several lines: three of them close it, and up to two before
those belong to the text. -/
inductive Quotes where
  | inside (count : Nat)
  | closing (extra : Nat)

def quotes (run : Nat) : Quotes :=
  if run < 3 then .inside run else .closing (min (run - 3) 2)

def multiline? (escapes : Bool) : Nat → List Char → List Char → Option (String × List Char)
  | 0, _, _ => none
  | fuel + 1, acc, s =>
    let quote := if escapes then '"' else '\''
    match s with
    | [] => none
    | c :: rest =>
      if c = quote then
        match quotes (s.takeWhile (· == quote)).length with
        | .inside n => multiline? escapes fuel (List.replicate n quote ++ acc) (s.drop n)
        | .closing n =>
          some (String.ofList (List.replicate n quote ++ acc).reverse, s.drop (n + 3))
      else if escapes ∧ c = '\\' then
        match skippedLine? rest with
        | some rest => multiline? escapes fuel acc rest
        | none =>
          match escape? rest with
          | some (c, rest) => multiline? escapes fuel (c :: acc) rest
          | none => none
      else
        match newline? s with
        | some rest => multiline? escapes fuel ('\n' :: acc) rest
        | none => if isTextChar c then multiline? escapes fuel (c :: acc) rest else none

def skipFirstNewline (s : List Char) : List Char :=
  (newline? s).getD s

def singleLine? : List Char → Option (String × List Char)
  | '"' :: rest => basic? (rest.length + 1) [] rest
  | '\'' :: rest => literal? rest
  | _ => none

def string? : List Char → Option (String × List Char)
  | '"' :: '"' :: '"' :: rest => multiline? true (rest.length + 1) [] (skipFirstNewline rest)
  | '\'' :: '\'' :: '\'' :: rest => multiline? false (rest.length + 1) [] (skipFirstNewline rest)
  | s => singleLine? s

end ProxyPulse.Toml
