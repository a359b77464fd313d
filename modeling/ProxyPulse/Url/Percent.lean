namespace ProxyPulse.Url

abbrev Bytes := List UInt8

def hexChar (n : Nat) : Char :=
  if n < 10 then Char.ofNat (0x30 + n) else Char.ofNat (0x41 + (n - 10))

def hexValue? (c : Char) : Option Nat :=
  if '0' ≤ c && c ≤ '9' then some (c.toNat - 0x30)
  else if 'a' ≤ c && c ≤ 'f' then some (c.toNat - 0x61 + 10)
  else if 'A' ≤ c && c ≤ 'F' then some (c.toNat - 0x41 + 10)
  else none

def escapeByte (b : UInt8) : List Char :=
  ['%', hexChar (b.toNat / 16), hexChar (b.toNat % 16)]

def escapeChar (c : Char) : List Char :=
  (String.utf8EncodeChar c).flatMap escapeByte

def escape (escaped : Char → Bool) (s : List Char) : List Char :=
  s.flatMap fun c => if escaped c then escapeChar c else [c]

def unescape : List Char → Bytes
  | '%' :: a :: b :: rest =>
    match hexValue? a, hexValue? b with
    | some x, some y => UInt8.ofNat (16 * x + y) :: unescape rest
    | _, _ => 0x25 :: unescape (a :: b :: rest)
  | c :: rest => String.utf8EncodeChar c ++ unescape rest
  | [] => []

def decodeUtf8? (bytes : Bytes) : Option String :=
  String.fromUTF8? ⟨bytes.toArray⟩

def escapedAlways (c : Char) : Bool :=
  c.toNat < 0x20 || 0x7E < c.toNat

def escapedInFragment (c : Char) : Bool :=
  escapedAlways c || c == ' ' || c == '"' || c == '<' || c == '>' || c.toNat == 0x60

def escapedInQuery (c : Char) : Bool :=
  escapedAlways c || c == ' ' || c == '"' || c == '#' || c == '<' || c == '>'

def escapedInSpecialQuery (c : Char) : Bool :=
  escapedInQuery c || c == '\''

def escapedInPath (c : Char) : Bool :=
  escapedInFragment c || c == '#' || c == '?' || c.toNat == 0x7B || c.toNat == 0x7D

def escapedInSegment (c : Char) : Bool :=
  escapedInPath c || c == '/' || c == '%' || c == '\\'

def escapedInUserInfo (c : Char) : Bool :=
  escapedInPath c || c == '/' || c == ':' || c == ';' || c == '=' || c == '@' || c == '['
    || c == '\\' || c == ']' || c == '^' || c == '|'

def plainInForm (c : Char) : Bool :=
  c.isAlphanum || c == '*' || c == '-' || c == '.' || c == '_'

def escapeForm (s : String) : List Char :=
  s.toList.flatMap fun c =>
    if c = ' ' then ['+'] else if plainInForm c then [c] else escapeChar c

end ProxyPulse.Url
