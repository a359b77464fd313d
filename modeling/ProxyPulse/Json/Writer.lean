import ProxyPulse.Json

namespace ProxyPulse.Json

structure Style where
  pretty : Bool
  asciiOnly : Bool

def compact : Style :=
  ⟨false, false⟩

def indented : Style :=
  ⟨true, false⟩

def plain : Style :=
  ⟨false, true⟩

def hexDigit (n : Nat) : Char :=
  if n < 10 then Char.ofNat (0x30 + n) else Char.ofNat (0x61 + (n - 10))

def unitEscape (u : Nat) : List Char :=
  ['\\', 'u', hexDigit (u / 4096 % 16), hexDigit (u / 256 % 16), hexDigit (u / 16 % 16),
    hexDigit (u % 16)]

def escapeChar (style : Style) (c : Char) : List Char :=
  if c = '"' then ['\\', '"']
  else if c = '\\' then ['\\', '\\']
  else if c = '\n' then ['\\', 'n']
  else if c = '\r' then ['\\', 'r']
  else if c = '\t' then ['\\', 't']
  else if c.toNat = 0x08 then ['\\', 'b']
  else if c.toNat = 0x0C then ['\\', 'f']
  else if c.toNat < 0x20 then unitEscape c.toNat
  else if style.asciiOnly && 0x7F ≤ c.toNat then
    if c.toNat < 0x10000 then unitEscape c.toNat
    else
      let n := c.toNat - 0x10000
      unitEscape (0xD800 + n / 0x400) ++ unitEscape (0xDC00 + n % 0x400)
  else [c]

def quote (style : Style) (s : String) : String :=
  "\"" ++ String.ofList (s.toList.flatMap (escapeChar style)) ++ "\""

def newline (style : Style) (depth : Nat) : String :=
  if style.pretty then "\n" ++ "".pushn ' ' (2 * depth) else ""

def colon (style : Style) : String :=
  if style.pretty then ": " else ":"

def Number.render : Number → String
  | .int n => toString n
  | .real s => s

def renderText (style : Style) (s : Option String) : String :=
  quote style (s.getD "\uFFFD")

mutual

def renderAt (style : Style) (depth : Nat) : Json → String
  | .null => "null"
  | .bool b => if b then "true" else "false"
  | .number n => n.render
  | .text s => renderText style s
  | .list [] => "[]"
  | .list (x :: xs) =>
    "[" ++ newline style (depth + 1) ++ renderAt style (depth + 1) x
      ++ renderElements style (depth + 1) xs ++ newline style depth ++ "]"
  | .object [] => "\x7b\x7d"
  | .object ((k, v) :: ms) =>
    "\x7b" ++ newline style (depth + 1) ++ renderText style k ++ colon style
      ++ renderAt style (depth + 1) v ++ renderMembers style (depth + 1) ms
      ++ newline style depth ++ "\x7d"

def renderElements (style : Style) (depth : Nat) : List Json → String
  | [] => ""
  | x :: xs =>
    "," ++ newline style depth ++ renderAt style depth x ++ renderElements style depth xs

def renderMembers (style : Style) (depth : Nat) : List (Option String × Json) → String
  | [] => ""
  | (k, v) :: ms =>
    "," ++ newline style depth ++ renderText style k ++ colon style ++ renderAt style depth v
      ++ renderMembers style depth ms

end

def render (style : Style) (v : Json) : String :=
  renderAt style 0 v

end ProxyPulse.Json
