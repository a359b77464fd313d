import ProxyPulse.Toml.Text

namespace ProxyPulse.Toml

inductive Frame where
  | oneLine
  | tripleLine
  | severalLines
  deriving DecidableEq, Repr

def hexDigit (n : Nat) : Char :=
  if n < 10 then Char.ofNat (0x30 + n) else Char.ofNat (0x41 + (n - 10))

def isHiddenControl (c : Char) : Bool :=
  c != '\t' && c != '\n' && (c.toNat < 0x20 || c.toNat == 0x7F)

def longestQuoteRun : Nat → List Char → Nat
  | run, [] => run
  | run, '\'' :: rest => longestQuoteRun (run + 1) rest
  | run, _ :: rest => max run (longestQuoteRun 0 rest)

/-- Whether a text is better and can be written without escapes: it has something to escape, no
control that must be escaped, and no single quotes that would end it early. -/
def prefersLiteral (s : List Char) : Bool :=
  s.any (fun c => c == '"' || c == '\\') && !s.any isHiddenControl
    && longestQuoteRun 0 s < 3 && s.getLast? != some '\''

def frame (s : List Char) : Frame :=
  if s.contains '\n' then .severalLines
  else if prefersLiteral s && s.contains '\'' then .tripleLine
  else .oneLine

def escapeChar (several : Bool) (c : Char) : List Char :=
  if c = '\x08' then ['\\', 'b']
  else if c = '\t' then ['\\', 't']
  else if c = '\n' then if several then ['\n'] else ['\\', 'n']
  else if c = '\x0c' then ['\\', 'f']
  else if c = '\r' then ['\\', 'r']
  else if c = '\\' then ['\\', '\\']
  else if c.toNat < 0x20 || c.toNat == 0x7F then
    ['\\', 'u', '0', '0', hexDigit (c.toNat / 16), hexDigit (c.toNat % 16)]
  else [c]

def rawQuotes (several : Bool) : Nat :=
  if several then 2 else 0

def escape (several : Bool) : Nat → List Char → List Char
  | _, [] => []
  | run, c :: rest =>
    if c = '"' then
      if run < rawQuotes several then c :: escape several (run + 1) rest
      else '\\' :: c :: escape several 0 rest
    else escapeChar several c ++ escape several 0 rest

def quote (text : String) : String :=
  let s := text.toList
  if prefersLiteral s then
    match frame s with
    | .oneLine => "'" ++ text ++ "'"
    | .tripleLine => "'''" ++ text ++ "'''"
    | .severalLines => "'''\n" ++ text ++ "'''"
  else
    match frame s with
    | .severalLines => "\"\"\"\n" ++ String.ofList (escape true 0 s) ++ "\"\"\""
    | _ => "\"" ++ String.ofList (escape false 0 s) ++ "\""

end ProxyPulse.Toml
