import ProxyPulse.Url.Address
import ProxyPulse.Url.Domain
import ProxyPulse.Url.Percent

namespace ProxyPulse

inductive Url.Fault where
  | emptyHost
  | domainName
  | port
  | ipv4
  | ipv6
  | hostCharacter
  | relative
  deriving DecidableEq, Repr

namespace Url.Fault

def message : Url.Fault → String
  | .emptyHost => "empty host"
  | .domainName => "invalid international domain name"
  | .port => "invalid port number"
  | .ipv4 => "invalid IPv4 address"
  | .ipv6 => "invalid IPv6 address"
  | .hostCharacter => "invalid domain character"
  | .relative => "relative URL without a base"

end Url.Fault

inductive Url.Host where
  | domain (name : String)
  | ipv4 (address : Nat)
  | ipv6 (pieces : List Nat)
  deriving DecidableEq, Repr

inductive Url.Path where
  | segments (parts : List String)
  | bare (text : String)
  deriving DecidableEq, Repr

structure Url where
  scheme : String
  username : String
  password : Option String
  host : Option Url.Host
  -- Left out where it is the scheme's own.
  port : Option Nat
  path : Url.Path
  query : Option String
  deriving DecidableEq, Repr

namespace Url

def defaultPort? : String → Option Nat
  | "http" => some 80
  | "ws" => some 80
  | "https" => some 443
  | "wss" => some 443
  | "ftp" => some 21
  | _ => none

def isNetworkScheme (scheme : String) : Bool :=
  (defaultPort? scheme).isSome

def isSpecial (scheme : String) : Bool :=
  isNetworkScheme scheme || scheme == "file"

def isControlOrBlank (c : Char) : Bool :=
  c.toNat ≤ 0x20

def isTabOrNewline (c : Char) : Bool :=
  c == '\t' || c == '\n' || c == '\r'

def clean (s : List Char) : List Char :=
  ((s.dropWhile isControlOrBlank).reverse.dropWhile isControlOrBlank).reverse.filter
    fun c => !isTabOrNewline c

def isSchemeChar (c : Char) : Bool :=
  c.isAlphanum || c == '+' || c == '-' || c == '.'

def scheme? (s : List Char) : Option (String × List Char) :=
  match s.span isSchemeChar with
  | (c :: cs, ':' :: rest) =>
    if c.isAlpha then some (String.ofList ((c :: cs).map Char.toLower), rest) else none
  | _ => none

def isSlash (special : Bool) (c : Char) : Bool :=
  c == '/' || (special && c == '\\')

def endsAuthority (special : Bool) (c : Char) : Bool :=
  isSlash special c || c == '?' || c == '#'

structure UserInfo where
  username : String
  password : Option String
  isPresent : Bool
  rest : List Char

def readUserInfo (special : Bool) (s : List Char) : Except Fault UserInfo :=
  let (authority, rest) := s.span fun c => !endsAuthority special c
  if authority.contains '@' then
    let host := (authority.reverse.takeWhile (· != '@')).reverse
    let info := authority.take (authority.length - host.length - 1)
    if info.isEmpty && host.isEmpty && !rest.isEmpty then .error .emptyHost
    else
      let (user, secret) := info.span (· != ':')
      let encode := fun cs => String.ofList (escape escapedInUserInfo cs)
      let password := if secret.length > 1 then some (encode (secret.drop 1)) else none
      .ok ⟨encode user, password, !user.isEmpty || password.isSome, host ++ rest⟩
  else .ok ⟨"", none, false, s⟩

def spanHost (special : Bool) : Bool → List Char → List Char × List Char
  | _, [] => ([], [])
  | bracketed, c :: rest =>
    if (c == ':' && !bracketed) || endsAuthority special c then ([], c :: rest)
    else
      let bracketed := if c == '[' then true else if c == ']' then false else bracketed
      let (host, rest) := spanHost special bracketed rest
      (c :: host, rest)

def bracketedHost (s : List Char) : Except Fault Host :=
  if s.getLast? = some ']' then
    match ipv6? (s.drop 1).dropLast with
    | some pieces => .ok (.ipv6 pieces)
    | none => .error .ipv6
  else .error .ipv6

def Host.ofSpecial (s : List Char) : Except Fault Host :=
  if s.head? = some '[' then bracketedHost s
  else
    match Domain.ofBytes? (unescape s) with
    | none => .error .domainName
    | some [] => .error .emptyHost
    | some name =>
      if endsInNumber name then
        match ipv4? name with
        | some address => .ok (.ipv4 address)
        | none => .error .ipv4
      else .ok (.domain (String.ofList name))

def forbiddenInHost (c : Char) : Bool :=
  c.toNat == 0 || c == ' ' || "#/:<>?@[\\]^|".toList.contains c

def Host.ofOther (s : List Char) : Except Fault Host :=
  if s.head? = some '[' then bracketedHost s
  else if s.any forbiddenInHost then .error .hostCharacter
  else .ok (.domain (String.ofList (escape escapedAlways s)))

def readPort (scheme : String) (s : List Char) : Except Fault (Option Nat × List Char) :=
  let (digits, rest) := s.span Char.isDigit
  let port := digits.foldl (fun n c => n * 10 + (c.toNat - 0x30)) 0
  if port > 65535 then .error .port
  else if rest.isEmpty || (rest.head?.any fun c => endsAuthority true c) then
    .ok (if digits.isEmpty || defaultPort? scheme = some port then none else some port, rest)
  else .error .port

def isDoubleDot (s : List Char) : Bool :=
  ["..", "%2e%2e", ".%2e", "%2e."].contains (String.ofList (s.map Char.toLower))

def isSingleDot (s : List Char) : Bool :=
  [".", "%2e"].contains (String.ofList (s.map Char.toLower))

def resolveDots : List String → List (List Char) → List String
  | acc, [] => acc
  | acc, [s] =>
    if isDoubleDot s then acc.dropLast ++ [""]
    else if isSingleDot s then acc ++ [""]
    else acc ++ [String.ofList s]
  | acc, s :: rest =>
    if isDoubleDot s then resolveDots acc.dropLast rest
    else if isSingleDot s then resolveDots acc rest
    else resolveDots (acc ++ [String.ofList s]) rest

def readSegments (special : Bool) (s : List Char) : List String :=
  resolveDots [] ((s.splitOnP (isSlash special)).map (escape escapedInPath))

def splitQuery (special : Bool) (s : List Char) : List Char × Option String :=
  let (path, rest) := s.span fun c => c != '?' && c != '#'
  match rest with
  | '?' :: rest =>
    let escaped := if special then escapedInSpecialQuery else escapedInQuery
    (path, some (String.ofList (escape escaped (rest.takeWhile (· != '#')))))
  | _ => (path, none)

def pathAfterHost (special : Bool) (path : List Char) : List String :=
  match path with
  | [] => if special then [""] else []
  | c :: rest => readSegments special (if isSlash special c then rest else c :: rest)

def readAuthority (scheme : String) (s : List Char) : Except Fault Url := do
  let special := isSpecial scheme
  let user ← readUserInfo special s
  let (hostText, rest) := spanHost special false user.rest
  if hostText.isEmpty ∧ (special ∨ user.isPresent ∨ rest.head? = some ':') then
    throw .emptyHost
  let host ← if special then Host.ofSpecial hostText else Host.ofOther hostText
  let (port, rest) ←
    match rest with
    | ':' :: rest => readPort scheme rest
    | rest => pure (none, rest)
  let (path, query) := splitQuery special rest
  return {
    scheme := scheme
    username := user.username
    password := user.password
    host := if hostText.isEmpty then none else some host
    port := port
    path := .segments (pathAfterHost special path)
    query := query }

def isDriveLetter (s : List Char) : Bool :=
  match s with
  | [c, d] => c.isAlpha && (d == ':' || d == '|')
  | _ => false

def readFile (s : List Char) : Except Fault Url := do
  let fileUrl := fun (host : Option Host) (rest : List Char) =>
    let (path, query) := splitQuery true rest
    Url.mk "file" "" none host none (.segments (pathAfterHost true path)) query
  match s with
  | a :: b :: rest =>
    if isSlash true a && isSlash true b then
      let (hostText, rest) := rest.span fun c => !endsAuthority true c
      if hostText.isEmpty then return fileUrl none rest
      else if isDriveLetter hostText then return fileUrl none (hostText ++ rest)
      else
        let host ← Host.ofSpecial hostText
        return fileUrl (if host = .domain "localhost" then none else some host) rest
    else return fileUrl none s
  | _ => return fileUrl none s

def readOther (scheme : String) (s : List Char) : Except Fault Url :=
  match s with
  | '/' :: '/' :: rest => readAuthority scheme rest
  | _ =>
    let (path, query) := splitQuery false s
    let path :=
      match path with
      | '/' :: rest => Path.segments (readSegments false rest)
      | text => Path.bare (String.ofList (escape escapedAlways text))
    .ok ⟨scheme, "", none, none, none, path, query⟩

def parse (text : String) : Except Fault Url :=
  match scheme? (clean text.toList) with
  | none => .error .relative
  | some (scheme, rest) =>
    if isNetworkScheme scheme then readAuthority scheme (rest.dropWhile (isSlash true))
    else if scheme = "file" then readFile rest
    else readOther scheme rest

def canBeBase (u : Url) : Bool :=
  match u.path with
  | .segments _ => true
  | .bare _ => false

/-- One segment more. A path of one empty segment is as good as none, and dots that come to light
when tabs and line ends are left out move in the path. -/
def addSegment (parts : List String) (segment : String) : List String :=
  let text := escape escapedInSegment (segment.toList.filter fun c => !isTabOrNewline c)
  let parts := if parts = [""] then [] else parts
  if text = ['.', '.'] then parts.dropLast ++ [""]
  else if text = ['.'] then parts ++ [""]
  else parts ++ [String.ofList text]

def withoutEmptyLast (parts : List String) : List String :=
  if parts.getLast? = some "" then parts.dropLast else parts

def extend (u : Url) (segments : List String) : Url :=
  match u.path with
  | .bare _ => u
  | .segments parts =>
    let added := segments.filter fun s => s != "." && s != ".."
    { u with path := .segments (added.foldl addSegment (withoutEmptyLast parts)) }

def addQuery (u : Url) (name value : String) : Url :=
  let pair := String.ofList (escapeForm name) ++ "=" ++ String.ofList (escapeForm value)
  match u.query with
  | none => { u with query := some pair }
  | some q => { u with query := some (if q.isEmpty then pair else q ++ "&" ++ pair) }

def target (u : Url) : String :=
  let path :=
    match u.path with
    | .segments parts => "/" ++ "/".intercalate parts
    | .bare text => text
  match u.query with
  | none => path
  | some q => path ++ "?" ++ q

def hexGroup (n : Nat) : String :=
  String.ofList (Nat.toDigits 16 n)

def longestZeroRun (pieces : List Nat) : Option (Nat × Nat) :=
  let runs := (List.range pieces.length).map fun i =>
    (i, ((pieces.drop i).takeWhile (· == 0)).length)
  let best := runs.foldl (fun best run => if best.2 < run.2 then run else best) (0, 1)
  if best.2 < 2 then none else some best

def ipv6Text (pieces : List Nat) : String :=
  match longestZeroRun pieces with
  | none => ":".intercalate (pieces.map hexGroup)
  | some (start, length) =>
    ":".intercalate ((pieces.take start).map hexGroup) ++ "::"
      ++ ":".intercalate ((pieces.drop (start + length)).map hexGroup)

def Host.text : Host → String
  | .domain name => name
  | .ipv4 address =>
    ".".intercalate ([24, 16, 8, 0].map fun shift => toString (address / Nat.pow 2 shift % 256))
  | .ipv6 pieces => "[" ++ ipv6Text pieces ++ "]"

def length (u : Url) : Nat :=
  let host := u.host.elim "" Host.text
  let port := u.port.elim "" fun port => ":" ++ toString port
  u.scheme.utf8ByteSize + 3 + host.utf8ByteSize + port.utf8ByteSize + u.target.utf8ByteSize

end Url

end ProxyPulse
