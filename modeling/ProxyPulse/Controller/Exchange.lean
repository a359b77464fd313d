import ProxyPulse.Core
import ProxyPulse.Json.Writer

namespace ProxyPulse

inductive HttpMethod where
  | get
  | put
  | patch
  deriving DecidableEq, Repr

def HttpMethod.name : HttpMethod → String
  | .get => "GET"
  | .put => "PUT"
  | .patch => "PATCH"

structure HttpRequest where
  method : HttpMethod
  url : Url
  authorization : List String
  body : Option Json

inductive HttpReply where
  | answer (status : Nat) (body : List UInt8)
  | silence
  | broken
  deriving DecidableEq, Repr

def base64Digits : List Char :=
  "ABCDEFGHIJKLMNOPQRSTUVWXYZabcdefghijklmnopqrstuvwxyz0123456789+/".toList

def base64Digit (n : Nat) : Char :=
  base64Digits.getD (n % 64) '='

def base64 : List UInt8 → List Char
  | a :: b :: c :: rest =>
    let n := (a.toNat * 256 + b.toNat) * 256 + c.toNat
    base64Digit (n / Nat.pow 2 18) :: base64Digit (n / Nat.pow 2 12)
      :: base64Digit (n / Nat.pow 2 6) :: base64Digit n :: base64 rest
  | [a, b] =>
    let n := (a.toNat * 256 + b.toNat) * 256
    [base64Digit (n / Nat.pow 2 18), base64Digit (n / Nat.pow 2 12),
      base64Digit (n / Nat.pow 2 6), '=']
  | [a] =>
    let n := a.toNat * Nat.pow 2 16
    [base64Digit (n / Nat.pow 2 18), base64Digit (n / Nat.pow 2 12), '=', '=']
  | [] => []

namespace Credentials

def ofUrl? (u : Url) : Option String := do
  let user ← Url.decodeUtf8? (Url.unescape u.username.toList)
  let password := u.password.bind fun p => Url.decodeUtf8? (Url.unescape p.toList)
  if user.isEmpty && password.isNone then none
  else
    let pair := user ++ ":" ++ password.getD ""
    return "Basic " ++ String.ofList (base64 pair.toUTF8.toList)

def ofSecret (secret : String) : String :=
  "Bearer " ++ secret

def isSendable (value : String) : Bool :=
  value.toList.all fun c => c == '\t' || (0x20 ≤ c.toNat && c.toNat != 0x7F)

def received (value : String) : String :=
  String.ofList ((value.toList.reverse.dropWhile fun c => c == ' ' || c == '\t').reverse)

end Credentials

namespace HttpRequest

def maxLength : Nat := 65534

def isSendable (r : HttpRequest) : Bool :=
  (r.url.scheme == "http" || r.url.scheme == "https")
    && decide (r.url.length ≤ maxLength)
    && r.authorization.all Credentials.isSendable

def text? (r : HttpRequest) : Option String :=
  r.body.map (Json.render Json.compact)

end HttpRequest

def isSuccess (status : Nat) : Bool :=
  200 ≤ status && status < 300

def hasNoBody (status : Nat) : Bool :=
  status == 204 || status == 304

end ProxyPulse
