namespace ProxyPulse

inductive Json.Number where
  | int (value : Int)
  | real (spelling : String)
  deriving DecidableEq, Repr

/-- A text is `none` where its spelling stands for no string of characters, as a lone half of a
surrogate pair does. -/
inductive Json where
  | null
  | bool (value : Bool)
  | number (value : Json.Number)
  | text (value : Option String)
  | list (elements : List Json)
  | object (members : List (Option String × Json))
  deriving Repr

namespace Json

def str (s : String) : Json :=
  .text (some s)

def int (n : Int) : Json :=
  .number (.int n)

def nat (n : Nat) : Json :=
  .number (.int n)

def record (members : List (String × Json)) : Json :=
  .object (members.map fun m => (some m.1, m.2))

def get? (key : String) : Json → Option Json
  | .object members => (members.reverse.find? (·.1 == some key)).map (·.2)
  | _ => none

def text? : Json → Option String
  | .text s => s
  | _ => none

def int? : Json → Option Int
  | .number (.int n) => some n
  | _ => none

def nat? : Json → Option Nat
  | .number (.int n) => n.toNat?
  | _ => none

def bool? : Json → Option Bool
  | .bool b => some b
  | _ => none

def list? : Json → Option (List Json)
  | .list xs => some xs
  | _ => none

def isNull : Json → Bool
  | .null => true
  | _ => false

end Json

end ProxyPulse
