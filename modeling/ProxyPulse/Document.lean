import ProxyPulse.Json

namespace ProxyPulse

inductive Document where
  | null
  | bool (value : Bool)
  -- An integer of 64 bits.
  | integer (value : Int)
  | real
  | text (value : String)
  | moment
  | list (elements : List Document)
  | table (entries : List (String × Document))
  deriving Repr

namespace Document

mutual

def ofJson? : Json → Option Document
  | .null => some .null
  | .bool b => some (.bool b)
  | .number (.int n) => some (.integer n)
  | .number (.real _) => some .real
  | .text s => s.map .text
  | .list xs => (ofJsonList? xs).map .list
  | .object ms => (ofJsonMembers? ms).map .table

def ofJsonList? : List Json → Option (List Document)
  | [] => some []
  | x :: xs => do return (← ofJson? x) :: (← ofJsonList? xs)

def ofJsonMembers? : List (Option String × Json) → Option (List (String × Document))
  | [] => some []
  | (k, v) :: ms => do return (← k, ← ofJson? v) :: (← ofJsonMembers? ms)

end

structure Dialect where
  isNothing : Document → Bool
  allowsSurplus : Bool

def Dialect.json : Dialect :=
  ⟨fun d => match d with | .null => true | _ => false, false⟩

def Dialect.toml : Dialect :=
  ⟨fun d => match d with | .table [] => true | .list [] => true | _ => false, true⟩

/-- The fields of a record: an entry for each name that is given, the last of a name that is given
twice. A moment is a record that gives none of them. -/
def fields? (dialect : Dialect) (names : List String) : Document → Option (List (Option Document))
  | .table entries =>
    some (names.map fun n => (entries.reverse.find? (·.1 == n)).map (·.2))
  | .list values =>
    if values.length ≤ names.length || dialect.allowsSurplus then
      some ((List.range names.length).map (values[·]?))
    else none
  | .moment => some (names.map fun _ => none)
  | _ => none

def variant? (dialect : Dialect) : Document → Option String
  | .text s => some s
  | .table [(name, value)] => if dialect.isNothing value then some name else none
  | _ => none

def string? : Document → Option String
  | .text s => some s
  | _ => none

def optional? (read : Document → Option α) : Document → Option (Option α)
  | .null => some none
  | d => (read d).map some

def bool? : Document → Option Bool
  | .bool b => some b
  | _ => none

def word? (bits : Nat) : Document → Option Nat
  | .integer n => n.toNat?.bind fun n => if n < Nat.pow 2 bits then some n else none
  | _ => none

def int32? : Document → Option Int
  | .integer n => if -2147483648 ≤ n ∧ n < 2147483648 then some n else none
  | _ => none

def list? (read : Document → Option α) : Document → Option (List α)
  | .list xs => xs.mapM read
  | _ => none

def orDefault (read : Document → Option α) (default : α) : Option Document → Option α
  | none => some default
  | some d => read d

def required (read : Document → Option α) (field : Option Document) : Option α :=
  field.bind read

end Document

end ProxyPulse
