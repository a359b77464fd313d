namespace ProxyPulse.Cli

inductive Command where
  | run
  | test (group : String) (perProxy : Bool)
  | resolve (group : Option String)
  | checkConfig
  deriving DecidableEq, Repr

structure Options where
  config : Option String := none
  controller : Option String := none
  secret : Option String := none
  deriving DecidableEq, Repr

def Options.take (o : Options) (name value : String) : Option Options :=
  match name with
  | "config" =>
    if o.config.isSome || value.isEmpty then none else some { o with config := value }
  | "controller" => if o.controller.isSome then none else some { o with controller := value }
  | "secret" => if o.secret.isSome then none else some { o with secret := value }
  | _ => none

def isOption (arg : String) : Bool :=
  arg.startsWith "-" && arg != "-"

structure Words where
  words : List String := []
  flag : Bool := false
  deriving DecidableEq, Repr

def readWords (flag : Option String) (acc : Words) : List String → Option Words
  | [] => some acc
  | arg :: rest =>
    if arg = "--" then some { acc with words := acc.words ++ rest }
    else if isOption arg then
      if some arg = flag ∧ !acc.flag then readWords flag { acc with flag := true } rest else none
    else readWords flag { acc with words := acc.words ++ [arg] } rest

def readCommand (name : String) (args : List String) : Option Command :=
  match name with
  | "run" =>
    match readWords none {} args with
    | some ⟨[], _⟩ => some .run
    | _ => none
  | "test" =>
    match readWords (some "--per-proxy") {} args with
    | some ⟨[group], perProxy⟩ => some (.test group perProxy)
    | _ => none
  | "resolve" =>
    match readWords none {} args with
    | some ⟨[], _⟩ => some (.resolve none)
    | some ⟨[group], _⟩ => some (.resolve group)
    | _ => none
  | "check-config" =>
    match readWords none {} args with
    | some ⟨[], _⟩ => some .checkConfig
    | _ => none
  | _ => none

def splitOption (arg : String) : String × Option String :=
  let s := arg.toList
  match s with
  | '-' :: '-' :: rest =>
    let (name, value) := rest.span (· != '=')
    (String.ofList name, if value.isEmpty then none else some (String.ofList (value.drop 1)))
  | '-' :: 'c' :: rest =>
    ("config",
      if rest.isEmpty then none
      else some (String.ofList (if rest.head? = some '=' then rest.drop 1 else rest)))
  | _ => ("", none)

def readArgs (o : Options) : List String → Option (Options × Command)
  | [] => none
  | arg :: rest =>
    if isOption arg then
      match splitOption arg with
      | (name, some value) => (o.take name value).bind (readArgs · rest)
      | (name, none) =>
        match rest with
        | [] => none
        | value :: rest =>
          if isOption value then none else (o.take name value).bind (readArgs · rest)
    else (readCommand arg rest).map (o, ·)

def ofArgs? (args : List String) : Option (Options × Command) :=
  readArgs {} args

end ProxyPulse.Cli
