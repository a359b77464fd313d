import ProxyPulse.Config.Toml

namespace ProxyPulse

inductive ConfigError where
  | io (text : String)
  | parse
  | validation (faults : List ConfigFault)
  deriving DecidableEq, Repr

namespace ConfigError

def noSuchFile : ConfigError :=
  .io "No such file or directory (os error 2)"

def notUtf8 : ConfigError :=
  .io "stream did not contain valid UTF-8"

def message? : ConfigError → Option String
  | .io text => some ("IO error: " ++ text)
  | .parse => none
  | .validation faults =>
    some ("Validation failed: " ++ ", ".intercalate (faults.map ConfigFault.message))

end ConfigError

namespace Config

def load (text : String) : Except ConfigError Config :=
  match ofToml? text with
  | none => .error .parse
  | some c => if c.faults.isEmpty then .ok c else .error (.validation c.faults)

def loadBytes (bytes : List UInt8) : Except ConfigError Config :=
  match String.fromUTF8? ⟨bytes.toArray⟩ with
  | none => .error .notUtf8
  | some text => load text

inductive Reload where
  | unchanged
  | forwarded (config : Config)
  | rejected (error : ConfigError)
  deriving DecidableEq, Repr

def reload (last : Config) (content : Except ConfigError Config) : Reload :=
  match content with
  | .error e => .rejected e
  | .ok next => if next = last then .unchanged else .forwarded next

def Reload.last (before : Config) : Reload → Config
  | .forwarded next => next
  | _ => before

end Config

end ProxyPulse
