import ProxyPulse.Group
import ProxyPulse.Url

/-!
The proxy core: the program that carries the traffic and does the measuring. The engine only calls
it, and every call can fail.
-/

namespace ProxyPulse

inductive TunnelMode where
  | direct
  | global
  | rule
  deriving DecidableEq, Repr

namespace TunnelMode

def tag : TunnelMode → String
  | .direct => "direct"
  | .global => "global"
  | .rule => "rule"

def ofTag? : String → Option TunnelMode
  | "direct" => some .direct
  | "global" => some .global
  | "rule" => some .rule
  | _ => none

end TunnelMode

inductive TransportFault where
  | timeout
  | decode
  | builder
  | io
  deriving DecidableEq, Repr

inductive CallError where
  | transport (fault : TransportFault)
  | status (operation : String) (code : Nat)
  | unknownGroup (name : String)
  | timeout (limit : Nat)
  | url (fault : Url.Fault)
  | unsupported (operation : String)
  | unavailable (text : String)
  deriving DecidableEq, Repr

namespace CallError

def message? : CallError → Option String
  | .transport _ => none
  | .status operation code =>
    some ("controller returned " ++ toString code ++ " for " ++ operation)
  | .unknownGroup name => some ("unknown group '" ++ name ++ "'")
  | .timeout limit => some ("runtime call timed out after " ++ toString limit ++ " ms")
  | .url fault => some ("invalid controller URL: " ++ fault.message)
  | .unsupported operation => some (operation ++ " is not supported by this runtime")
  | .unavailable text => some ("runtime unavailable: " ++ text)

end CallError

inductive Operation where
  | names (selectableOnly : Bool)
  | report (group : String) (sort : SortMode)
  | trigger (group : String)
  | choose (group proxy : String)
  | probe (proxy : String)
  | mode
  | setMode (mode : Option TunnelMode)
  deriving DecidableEq, Repr

abbrev Answer (α : Type) := Except CallError α

/-- A core with states of type `σ`. `start` takes note of a call at a time and says after how many
milliseconds it will be answered, if ever. The other functions answer; an answer that is `none`
never comes. `draw` is a source of jitter. -/
structure Core (σ : Type) where
  start : Nat → Operation → σ → σ × Option Nat
  names : Bool → σ → σ × Option (Answer (List String))
  report : String → SortMode → σ → σ × Option (Answer GroupReport)
  trigger : String → σ → σ × Option (Answer Unit)
  choose : String → String → σ → σ × Option (Answer Bool)
  probe : String → σ → σ × Option (Answer Int)
  mode : σ → σ × Option (Answer (Option TunnelMode))
  setMode : Option TunnelMode → σ → σ × Option (Answer Unit)
  draw : σ → σ × Nat

end ProxyPulse
