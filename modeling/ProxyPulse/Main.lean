import ProxyPulse.Cli.Program

namespace ProxyPulse.Cli

def readBytes? (path : String) : IO (Option (List UInt8)) := do
  match ← (IO.FS.readBinFile path).toBaseIO with
  | .ok bytes => return some bytes.toList
  | .error _ => return none

def Surroundings.offline (path : Option String) (bytes : Option (List UInt8)) : Surroundings where
  file name := if path = some name then bytes else none
  travel _ := .broken
  signal _ := some 60000

def Ending.exitCode (ending : Ending) : UInt32 :=
  match ending.code? with
  | some code => code.toUInt32
  | none => 128 + 15

def Ending.line? : Ending → Option String
  | .failure f => some (f.line?.getD "Error")
  | .usage => some "Usage: [--config PATH] [--controller URL] [--secret SECRET] COMMAND"
  | _ => none

end ProxyPulse.Cli

open ProxyPulse.Cli in
def main (args : List String) : IO UInt32 := do
  let path := (ofArgs? args).bind fun (options, _) => options.config
  let bytes ← match path with
    | some path => readBytes? path
    | none => pure none
  let outcome := program (Surroundings.offline path bytes) args
  IO.print outcome.output
  if let some line := outcome.ending.line? then IO.eprintln line
  return outcome.ending.exitCode
