import ProxyPulse.Cli.Options
import ProxyPulse.Config.Load
import ProxyPulse.Controller.Remote
import ProxyPulse.Engine.Run
import ProxyPulse.Text.Quoted

namespace ProxyPulse.Cli

inductive Failure where
  | needsConfig
  | config (error : ConfigError)
  | notWritable
  | controller (error : CallError)
  | unknownGroup (name : String)
  | notTested (reason : TestRequest)
  | vanished (group : String)
  | noEndpoint

def requestText : TestRequest → String
  | .started session => "Started \x7b session: " ++ toString session ++ " \x7d"
  | .coalesced session => "Coalesced \x7b session: " ++ toString session ++ " \x7d"
  | .skipped => "Skipped"
  | .unknownGroup => "Rejected(UnknownGroup)"
  | .emptyGroup => "Rejected(EmptyGroup)"

def Failure.text? : Failure → Option String
  | .needsConfig => some "check-config needs --config <PATH>"
  | .unknownGroup name => some ("unknown group '" ++ name ++ "'")
  | .notTested reason => some ("test not started: " ++ requestText reason)
  | .vanished group => some ("group '" ++ group ++ "' vanished during the test")
  | .noEndpoint => some "no endpoint could be resolved"
  | _ => none

def Failure.line? (f : Failure) : Option String :=
  f.text?.map fun text => "Error: " ++ Text.quoted text

inductive Ending where
  | success
  | failure (failure : Failure)
  | usage
  | brokenOff
  | killed

structure Outcome where
  output : String := ""
  ending : Ending := .success
  traffic : Controller.Traffic := []

structure Surroundings where
  file : String → Option (List UInt8)
  travel : HttpRequest → HttpReply
  signal : Controller.Traffic → Option Nat

def fail (failure : Failure) (output : String) (traffic : Controller.Traffic) : Outcome :=
  ⟨output, .failure failure, traffic⟩

def loadFile (s : Surroundings) (path : String) : Except ConfigError Config :=
  match s.file path with
  | none => .error .noSuchFile
  | some bytes => Config.loadBytes bytes

def checkConfig (s : Surroundings) (path : Option String) : Outcome :=
  match path with
  | none => fail .needsConfig "" []
  | some path =>
    match loadFile s path with
    | .error error => fail (.config error) "" []
    | .ok config =>
      let line := path ++ " is valid\n"
      match config.toToml? with
      | none => fail .notWritable line []
      | some text => { output := line ++ text ++ "\n" }

def linkJson (l : Link) : Json :=
  Json.record [("name", .str l.name), ("delay", .int l.delay)]

def linksJson (links : LinkTable) : Json :=
  Json.record (links.toList.map fun (name, l) => (name, linkJson l))

def endpointJson (e : Endpoint) : Json :=
  Json.record [("name", .str e.name), ("subtitle", .str e.subtitle), ("delay", .int e.delay)]

def present (v : Json) (traffic : Controller.Traffic) : Outcome :=
  { output := Json.render Json.indented v ++ "\n", traffic }

section

variable (C : Core Controller.Traffic) (e : Engine Controller.Traffic)

def test (group : String) : Outcome :=
  let (e, _) := e.await C .prefetch
  match e.registry.indexOf? group with
  | none => fail (.unknownGroup group) "" e.core
  | some index =>
    let (e, request) := e.requestTest index
    match request with
    | .started _ => watch e index
    | .coalesced _ => watch e index
    | reason => fail (.notTested reason) "" e.core
where
  watch (e : Engine Controller.Traffic) (index : Nat) : Outcome :=
    let e := e.runWhile C (·.isTesting index) Engine.amplePatience
    match e.board.records[index]? with
    | none => fail (.vanished group) "" e.core
    | some r => present (linksJson r.links) e.core

def resolve (group : Option String) : Outcome :=
  let (e, result) :=
    match group with
    | some group => e.await C (.resolve group)
    | none => (e.await C .prefetch).1.await C .current
  match result with
  | some (.endpoint (some endpoint)) => present (endpointJson endpoint) e.core
  | _ => fail .noEndpoint "" e.core

def serve (signal : Controller.Traffic → Option Nat) (takesUpdates : Bool) : Outcome :=
  let (e, _) := e.await C .prefetch
  if (signal e.core).any (· < e.now) then { ending := .killed, traffic := e.core }
  else
    let (e, handle) := e.startCoordinator takesUpdates
    let (e, _) := e.send handle .reloadAll
    let e := e.runWhile C (fun e => (signal e.core).isNone) Engine.amplePatience
    let e := e.runUntil C ((signal e.core).getD e.now) Engine.amplePatience
    { traffic := (e.shutdown.settle C Engine.amplePatience).core }

end

def Options.overrides (o : Options) : Overrides :=
  { controllerUrl := o.controller, secret := o.secret }

def Options.settings (o : Options) (s : Surroundings) : Except ConfigError Config :=
  match o.config with
  | none => .ok {}
  | some path => loadFile s path

def Command.adjust (command : Command) (config : Config) : Config :=
  match command with
  | .test _ true => { config with scheduler := { config.scheduler with strategy := .perProxy } }
  | _ => config

def work (s : Surroundings) (o : Options) (command : Command) : Outcome :=
  match o.settings s with
  | .error error => fail (.config error) "" []
  | .ok config =>
    let config := command.adjust (o.overrides.apply config)
    match Controller.ofSettings config.runtime with
    | .error error => fail (.controller error) "" []
    | .ok controller =>
      let core := controller.core s.travel
      match Engine.build? [] config o.overrides with
      | none => { ending := .brokenOff }
      | some e =>
        match command with
        | .run => serve core e s.signal o.config.isSome
        | .test group _ => test core e group
        | .resolve group => resolve core e group
        | .checkConfig => {}

def program (s : Surroundings) (args : List String) : Outcome :=
  match ofArgs? args with
  | none => { ending := .usage }
  | some (o, .checkConfig) => checkConfig s o.config
  | some (o, command) => work s o command

def Ending.code? : Ending → Option Nat
  | .success => some 0
  | .failure _ => some 1
  | .usage => some 2
  | .brokenOff => some 101
  | .killed => none

end ProxyPulse.Cli
