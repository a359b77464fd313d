import ProxyPulse.Config
import ProxyPulse.Controller.Exchange
import ProxyPulse.Controller.Table

namespace ProxyPulse

structure Controller where
  base : Url
  secret : Option String
  requestTimeout : Nat
  probeUrl : String
  probeTimeout : Nat
  deriving DecidableEq, Repr

namespace Controller

def ofSettings (s : Config.Runtime) : Except CallError Controller :=
  match Url.parse s.controllerUrl with
  | .error fault => .error (.url fault)
  | .ok base =>
    if base.canBeBase then
      .ok ⟨base, s.secret.filter (!·.isEmpty), s.requestTimeout, s.probeUrl, s.probeTimeout⟩
    else
      .error (.unavailable ("controller URL '" ++ s.controllerUrl ++ "' cannot be a base"))

def request (c : Controller) (method : HttpMethod) (url : Url) (body : Option Json) : HttpRequest :=
  ⟨method, url, (Credentials.ofUrl? c.base).toList ++ (c.secret.map Credentials.ofSecret).toList,
    body⟩

def endpoint (c : Controller) (segments : List String) : Url :=
  c.base.extend segments

def delayEndpoint (c : Controller) (segments : List String) : Url :=
  ((c.endpoint segments).addQuery "url" c.probeUrl).addQuery "timeout" (toString c.probeTimeout)

def requestFor (c : Controller) : Operation → Option HttpRequest
  | .names _ => some (c.request .get (c.endpoint ["proxies"]) none)
  | .report _ _ => some (c.request .get (c.endpoint ["proxies"]) none)
  | .trigger group => some (c.request .get (c.delayEndpoint ["group", group, "delay"]) none)
  | .choose group proxy =>
    some (c.request .put (c.endpoint ["proxies", group]) (Json.record [("name", .str proxy)]))
  | .probe proxy => some (c.request .get (c.delayEndpoint ["proxies", proxy, "delay"]) none)
  | .mode => some (c.request .get (c.endpoint ["configs"]) none)
  | .setMode none => none
  | .setMode (some mode) =>
    some (c.request .patch (c.endpoint ["configs"]) (Json.record [("mode", .str mode.tag)]))

def sent? (c : Controller) (operation : Operation) : Option HttpRequest :=
  (c.requestFor operation).filter HttpRequest.isSendable

def patience (c : Controller) : Operation → Nat
  | .trigger _ => min (2 * c.probeTimeout) (Nat.pow 2 64 - 1)
  | .probe _ => min (2 * c.probeTimeout) (Nat.pow 2 64 - 1)
  | _ => c.requestTimeout

def readReply : HttpReply → Answer (Nat × List UInt8)
  | .answer status body => .ok (status, if hasNoBody status then [] else body)
  | .silence => .error (.transport .timeout)
  | .broken => .error (.transport .io)

def exchange (travel : HttpRequest → HttpReply) (r : HttpRequest) : Answer (Nat × List UInt8) :=
  if r.isSendable then readReply (travel r) else .error (.transport .builder)

def decode (read : Json → Option α) (body : List UInt8) : Answer α :=
  match (Json.ofBytes? body).bind read with
  | some a => .ok a
  | none => .error (.transport .decode)

def succeed (operation : String) : Nat × List UInt8 → Answer (List UInt8)
  | (status, body) => if isSuccess status then .ok body else .error (.status operation status)

variable (c : Controller) (travel : HttpRequest → HttpReply)

def ask (operation : Operation) : Answer (Nat × List UInt8) :=
  match c.requestFor operation with
  | none => .ok (204, [])
  | some r => exchange travel r

def table (operation : Operation) : Answer ProxyTable := do
  decode ProxyTable.ofJson? (← succeed "query_proxies" (← c.ask travel operation))

def names (selectableOnly : Bool) : Answer (List String) := do
  return (← c.table travel (.names selectableOnly)).groupNames selectableOnly

def report (group : String) (sort : SortMode) : Answer GroupReport := do
  match (← c.table travel (.report group sort)).group? group sort with
  | some r => return r
  | none => throw (.unknownGroup group)

def trigger (group : String) : Answer Unit := do
  let (status, body) ← c.ask travel (.trigger group)
  if status = 404 then throw (.unknownGroup group)
  else discard (succeed "trigger_health_check" (status, body))

def choose (group proxy : String) : Answer Bool := do
  let (status, _) ← c.ask travel (.choose group proxy)
  if isSuccess status then return true
  else if status = 400 then return false
  else if status = 404 then throw (.unknownGroup group)
  else throw (.status "patch_selection" status)

def probe (proxy : String) : Answer Int := do
  decode Body.delay? (← succeed "probe_proxy" (← c.ask travel (.probe proxy)))

def mode : Answer (Option TunnelMode) := do
  decode Body.currentMode? (← succeed "query_mode" (← c.ask travel .mode))

def setMode (mode : Option TunnelMode) : Answer Unit := do
  discard (succeed "patch_mode" (← c.ask travel (.setMode mode)))

end Controller

end ProxyPulse
