import ProxyPulse.Document
import ProxyPulse.Group

namespace ProxyPulse

open Document

def Proxy.Kind.tag : Proxy.Kind → String
  | .terminal => "terminal"
  | .group => "group"

def Proxy.Kind.ofTag? : String → Option Proxy.Kind
  | "terminal" => some .terminal
  | "group" => some .group
  | _ => none

def GroupKind.tag : GroupKind → String
  | .selector => "selector"
  | .urlTest => "url_test"
  | .fallback => "fallback"
  | .loadBalance => "load_balance"
  | .relay => "relay"

def GroupKind.ofTag? : String → Option GroupKind
  | "selector" => some .selector
  | "url_test" => some .urlTest
  | "fallback" => some .fallback
  | "load_balance" => some .loadBalance
  | "relay" => some .relay
  | _ => none

def Proxy.decode (d : Document) : Option Proxy := do
  match ← fields? .json ["name", "kind", "subtitle", "delay"] d with
  | [name, kind, subtitle, delay] =>
    return {
      name := ← required string? name
      kind := ← required (fun d => (variant? .json d).bind Proxy.Kind.ofTag?) kind
      subtitle := ← required string? subtitle
      delay := ← required int32? delay }
  | _ => none

def GroupReport.decode (d : Document) : Option GroupReport := do
  match ← fields? .json ["name", "kind", "now", "proxies"] d with
  | [name, kind, now, members] =>
    return {
      name := ← required string? name
      kind := ← required (fun d => (variant? .json d).bind GroupKind.ofTag?) kind
      now := ← required string? now
      members := ← required (list? Proxy.decode) members }
  | _ => none

end ProxyPulse
