import ProxyPulse.Controller.Body

namespace ProxyPulse

structure TableEntry where
  typeName : String
  now : Option String
  members : List String
  delay : Int
  deriving DecidableEq, Repr

abbrev ProxyTable := Std.ExtTreeMap String TableEntry

namespace TableEntry

def kind? (e : TableEntry) : Option GroupKind :=
  GroupKind.ofTypeName? e.typeName

def pastDelay? (v : Json) : Option Int := do
  match ← Body.fields? ["delay"] v with
  | [delay] => Body.orDefault Body.int32? 0 delay
  | _ => none

def ofJson? (v : Json) : Option TableEntry := do
  match ← Body.fields? ["type", "now", "all", "history"] v with
  | [typeName, now, members, history] =>
    let history ← Body.orDefault (Body.list? pastDelay?) [] history
    return {
      typeName := ← typeName.bind Json.text?
      now := ← Body.orDefault (Body.optional? Json.text?) none now
      members := ← Body.orDefault (Body.list? Json.text?) [] members
      delay := history.getLast?.getD 0 }
  | _ => none

end TableEntry

namespace ProxyTable

def globalName : String := "GLOBAL"

def ofJson? (v : Json) : Option ProxyTable := do
  match ← Body.fields? ["proxies"] v with
  | [proxies] => proxies.bind (Body.table? TableEntry.ofJson?)
  | _ => none

def shows (table : ProxyTable) (selectableOnly : Bool) (name : String) : Bool :=
  name != globalName
    && (table[name]?.bind TableEntry.kind?).any fun k => !selectableOnly || k.isSelectable

def groupNames (table : ProxyTable) (selectableOnly : Bool) : List String :=
  let listed := (table[globalName]?.elim [] TableEntry.members).filter (table.shows selectableOnly)
  listed ++ table.keys.filter fun name =>
    table.shows selectableOnly name && !listed.contains name

def member (table : ProxyTable) (name : String) : Proxy :=
  match table[name]? with
  | none => ⟨name, .terminal, "", 0⟩
  | some e => ⟨name, if e.kind?.isSome then .group else .terminal, e.typeName, e.delay⟩

def group? (table : ProxyTable) (name : String) (sort : SortMode) : Option GroupReport := do
  let e ← table[name]?
  let kind ← e.kind?
  return ⟨name, kind, e.now.getD "", sortProxies sort (e.members.map table.member)⟩

end ProxyTable

end ProxyPulse
