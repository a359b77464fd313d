import ProxyPulse.Toml.Scalar
import ProxyPulse.Toml.Tree

namespace ProxyPulse.Toml

def depthLimit : Nat := 80

def skipComment : List Char → List Char
  | '#' :: rest => rest.dropWhile isTextChar
  | s => s

def endOfLine? (s : List Char) : Option (List Char) :=
  match skipComment (s.dropWhile isBlank) with
  | [] => some []
  | s => newline? s

def isBareKeyChar (c : Char) : Bool :=
  c.isAlphanum || c == '_' || c == '-'

def name? (s : List Char) : Option (String × List Char) :=
  match s with
  | '"' :: _ => singleLine? s
  | '\'' :: _ => singleLine? s
  | _ =>
    match s.span isBareKeyChar with
    | ([], _) => none
    | (name, rest) => some (String.ofList name, rest)

def names? : Nat → List Char → Option (List String × List Char)
  | 0, _ => none
  | fuel + 1, s => do
    let (name, s) ← name? (s.dropWhile isBlank)
    match s.dropWhile isBlank with
    | '.' :: s => (names? fuel s).map fun (names, s) => (name :: names, s)
    | s => some ([name], s)

def key? (s : List Char) : Option (List String × List Char) :=
  names? (depthLimit - 1) s

def skipGaps : Nat → List Char → List Char
  | 0, s => s
  | fuel + 1, s =>
    let t := s.dropWhile isBlank
    match newline? (skipComment t) with
    | some rest => skipGaps fuel rest
    | none => t

mutual

def value? : Nat → Nat → List Char → Option (Document × List Char)
  | 0, _, _ => none
  | fuel + 1, depth, s =>
    match s with
    | '"' :: _ => (string? s).map fun (t, s) => (.text t, s)
    | '\'' :: _ => (string? s).map fun (t, s) => (.text t, s)
    | '[' :: s =>
      if depth + 1 < depthLimit then
        match skipGaps s.length s with
        | ']' :: s => some (.list [], s)
        | s => elements? fuel (depth + 1) [] s
      else none
    | '\x7b' :: s =>
      if depth + 1 < depthLimit then
        match s.dropWhile isBlank with
        | '\x7d' :: s => some (.table [], s)
        | s => (members? fuel (depth + 1) [] s).map fun (entries, s) =>
          (.table (Node.entriesToDocument entries), s)
      else none
    | s => scalar? s

def elements? : Nat → Nat → List Document → List Char → Option (Document × List Char)
  | 0, _, _, _ => none
  | fuel + 1, depth, acc, s =>
    match value? fuel depth s with
    | none => none
    | some (v, s) =>
      match skipGaps s.length s with
      | ']' :: s => some (.list (v :: acc).reverse, s)
      | ',' :: s =>
        match skipGaps s.length s with
        | ']' :: s => some (.list (v :: acc).reverse, s)
        | s => elements? fuel depth (v :: acc) s
      | _ => none

def members? : Nat → Nat → Entries → List Char → Option (Entries × List Char)
  | 0, _, _, _ => none
  | fuel + 1, depth, acc, s =>
    match key? s with
    | some (path, '=' :: s) =>
      match value? fuel depth (s.dropWhile isBlank) with
      | none => none
      | some (v, s) =>
        let (parent, key) := Draft.splitLast path
        match acc.insert parent key v with
        | none => none
        | some acc =>
          match s.dropWhile isBlank with
          | '\x7d' :: s => some (acc, s)
          | ',' :: s => members? fuel depth acc s
          | _ => none
    | _ => none

end

def keyLine? (d : Draft) (s : List Char) : Option (Draft × List Char) := do
  let (path, s) ← key? s
  match s with
  | '=' :: s =>
    let (v, s) ← value? (2 * s.length + 2) 0 (s.dropWhile isBlank)
    let s ← endOfLine? s
    return (← d.insert path v, s)
  | _ => none

def header? (d : Draft) (s : List Char) : Option (Draft × List Char) :=
  match s with
  | '[' :: s => do
    let (path, s) ← key? s
    match s with
    | ']' :: ']' :: s => return (← d.openSeries path, ← endOfLine? s)
    | _ => none
  | s => do
    let (path, s) ← key? s
    match s with
    | ']' :: s => return (← d.openTable path, ← endOfLine? s)
    | _ => none

def lines? : Nat → Draft → List Char → Option Draft
  | 0, _, _ => none
  | fuel + 1, d, s =>
    match s.dropWhile isBlank with
    | [] => some d
    | '#' :: rest => (endOfLine? ('#' :: rest)).bind (lines? fuel d)
    | '[' :: s => (header? d s).bind fun (d, s) => lines? fuel d s
    | s =>
      match newline? s with
      | some s => lines? fuel d s
      | none => (keyLine? d s).bind fun (d, s) => lines? fuel d s

def parse? (text : String) : Option Document :=
  let s :=
    match text.toList with
    | '\uFEFF' :: rest => rest
    | s => s
  (lines? (s.length + 1) {} s).bind Draft.finish

end ProxyPulse.Toml
