import ProxyPulse.Toml.Reader

namespace ProxyPulse

inductive Document.Signed : Document → Prop
  | null : Signed .null
  | bool (value : Bool) : Signed (.bool value)
  | integer {value : Int} : value < Nat.pow 2 63 → Signed (.integer value)
  | real : Signed .real
  | text (value : String) : Signed (.text value)
  | moment : Signed .moment
  | list {elements : List Document} : (∀ d ∈ elements, Signed d) → Signed (.list elements)
  | table {entries : List (String × Document)} : (∀ e ∈ entries, Signed e.2) →
    Signed (.table entries)

namespace Toml

inductive Node.Signed : Node → Prop
  | value {d : Document} : d.Signed → Signed (.value d)
  | table {implied dotted : Bool} {entries : List (String × Node)} :
    (∀ e ∈ entries, Signed e.2) → Signed (.table implied dotted entries)
  | series {tables : List (List (String × Node))} :
    (∀ entries ∈ tables, ∀ e ∈ entries, Signed e.2) → Signed (.series tables)

def Entries.Signed (entries : Entries) : Prop :=
  ∀ e ∈ entries, e.2.Signed

theorem signed64?_signed {negative : Bool} {n : Nat} :
    ∀ d ∈ signed64? negative n, d.Signed := by
  have hp : 0 < Nat.pow 2 63 := by decide
  intro d hd
  unfold signed64? at hd
  split at hd
  · split at hd
    · obtain rfl := Option.some.inj hd
      apply Document.Signed.integer
      omega
    · cases hd
  · split at hd
    · obtain rfl := Option.some.inj hd
      apply Document.Signed.integer
      omega
    · cases hd

theorem based?_signed {base : Nat} {isDigit : Char → Bool} {s : List Char} :
    ∀ x ∈ based? base isDigit s, x.1.Signed := by
  intro x hx
  obtain ⟨⟨digits, rest⟩, _, hx⟩ := Option.bind_eq_some_iff.mp hx
  obtain ⟨d, hd, hx⟩ := Option.bind_eq_some_iff.mp hx
  obtain rfl := Option.some.inj hx
  exact signed64?_signed d hd

theorem decimal?_signed {negative : Bool} {s : List Char} :
    ∀ x ∈ decimal? negative s, x.1.Signed := by
  intro x hx
  obtain ⟨⟨whole, s₁⟩, _, hx⟩ := Option.bind_eq_some_iff.mp hx
  obtain ⟨⟨fraction, s₂⟩, _, hx⟩ := Option.bind_eq_some_iff.mp hx
  obtain ⟨⟨exponent, s₃⟩, _, hx⟩ := Option.bind_eq_some_iff.mp hx
  dsimp only at hx
  split at hx
  · obtain ⟨d, hd, hx⟩ := Option.bind_eq_some_iff.mp hx
    obtain rfl := Option.some.inj hx
    exact signed64?_signed d hd
  · split at hx
    · cases hx
    · obtain rfl := Option.some.inj hx
      exact .real

theorem signless?_signed {negative : Bool} {s : List Char} :
    ∀ x ∈ signless? negative s, x.1.Signed := by
  unfold signless?
  split
  · rintro _ ⟨⟩
    exact .real
  · rintro _ ⟨⟩
    exact .real
  · exact decimal?_signed

theorem number?_signed {s : List Char} : ∀ x ∈ number? s, x.1.Signed := by
  unfold number?
  split
  · exact based?_signed
  · exact based?_signed
  · exact based?_signed
  · exact signless?_signed
  · exact signless?_signed
  · exact signless?_signed

theorem scalar?_signed {s : List Char} : ∀ x ∈ scalar? s, x.1.Signed := by
  unfold scalar?
  split
  · rintro _ ⟨⟩
    exact .bool true
  · rintro _ ⟨⟩
    exact .bool false
  · split
    · intro x hx
      obtain ⟨rest, _, rfl⟩ := Option.map_eq_some_iff.mp hx
      exact .moment
    · exact number?_signed

theorem mem_entriesToDocument {entries : Entries} {e : String × Document}
    (h : e ∈ Node.entriesToDocument entries) :
    ∃ node, (e.1, node) ∈ entries ∧ e.2 = node.toDocument := by
  induction entries with
  | nil => cases h
  | cons first rest ih =>
    obtain ⟨key, node⟩ := first
    rw [Node.entriesToDocument] at h
    rcases List.mem_cons.mp h with rfl | h
    · exact ⟨node, List.mem_cons_self, rfl⟩
    · obtain ⟨n, hn, he⟩ := ih h
      exact ⟨n, List.mem_cons_of_mem _ hn, he⟩

theorem mem_seriesToDocument {tables : List Entries} {d : Document}
    (h : d ∈ Node.seriesToDocument tables) :
    ∃ entries ∈ tables, d = .table (Node.entriesToDocument entries) := by
  induction tables with
  | nil => cases h
  | cons first rest ih =>
    rw [Node.seriesToDocument] at h
    rcases List.mem_cons.mp h with rfl | h
    · exact ⟨first, List.mem_cons_self, rfl⟩
    · obtain ⟨entries, hm, rfl⟩ := ih h
      exact ⟨entries, List.mem_cons_of_mem _ hm, rfl⟩

theorem Node.Signed.toDocument {n : Node} (h : n.Signed) : n.toDocument.Signed := by
  induction h with
  | value hd =>
    rw [Node.toDocument]
    exact hd
  | table h ih =>
    rw [Node.toDocument]
    apply Document.Signed.table
    intro e he
    obtain ⟨node, hm, heq⟩ := mem_entriesToDocument he
    rw [heq]
    exact ih _ hm
  | series h ih =>
    rw [Node.toDocument]
    apply Document.Signed.list
    intro d hd
    obtain ⟨entries, hm, rfl⟩ := mem_seriesToDocument hd
    apply Document.Signed.table
    intro e he
    obtain ⟨node, hn, heq⟩ := mem_entriesToDocument he
    rw [heq]
    exact ih _ hm _ hn

namespace Entries

variable {entries : Entries}

theorem Signed.toDocument (h : entries.Signed) :
    (Document.table (Node.entriesToDocument entries)).Signed := by
  have hn : (Node.table false false entries).Signed := .table h
  have hd := hn.toDocument
  rwa [Node.toDocument] at hd

theorem signed_nil : Signed [] :=
  nofun

theorem signed_getD {o : Option Entries} (h : ∀ inner ∈ o, Entries.Signed inner) :
    Entries.Signed (o.getD []) := by
  cases o with
  | none => exact signed_nil
  | some inner => exact h inner rfl

theorem Signed.get? (h : entries.Signed) {key : String} {node : Node}
    (hg : entries.get? key = some node) : node.Signed := by
  induction entries with
  | nil => cases hg
  | cons first rest ih =>
    rw [Entries.get?, List.lookup_cons] at hg
    split at hg
    · obtain rfl := Option.some.inj hg
      exact h _ List.mem_cons_self
    · exact ih (fun e he => h e (List.mem_cons_of_mem _ he)) hg

theorem Signed.set (h : entries.Signed) {key : String} {node : Node} (hn : node.Signed) :
    (entries.set key node).Signed := by
  intro e he
  obtain ⟨e', he', rfl⟩ := List.mem_map.mp he
  split
  · exact hn
  · exact h e' he'

theorem Signed.add (h : entries.Signed) {key : String} {node : Node} (hn : node.Signed) :
    Signed (entries ++ [(key, node)]) := by
  intro e he
  rcases List.mem_append.mp he with he | he
  · exact h e he
  · obtain rfl := List.mem_singleton.mp he
    exact hn

theorem Signed.remove (h : entries.Signed) (key : String) : (entries.remove key).Signed :=
  fun e he => h e (List.mem_filter.mp he).1

theorem Signed.update {dottedPath : Bool} {change : Bool → Entries → Option Entries}
    (hc : ∀ dotted inner, Signed inner → ∀ inner' ∈ change dotted inner, Signed inner')
    {path : List String} {dotted : Bool} (h : entries.Signed) :
    ∀ entries' ∈ entries.update dottedPath change path dotted, Signed entries' := by
  induction path generalizing entries dotted with
  | nil =>
    rw [Entries.update]
    exact hc dotted entries h
  | cons key path ih =>
    intro entries' he
    rw [Entries.update] at he
    split at he
    · obtain ⟨inner, hi, rfl⟩ := Option.map_eq_some_iff.mp he
      exact h.add (.table (ih signed_nil inner hi))
    · cases he
    · next tables hg =>
      cases h.get? hg with
      | series ht =>
        split at he
        · cases he
        · next last hl =>
          obtain ⟨inner, hi, rfl⟩ := Option.map_eq_some_iff.mp he
          have hlast : Signed last := ht last (List.mem_of_getLast? hl)
          refine h.set (.series fun table htable => ?_)
          rcases List.mem_append.mp htable with htable | htable
          · exact ht table (List.dropLast_subset tables htable)
          · obtain rfl := List.mem_singleton.mp htable
            exact ih hlast _ hi
    · next implied dotted inner hg =>
      cases h.get? hg with
      | table ht =>
        split at he
        · cases he
        · obtain ⟨inner', hi, rfl⟩ := Option.map_eq_some_iff.mp he
          exact h.set (.table (ih ht inner' hi))

theorem Signed.insert (h : entries.Signed) {path : List String} {key : String} {value : Document}
    (hv : value.Signed) : ∀ entries' ∈ entries.insert path key value, Signed entries' := by
  apply h.update
  intro dotted inner hi inner' he
  split at he
  · cases he
  · obtain rfl := Option.some.inj he
    exact hi.add (.value hv)

end Entries

structure ReadsSigned (fuel : Nat) : Prop where
  value : ∀ depth s, ∀ x ∈ value? fuel depth s, x.1.Signed
  elements : ∀ depth acc s, (∀ d ∈ acc, Document.Signed d) →
    ∀ x ∈ elements? fuel depth acc s, x.1.Signed
  members : ∀ depth acc s, Entries.Signed acc → ∀ x ∈ members? fuel depth acc s, x.1.Signed

namespace ReadsSigned

variable {fuel : Nat}

theorem value_succ (h : ReadsSigned fuel) (depth : Nat) (s : List Char) :
    ∀ x ∈ value? (fuel + 1) depth s, x.1.Signed := by
  unfold value?
  split
  · intro x hx
    obtain ⟨y, _, rfl⟩ := Option.map_eq_some_iff.mp hx
    exact .text _
  · intro x hx
    obtain ⟨y, _, rfl⟩ := Option.map_eq_some_iff.mp hx
    exact .text _
  · split
    · split
      · rintro _ ⟨⟩
        exact .list nofun
      · exact h.elements _ [] _ nofun
    · exact nofun
  · split
    · split
      · rintro _ ⟨⟩
        exact .table nofun
      · intro x hx
        obtain ⟨y, hy, rfl⟩ := Option.map_eq_some_iff.mp hx
        exact (h.members _ [] _ nofun y hy).toDocument
    · exact nofun
  · exact scalar?_signed

theorem elements_succ (h : ReadsSigned fuel) (depth : Nat) (acc : List Document) (s : List Char)
    (hacc : ∀ d ∈ acc, d.Signed) : ∀ x ∈ elements? (fuel + 1) depth acc s, x.1.Signed := by
  rw [elements?]
  split
  · exact nofun
  · next v rest hv =>
    have hall : ∀ d ∈ v :: acc, Document.Signed d := by
      intro d hd
      rcases List.mem_cons.mp hd with rfl | hd
      · exact h.value _ _ _ hv
      · exact hacc d hd
    have hlist : (Document.list (v :: acc).reverse).Signed :=
      .list fun d hd => hall d (List.mem_reverse.mp hd)
    split
    · rintro _ ⟨⟩
      exact hlist
    · split
      · rintro _ ⟨⟩
        exact hlist
      · exact h.elements _ _ _ hall
    · exact nofun

theorem members_succ (h : ReadsSigned fuel) (depth : Nat) (acc : Entries) (s : List Char)
    (hacc : acc.Signed) : ∀ x ∈ members? (fuel + 1) depth acc s, x.1.Signed := by
  rw [members?]
  split
  · split
    · exact nofun
    · next v rest hv =>
      dsimp only
      split
      · exact nofun
      · next acc' ha =>
        have hacc' := hacc.insert (h.value _ _ _ hv) acc' ha
        split
        · rintro _ ⟨⟩
          exact hacc'
        · exact h.members _ _ _ hacc'
        · exact nofun
  · exact nofun

end ReadsSigned

theorem readsSigned (fuel : Nat) : ReadsSigned fuel := by
  induction fuel with
  | zero => exact ⟨nofun, nofun, nofun⟩
  | succ fuel ih => exact ⟨ih.value_succ, ih.elements_succ, ih.members_succ⟩

namespace Draft

structure Signed (d : Draft) : Prop where
  root : d.root.Signed
  current : d.current.Signed

variable {d : Draft}

theorem Signed.close (h : d.Signed) : ∀ root ∈ d.close, Entries.Signed root := by
  unfold Draft.close
  split
  · rintro _ ⟨⟩
    exact h.current
  · apply h.root.update
    intro dotted entries he entries' hr
    split at hr
    · split at hr
      · obtain rfl := Option.some.inj hr
        refine he.add (.series fun table ht => ?_)
        obtain rfl := List.mem_singleton.mp ht
        exact h.current
      · next tables hg =>
        obtain rfl := Option.some.inj hr
        cases he.get? hg with
        | series hs =>
          refine he.set (.series fun table ht => ?_)
          rcases List.mem_append.mp ht with ht | ht
          · exact hs table ht
          · obtain rfl := List.mem_singleton.mp ht
            exact h.current
      · cases hr
    · split at hr
      · cases hr
      · obtain rfl := Option.some.inj hr
        exact he.add (.table h.current)

theorem claimed?_signed {entries : Entries} (h : entries.Signed) {key : String} :
    ∀ inner ∈ claimed? entries key, Entries.Signed inner := by
  unfold claimed?
  split
  · rintro _ ⟨⟩
    exact Entries.signed_nil
  · next inner hg =>
    rintro _ ⟨⟩
    cases h.get? hg with
    | table ht => exact ht
  · exact nofun

theorem find?_signed {path : List String} {entries : Entries} (h : entries.Signed) :
    ∀ inner ∈ find? path entries, Entries.Signed inner := by
  induction path generalizing entries with
  | nil =>
    rintro _ ⟨⟩
    exact h
  | cons key path ih =>
    rw [find?]
    split
    · next inner hg =>
      cases h.get? hg with
      | table ht => exact ih ht
    · next tables hg =>
      cases h.get? hg with
      | series hs =>
        intro inner hi
        obtain ⟨last, hl, hi⟩ := Option.bind_eq_some_iff.mp hi
        exact ih (hs last (List.mem_of_getLast? hl)) inner hi
    · exact nofun

theorem Signed.openTable (h : d.Signed) {path : List String} :
    ∀ d' ∈ d.openTable path, d'.Signed := by
  intro d' hd
  obtain ⟨root, hroot, hd⟩ := Option.bind_eq_some_iff.mp hd
  obtain ⟨root₁, hroot₁, hd⟩ := Option.bind_eq_some_iff.mp hd
  obtain ⟨root₂, hroot₂, hd⟩ := Option.bind_eq_some_iff.mp hd
  obtain rfl := Option.some.inj hd
  have hs := h.close root hroot
  have hs₁ : root₁.Signed := by
    refine hs.update (fun dotted inner hi inner' hc => ?_) root₁ hroot₁
    obtain ⟨_, _, rfl⟩ := Option.map_eq_some_iff.mp hc
    exact hi
  have hs₂ : root₂.Signed := by
    refine hs₁.update (fun dotted inner hi inner' hc => ?_) root₂ hroot₂
    obtain rfl := Option.some.inj hc
    exact hi.remove _
  refine ⟨hs₂, Entries.signed_getD fun current hf => ?_⟩
  obtain ⟨entries, he, hc⟩ := Option.bind_eq_some_iff.mp hf
  exact claimed?_signed (find?_signed hs₁ entries he) current hc

theorem Signed.openSeries (h : d.Signed) {path : List String} :
    ∀ d' ∈ d.openSeries path, d'.Signed := by
  intro d' hd
  obtain ⟨root, hroot, hd⟩ := Option.bind_eq_some_iff.mp hd
  obtain ⟨root₁, hroot₁, hd⟩ := Option.bind_eq_some_iff.mp hd
  obtain rfl := Option.some.inj hd
  refine ⟨(h.close root hroot).update (fun dotted inner hi inner' hc => ?_) root₁ hroot₁,
    Entries.signed_nil⟩
  split at hc
  · obtain rfl := Option.some.inj hc
    exact hi
  · obtain rfl := Option.some.inj hc
    exact hi
  · cases hc

theorem Signed.insert (h : d.Signed) {path : List String} {v : Document} (hv : v.Signed) :
    ∀ d' ∈ d.insert path v, d'.Signed := by
  intro d' hd
  obtain ⟨current, hc, rfl⟩ := Option.map_eq_some_iff.mp hd
  exact ⟨h.root, h.current.insert hv current hc⟩

theorem Signed.finish (h : d.Signed) : ∀ doc ∈ d.finish, doc.Signed := by
  intro doc hd
  obtain ⟨root, hr, rfl⟩ := Option.map_eq_some_iff.mp hd
  exact (h.close root hr).toDocument

end Draft

theorem keyLine?_signed {d : Draft} (h : d.Signed) {s : List Char} :
    ∀ x ∈ keyLine? d s, x.1.Signed := by
  intro x hx
  obtain ⟨⟨path, s₁⟩, _, hx⟩ := Option.bind_eq_some_iff.mp hx
  dsimp only at hx
  split at hx
  · obtain ⟨⟨v, s₂⟩, hv, hx⟩ := Option.bind_eq_some_iff.mp hx
    obtain ⟨s₃, _, hx⟩ := Option.bind_eq_some_iff.mp hx
    obtain ⟨d', hd, hx⟩ := Option.bind_eq_some_iff.mp hx
    obtain rfl := Option.some.inj hx
    exact h.insert ((readsSigned _).value _ _ _ hv) d' hd
  · cases hx

theorem header?_signed {d : Draft} (h : d.Signed) {s : List Char} :
    ∀ x ∈ header? d s, x.1.Signed := by
  unfold header?
  intro x hx
  split at hx
  · obtain ⟨⟨path, s₁⟩, _, hx⟩ := Option.bind_eq_some_iff.mp hx
    dsimp only at hx
    split at hx
    · obtain ⟨d', hd, hx⟩ := Option.bind_eq_some_iff.mp hx
      obtain ⟨s₂, _, hx⟩ := Option.bind_eq_some_iff.mp hx
      obtain rfl := Option.some.inj hx
      exact h.openSeries d' hd
    · cases hx
  · obtain ⟨⟨path, s₁⟩, _, hx⟩ := Option.bind_eq_some_iff.mp hx
    dsimp only at hx
    split at hx
    · obtain ⟨d', hd, hx⟩ := Option.bind_eq_some_iff.mp hx
      obtain ⟨s₂, _, hx⟩ := Option.bind_eq_some_iff.mp hx
      obtain rfl := Option.some.inj hx
      exact h.openTable d' hd
    · cases hx

theorem lines?_signed {fuel : Nat} {d : Draft} (h : d.Signed) {s : List Char} :
    ∀ d' ∈ lines? fuel d s, d'.Signed := by
  induction fuel generalizing d s with
  | zero => exact nofun
  | succ fuel ih =>
    rw [lines?]
    split
    · rintro _ ⟨⟩
      exact h
    · intro d' hd
      obtain ⟨s', _, hd⟩ := Option.bind_eq_some_iff.mp hd
      exact ih h d' hd
    · intro d' hd
      obtain ⟨⟨d₁, s₁⟩, hd₁, hd⟩ := Option.bind_eq_some_iff.mp hd
      exact ih (header?_signed h _ hd₁) d' hd
    · split
      · exact ih h
      · intro d' hd
        obtain ⟨⟨d₁, s₁⟩, hd₁, hd⟩ := Option.bind_eq_some_iff.mp hd
        exact ih (keyLine?_signed h _ hd₁) d' hd

theorem parse?_signed {text : String} : ∀ doc ∈ parse? text, doc.Signed := by
  intro doc hd
  obtain ⟨d, hl, hd⟩ := Option.bind_eq_some_iff.mp hd
  have hnew : Draft.Signed {} := ⟨Entries.signed_nil, Entries.signed_nil⟩
  exact (lines?_signed hnew d hl).finish doc hd

end Toml

end ProxyPulse
