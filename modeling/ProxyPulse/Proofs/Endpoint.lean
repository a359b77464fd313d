import Mathlib.Data.List.Nodup
import ProxyPulse.Endpoint
import ProxyPulse.Proofs.Proxy

namespace ProxyPulse

def Proxy.identity (p : Proxy) : String × Proxy.Kind × String :=
  (p.name, p.kind, p.subtitle)

def Endpoint.place (x : Endpoint) : String × String :=
  (x.name, x.subtitle)

namespace Group

structure Alike (g g' : Group) : Prop where
  now : g'.now = g.now
  members : (g'.members.map Proxy.identity).Perm (g.members.map Proxy.identity)

variable {g g' g'' : Group}

theorem Alike.refl (g : Group) : g.Alike g :=
  ⟨rfl, .refl _⟩

theorem Alike.trans (h : g.Alike g') (h' : g'.Alike g'') : g.Alike g'' :=
  ⟨h'.now.trans h.now, h'.members.trans h.members⟩

theorem map_identity_name (members : List Proxy) :
    (members.map Proxy.identity).map Prod.fst = members.map Proxy.name := by
  rw [List.map_map]
  rfl

theorem Alike.distinct (h : g.Alike g') (hd : DistinctNames g.members) :
    DistinctNames g'.members := by
  have hp := h.members.map Prod.fst
  rw [map_identity_name, map_identity_name] at hp
  exact hp.nodup_iff.mpr hd

theorem member?_eq_some_iff (hd : DistinctNames g.members) {name : String} {p : Proxy} :
    g.member? name = some p ↔ p ∈ g.members ∧ p.name = name := by
  constructor
  · intro h
    exact ⟨List.mem_of_find?_eq_some h, by simpa using List.find?_some h⟩
  · rintro ⟨hp, rfl⟩
    refine find?_eq_some_of_unique hp (by simp) fun q hq hname => ?_
    exact List.inj_on_of_nodup_map hd hq hp (by simpa using hname)

theorem selected?_identity (hd : DistinctNames g.members) (i : String × Proxy.Kind × String) :
    g.selected?.map Proxy.identity = some i ↔
      g.now = some i.1 ∧ i ∈ g.members.map Proxy.identity := by
  rw [Option.map_eq_some_iff, List.mem_map, selected?]
  constructor
  · rintro ⟨p, hp, rfl⟩
    obtain ⟨name, hname, hp⟩ := Option.bind_eq_some_iff.mp hp
    obtain ⟨hm, rfl⟩ := (member?_eq_some_iff hd).mp hp
    exact ⟨hname, p, hm, rfl⟩
  · rintro ⟨hname, p, hm, rfl⟩
    have hp : g.member? p.name = some p := (member?_eq_some_iff hd).mpr ⟨hm, rfl⟩
    exact ⟨p, Option.bind_eq_some_iff.mpr ⟨p.name, hname, hp⟩, rfl⟩

theorem Alike.selected (h : g.Alike g') (hd : DistinctNames g.members) :
    g'.selected?.map Proxy.identity = g.selected?.map Proxy.identity := by
  refine Option.ext fun i => ?_
  rw [selected?_identity (h.distinct hd), selected?_identity hd, h.now, h.members.mem_iff]

end Group

namespace Trail

variable {t next : Trail} {g g' : Group} {table table' : GroupTable}

inductive Move.Agrees : Move → Move → Prop
  | arrived {x x' : Endpoint} : x'.place = x.place → Agrees (.arrived x) (.arrived x')
  | lost : Agrees .lost .lost
  | onward (next : Trail) : Agrees (.onward next) (.onward next)

theorem move_agrees (h : g.Alike g') (hd : DistinctNames g.members) (t : Trail) :
    (t.move (some g)).Agrees (t.move (some g')) := by
  have hs := h.selected hd
  unfold move
  rw [Option.bind_some, Option.bind_some]
  cases hp : g.selected? with
  | none =>
    rw [hp, Option.map_none, Option.map_eq_none_iff] at hs
    rw [hs]
    exact .lost
  | some p =>
    rw [hp, Option.map_some, Option.map_eq_some_iff] at hs
    obtain ⟨p', hp', hi⟩ := hs
    obtain ⟨hname, hkind, hsubtitle⟩ : p'.name = p.name ∧ p'.kind = p.kind ∧
        p'.subtitle = p.subtitle := by
      simpa [Proxy.identity] using hi
    have hgroup : p'.isGroup = p.isGroup := by rw [Proxy.isGroup, hkind, Proxy.isGroup]
    simp only [hp', hname, hgroup]
    split
    · split
      · exact .lost
      · exact .onward _
    · apply Move.Agrees.arrived
      simp only [Endpoint.place, Proxy.endpoint, hname, hsubtitle]

theorem move_onward (h : t.move (some g) = .onward next) :
    ∃ p, g.selected? = some p ∧ p.isGroup = true ∧ p.name ∉ t.here :: t.passed ∧
      next = ⟨p.name, t.here :: t.passed⟩ := by
  unfold move at h
  rw [Option.bind_some] at h
  split at h
  · cases h
  · next p hp =>
    split at h
    · next hg =>
      split at h
      · cases h
      · next hn =>
        cases h
        exact ⟨p, hp, hg, hn, rfl⟩
    · cases h

def place? (table : GroupTable) (t : Trail) : Option (String × String) :=
  (t.follow table).2.map Endpoint.place

def Move.place? (rest : GroupTable) : Move → Option (String × String)
  | .arrived x => some x.place
  | .lost => none
  | .onward next => next.place? rest

theorem Move.Agrees.place {m m' : Move} (h : m.Agrees m')
    (hnext : ∀ next, m = .onward next → next.place? table' = next.place? table) :
    m'.place? table' = m.place? table := by
  cases h with
  | arrived hx => exact congrArg some hx
  | lost => rfl
  | onward next => exact hnext next rfl

theorem place?_of_none (h : table[t.here]? = none) : t.place? table = none := by
  unfold place? follow
  split
  · rfl
  · next g hg => rw [h] at hg; cases hg

theorem place?_of_some (h : table[t.here]? = some g) :
    t.place? table = (t.move (some g)).place? (table.erase t.here) := by
  unfold place?
  rw [follow]
  split
  · next hn => rw [h] at hn; cases hn
  · next g' hg =>
    rw [h] at hg
    cases hg
    cases t.move (some g) <;> rfl

/-- Of a group that a walk comes to, two tables tell the same. A group that neither knows any more
was passed before. -/
def Tells (table table' : GroupTable) (name : String) : Prop :=
  table[name]? = none ∧ table'[name]? = none ∨
    ∃ g g', table[name]? = some g ∧ table'[name]? = some g' ∧ g.Alike g' ∧ DistinctNames g.members

theorem Tells.erase {name : String} (h : Tells table table' name) (here : String) :
    Tells (table.erase here) (table'.erase here) name := by
  unfold Tells
  rw [Std.ExtTreeMap.getElem?_erase, Std.ExtTreeMap.getElem?_erase]
  split
  · exact .inl ⟨rfl, rfl⟩
  · exact h

theorem Tells.place (h : Tells table table' t.here) (hg : table[t.here]? = some g)
    (hnext : ∀ next, t.move (some g) = .onward next →
      next.place? (table'.erase t.here) = next.place? (table.erase t.here)) :
    t.place? table' = t.place? table := by
  rcases h with ⟨hn, _⟩ | ⟨x, g', hx, hg', ha, hd⟩
  · rw [hg] at hn
    cases hn
  · rw [hg] at hx
    cases hx
    rw [place?_of_some hg, place?_of_some hg']
    exact (move_agrees ha hd t).place hnext

theorem getElem?_of_erase {here name : String} (h : (table.erase here)[name]? = some g) :
    table[name]? = some g := by
  rw [Std.ExtTreeMap.getElem?_erase] at h
  split at h
  · cases h
  · exact h

theorem place?_tells {S : String → Prop} (t : Trail) (hS : S t.here)
    (hclosed : ∀ name g p, S name → table[name]? = some g → g.selected? = some p →
      p.isGroup = true → S p.name)
    (htells : ∀ name, S name → Tells table table' name) :
    t.place? table' = t.place? table := by
  induction table, t using follow.induct generalizing table' with
  | case1 table t h =>
    rcases htells t.here hS with ⟨_, h'⟩ | ⟨g, _, hg, _⟩
    · rw [place?_of_none h, place?_of_none h']
    · rw [h] at hg
      cases hg
  | case2 table t g hg x hmove | case3 table t g hg hmove =>
    refine (htells t.here hS).place hg fun next hnext => ?_
    rw [hmove] at hnext
    cases hnext
  | case4 table t g hg next hmove _ _ _ ih =>
    refine (htells t.here hS).place hg fun next' hnext => ?_
    obtain rfl := Move.onward.inj (hmove.symm.trans hnext)
    obtain ⟨p, hp, hgroup, _, rfl⟩ := move_onward hmove
    apply ih
    · exact hclosed _ g p hS hg hp hgroup
    · intro name x q hn hx
      exact hclosed name x q hn (getElem?_of_erase hx)
    · exact fun name hn => (htells name hn).erase _

end Trail

inductive GroupTable.Passes (table : GroupTable) (start : String) : String → Prop
  | start : Passes table start start
  | onward {name : String} {g : Group} {p : Proxy} : Passes table start name →
    table[name]? = some g → g.selected? = some p → p.isGroup = true → Passes table start p.name

theorem GroupTable.resolve_tells {table table' : GroupTable} {start : String}
    (h : ∀ name, table.Passes start name → Trail.Tells table table' name) :
    (table'.resolve start).map Endpoint.place = (table.resolve start).map Endpoint.place :=
  Trail.place?_tells ⟨start, []⟩ .start
    (fun _ _ _ hn hg hp hgroup => .onward hn hg hp hgroup) h

end ProxyPulse
