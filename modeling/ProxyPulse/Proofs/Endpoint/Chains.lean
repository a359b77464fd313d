import Mathlib.Data.List.Chain
import Mathlib.Data.List.Perm.Subperm
import Mathlib.Logic.Relation
import ProxyPulse.Proofs.Endpoint

/-!
The chain of groups that a walk follows. A group of a table leads on to the group that the member it
points at stands for; a walk arrives where such a chain comes to a terminal proxy, and is lost where
it comes round to itself or leads nowhere. No name is looked up twice.
-/

namespace ProxyPulse

open Relation (ReflTransGen TransGen)

def Group.PointsAt (g : Group) (p : Proxy) : Prop :=
  ∃ before after, g.now = some p.name ∧ g.members = before ++ p :: after ∧
    ∀ q ∈ before, q.name ≠ p.name

def Group.PointsNowhere (g : Group) : Prop :=
  g.now = none ∨ ∃ now, g.now = some now ∧ ∀ p ∈ g.members, p.name ≠ now

namespace GroupTable

def LeadsTo (table : GroupTable) (name next : String) : Prop :=
  ∃ g p, table[name]? = some g ∧ g.PointsAt p ∧ p.kind = .group ∧ p.name = next

def EndsAt (table : GroupTable) (name : String) (x : Endpoint) : Prop :=
  ∃ g p, table[name]? = some g ∧ g.PointsAt p ∧ p.kind = .terminal ∧
    x = ⟨p.name, p.subtitle, p.delay⟩

def ChainTo (table : GroupTable) (start : String) (x : Endpoint) : Prop :=
  ∃ (chain : List String) (last : String), chain.head? = some start ∧
    chain.IsChain table.LeadsTo ∧ chain.getLast? = some last ∧ table.EndsAt last x

def LeadsNowhere (table : GroupTable) (name : String) : Prop :=
  table[name]? = none ∨ ∃ g, table[name]? = some g ∧ g.PointsNowhere

end GroupTable

section

variable {g : Group} {p : Proxy} {table : GroupTable} {name next next' : String} {x x' : Endpoint}

theorem Group.selected?_eq_some_iff : g.selected? = some p ↔ g.PointsAt p := by
  unfold selected? member? PointsAt
  rw [Option.bind_eq_some_iff]
  constructor
  · rintro ⟨now, hnow, hfind⟩
    obtain ⟨hp, before, after, hmembers, hbefore⟩ := List.find?_eq_some_iff_append.mp hfind
    obtain rfl : p.name = now := by simpa using hp
    exact ⟨before, after, hnow, hmembers, fun q hq => by simpa using hbefore q hq⟩
  · rintro ⟨before, after, hnow, hmembers, hbefore⟩
    refine ⟨p.name, hnow, List.find?_eq_some_iff_append.mpr ⟨by simp, before, after, hmembers, ?_⟩⟩
    exact fun q hq => by simpa using hbefore q hq

theorem Group.selected?_eq_none_iff : g.selected? = none ↔ g.PointsNowhere := by
  unfold selected? member? PointsNowhere
  cases g.now with
  | none => simp
  | some now => simp

theorem Group.PointsAt.unique {q : Proxy} (h : g.PointsAt p) (h' : g.PointsAt q) : q = p :=
  Option.some.inj ((selected?_eq_some_iff.mpr h').symm.trans (selected?_eq_some_iff.mpr h))

namespace GroupTable

theorem LeadsTo.unique (h : table.LeadsTo name next) (h' : table.LeadsTo name next') :
    next' = next := by
  obtain ⟨g, p, hg, hp, -, rfl⟩ := h
  obtain ⟨g', p', hg', hp', -, rfl⟩ := h'
  cases hg.symm.trans hg'
  rw [hp.unique hp']

theorem EndsAt.unique (h : table.EndsAt name x) (h' : table.EndsAt name x') : x' = x := by
  obtain ⟨g, p, hg, hp, -, rfl⟩ := h
  obtain ⟨g', p', hg', hp', -, rfl⟩ := h'
  cases hg.symm.trans hg'
  rw [hp.unique hp']

theorem EndsAt.not_leadsTo (h : table.EndsAt name x) : ¬ table.LeadsTo name next := by
  rintro ⟨g', p', hg', hp', hkind', -⟩
  obtain ⟨g, p, hg, hp, hkind, -⟩ := h
  cases hg.symm.trans hg'
  rw [hp.unique hp', hkind] at hkind'
  cases hkind'

theorem LeadsNowhere.not_pointsAt (h : table.LeadsNowhere name) (hg : table[name]? = some g) :
    ¬ g.PointsAt p := by
  intro hp
  rcases h with hnone | ⟨g', hg', hnowhere⟩
  · cases hnone.symm.trans hg
  · cases hg.symm.trans hg'
    rw [← Group.selected?_eq_none_iff, Group.selected?_eq_some_iff.mpr hp] at hnowhere
    cases hnowhere

theorem LeadsTo.mem (h : table.LeadsTo name next) : name ∈ table := by
  obtain ⟨g, p, hg, -⟩ := h
  rw [Std.ExtTreeMap.mem_iff_isSome_getElem?, hg]
  rfl

end GroupTable

end

inductive GroupTable.Walks (table : GroupTable) : Trail → List String → Option Endpoint → Prop
  | arrived {t : Trail} {x : Endpoint} : table.EndsAt t.here x → Walks table t [t.here] (some x)
  | stuck {t : Trail} : table.LeadsNowhere t.here → Walks table t [t.here] none
  | circled {t : Trail} {next : String} : table.LeadsTo t.here next →
    next ∈ t.here :: t.passed → Walks table t [t.here] none
  | onward {t : Trail} {next : String} {names : List String} {x : Option Endpoint} :
    table.LeadsTo t.here next → next ∉ t.here :: t.passed →
    Walks table ⟨next, t.here :: t.passed⟩ names x → Walks table t (t.here :: names) x

namespace Trail

variable {table left : GroupTable} {t next : Trail} {g : Group} {names : List String}
  {name : String} {x : Endpoint} {found : Option Endpoint}

theorem follow_of_none (h : left[t.here]? = none) : t.follow left = ([t.here], none) := by
  rw [follow]
  split
  · rfl
  · next g hg => cases h.symm.trans hg

theorem follow_of_some (h : left[t.here]? = some g) : t.follow left =
    match t.move (some g) with
    | .arrived x => ([t.here], some x)
    | .lost => ([t.here], none)
    | .onward next =>
      (t.here :: (next.follow (left.erase t.here)).1, (next.follow (left.erase t.here)).2) := by
  rw [follow]
  split
  · next hn => cases h.symm.trans hn
  · next g' hg =>
    cases h.symm.trans hg
    rfl

theorem move_fits (hg : table[t.here]? = some g) :
    match t.move (some g) with
    | .arrived x => table.EndsAt t.here x
    | .lost => table.LeadsNowhere t.here ∨ ∃ name ∈ t.here :: t.passed, table.LeadsTo t.here name
    | .onward next => table.LeadsTo t.here next.here ∧ next.here ∉ t.here :: t.passed ∧
        next.passed = t.here :: t.passed := by
  unfold move
  rw [Option.bind_some]
  cases hp : g.selected? with
  | none => exact .inl (.inr ⟨g, hg, Group.selected?_eq_none_iff.mp hp⟩)
  | some p =>
    have hpoints := Group.selected?_eq_some_iff.mp hp
    cases hkind : p.kind with
    | terminal =>
      simp only [Proxy.isGroup, hkind, show (Proxy.Kind.terminal == .group) = false from rfl,
        Bool.false_eq_true, if_false]
      exact ⟨g, p, hg, hpoints, hkind, rfl⟩
    | group =>
      have hleads : table.LeadsTo t.here p.name := ⟨g, p, hg, hpoints, hkind, rfl⟩
      simp only [Proxy.isGroup, hkind, beq_self_eq_true, if_true]
      by_cases hseen : p.name ∈ t.here :: t.passed
      · rw [if_pos hseen]
        exact .inr ⟨p.name, hseen, hleads⟩
      · rw [if_neg hseen]
        exact ⟨hleads, hseen, rfl⟩

theorem follow_walks (hhere : t.here ∉ t.passed)
    (hleft : ∀ name, name ∉ t.passed → left[name]? = table[name]?) :
    table.Walks t (t.follow left).1 (t.follow left).2 := by
  induction left, t using follow.induct with
  | case1 left t hnone =>
    rw [follow_of_none hnone]
    exact .stuck (.inl ((hleft t.here hhere).symm.trans hnone))
  | case2 left t g hg x hmove =>
    have hfits := move_fits (t := t) ((hleft t.here hhere).symm.trans hg)
    rw [hmove] at hfits
    rw [follow_of_some hg, hmove]
    exact .arrived hfits
  | case3 left t g hg hmove =>
    have hfits := move_fits (t := t) ((hleft t.here hhere).symm.trans hg)
    rw [hmove] at hfits
    rw [follow_of_some hg, hmove]
    rcases hfits with hnowhere | ⟨name, hseen, hleads⟩
    · exact .stuck hnowhere
    · exact .circled hleads hseen
  | case4 left t g hg next hmove _ _ _ ih =>
    have hfits := move_fits (t := t) ((hleft t.here hhere).symm.trans hg)
    rw [hmove] at hfits
    obtain ⟨hleads, hnew, hpassed⟩ := hfits
    rw [follow_of_some hg, hmove]
    have hwalk := ih (hpassed ▸ hnew) fun name hname => by
      rw [hpassed, List.mem_cons, not_or] at hname
      rw [Std.ExtTreeMap.getElem?_erase, if_neg (by simpa using Ne.symm hname.1), hleft name hname.2]
    obtain ⟨here, passed⟩ := next
    obtain rfl : passed = t.here :: t.passed := hpassed
    exact .onward hleads hnew hwalk

end Trail

namespace GroupTable

variable {table : GroupTable} {t : Trail} {names : List String} {x : Endpoint}
  {found : Option Endpoint}

theorem Walks.head (h : table.Walks t names found) : names.head? = some t.here := by
  cases h <;> rfl

theorem Walks.chain (h : table.Walks t names found) : names.IsChain table.LeadsTo := by
  induction h with
  | arrived | stuck | circled => exact .singleton _
  | onward hleads _ hrest ih =>
    refine List.isChain_cons.mpr ⟨fun name hname => ?_, ih⟩
    cases hrest.head.symm.trans hname
    exact hleads

theorem Walks.distinct (h : table.Walks t names found) (hhere : t.here ∉ t.passed) :
    names.Nodup ∧ ∀ name ∈ names, name ∉ t.passed := by
  induction h with
  | arrived | stuck | circled =>
    exact ⟨List.nodup_singleton _, fun name hname => List.mem_singleton.mp hname ▸ hhere⟩
  | onward _ hnew _ ih =>
    obtain ⟨hnodup, hfresh⟩ := ih hnew
    refine ⟨List.nodup_cons.mpr ⟨fun hmem => ?_, hnodup⟩, fun name hname => ?_⟩
    · exact hfresh _ hmem List.mem_cons_self
    · rcases List.mem_cons.mp hname with rfl | hmem
      · exact hhere
      · exact fun hp => hfresh name hmem (List.mem_cons_of_mem _ hp)

theorem Walks.arrives (h : table.Walks t names found) (hx : found = some x) :
    ∃ last, names.getLast? = some last ∧ table.EndsAt last x := by
  induction h with
  | arrived hends =>
    cases hx
    exact ⟨_, rfl, hends⟩
  | stuck | circled => cases hx
  | onward _ _ hrest ih =>
    obtain ⟨last, hlast, hends⟩ := ih hx
    exact ⟨last, by rw [List.getLast?_cons, hlast]; rfl, hends⟩

theorem Walks.lost (h : table.Walks t names found) (hx : found = none) :
    ∃ last, names.getLast? = some last ∧ (table.LeadsNowhere last ∨
      ∃ name, (name ∈ names ∨ name ∈ t.passed) ∧ table.LeadsTo last name) := by
  induction h with
  | arrived => cases hx
  | stuck hnowhere => exact ⟨_, rfl, .inl hnowhere⟩
  | circled hleads hseen =>
    refine ⟨_, rfl, .inr ⟨_, ?_, hleads⟩⟩
    rcases List.mem_cons.mp hseen with rfl | hpassed
    · exact .inl List.mem_cons_self
    · exact .inr hpassed
  | onward _ _ _ ih =>
    obtain ⟨last, hlast, hends⟩ := ih hx
    refine ⟨last, by rw [List.getLast?_cons, hlast]; rfl, hends.imp_right ?_⟩
    rintro ⟨name, hname, hleads⟩
    refine ⟨name, ?_, hleads⟩
    rcases hname with hmem | hmem
    · exact .inl (List.mem_cons_of_mem _ hmem)
    · rcases List.mem_cons.mp hmem with rfl | hpassed
      · exact .inl List.mem_cons_self
      · exact .inr hpassed

variable {start last name : String}

theorem chain_reaches (hchain : names.IsChain table.LeadsTo) (hhead : names.head? = some start)
    (hlast : names.getLast? = some last) (hname : name ∈ names) :
    ReflTransGen table.LeadsTo start name ∧ ReflTransGen table.LeadsTo name last := by
  constructor
  · refine hchain.induction _ _ (fun _ _ hleads hreach => hreach.tail hleads) (fun hne => ?_) name hname
    rw [Option.some.inj ((List.head?_eq_some_head hne).symm.trans hhead)]
  · refine hchain.backwards_induction (ReflTransGen table.LeadsTo · last) _
      (fun _ _ hleads hreach => hreach.head hleads) (fun hne => ?_) name hname
    rw [Option.some.inj ((List.getLast?_eq_some_getLast hne).symm.trans hlast)]

theorem EndsAt.not_lost (hends : table.EndsAt last x) (hlast : ReflTransGen table.LeadsTo name last) :
    ¬ (TransGen table.LeadsTo name name ∨ table.LeadsNowhere name) := by
  induction hlast using ReflTransGen.head_induction_on with
  | refl =>
    rintro (hcycle | hnowhere)
    · obtain ⟨next, hleads, -⟩ := TransGen.head'_iff.mp hcycle
      exact hends.not_leadsTo hleads
    · obtain ⟨g, p, hg, hp, -⟩ := hends
      exact hnowhere.not_pointsAt hg hp
  | head hleads _ ih =>
    rintro (hcycle | hnowhere)
    · obtain ⟨next, hleads', hback⟩ := TransGen.head'_iff.mp hcycle
      obtain rfl := hleads.unique hleads'
      exact ih (.inl (.tail' hback hleads))
    · obtain ⟨g, p, hg, hp, -⟩ := hleads
      exact hnowhere.not_pointsAt hg hp

theorem EndsAt.reached (hends : table.EndsAt last x)
    (hlast : ReflTransGen table.LeadsTo start last) (hname : ReflTransGen table.LeadsTo start name) :
    ReflTransGen table.LeadsTo name last := by
  rcases ReflTransGen.total_of_right_unique (fun _ _ _ h h' => h'.unique h) hlast hname with h | h
  · rcases h.cases_head with rfl | ⟨next, hleads, -⟩
    · exact .refl
    · exact absurd hleads hends.not_leadsTo
  · exact h

theorem walks_resolve (table : GroupTable) (start : String) :
    table.Walks ⟨start, []⟩ (Trail.follow table ⟨start, []⟩).1 (table.resolve start) :=
  Trail.follow_walks List.not_mem_nil fun _ _ => rfl

theorem chainTo_of_resolve (h : table.resolve start = some x) : table.ChainTo start x := by
  have hwalk := table.walks_resolve start
  obtain ⟨last, hlast, hends⟩ := hwalk.arrives h
  exact ⟨_, last, hwalk.head, hwalk.chain, hlast, hends⟩

theorem lost_of_resolve (h : table.resolve start = none) :
    ∃ name, ReflTransGen table.LeadsTo start name ∧
      (TransGen table.LeadsTo name name ∨ table.LeadsNowhere name) := by
  have hwalk := table.walks_resolve start
  obtain ⟨last, hlast, hends⟩ := hwalk.lost h
  have hreached : ∀ name ∈ (Trail.follow table ⟨start, []⟩).1,
      ReflTransGen table.LeadsTo start name ∧ ReflTransGen table.LeadsTo name last :=
    fun name hname => chain_reaches hwalk.chain hwalk.head hlast hname
  refine ⟨last, (hreached last (List.mem_of_getLast? hlast)).1, ?_⟩
  rcases hends with hnowhere | ⟨name, hname, hleads⟩
  · exact .inr hnowhere
  · rcases hname with hmem | hnil
    · exact .inl (.head' hleads (hreached name hmem).2)
    · cases hnil

theorem resolve_eq_some_iff : table.resolve start = some x ↔ table.ChainTo start x := by
  refine ⟨chainTo_of_resolve, fun ⟨chain, last, hhead, hchain, hlast, hends⟩ => ?_⟩
  have hreach := (chain_reaches hchain hhead hlast (List.mem_of_getLast? hlast)).1
  cases h : table.resolve start with
  | none =>
    obtain ⟨name, hname, hlost⟩ := lost_of_resolve h
    exact absurd hlost (hends.not_lost (hends.reached hreach hname))
  | some x' =>
    obtain ⟨chain', last', hhead', hchain', hlast', hends'⟩ := chainTo_of_resolve h
    have hreach' := (chain_reaches hchain' hhead' hlast' (List.mem_of_getLast? hlast')).1
    -- both chains end where nothing leads on
    rcases (hends.reached hreach hreach').cases_head with rfl | ⟨next, hleads, -⟩
    · rw [hends.unique hends']
    · exact absurd hleads hends'.not_leadsTo

theorem resolve_eq_none_iff : table.resolve start = none ↔
    ∃ name, ReflTransGen table.LeadsTo start name ∧
      (TransGen table.LeadsTo name name ∨ table.LeadsNowhere name) := by
  refine ⟨lost_of_resolve, fun ⟨name, hname, hlost⟩ => ?_⟩
  cases h : table.resolve start with
  | none => rfl
  | some x =>
    obtain ⟨chain, last, hhead, hchain, hlast, hends⟩ := chainTo_of_resolve h
    have hreach := (chain_reaches hchain hhead hlast (List.mem_of_getLast? hlast)).1
    exact absurd hlost (hends.not_lost (hends.reached hreach hname))

theorem mem_of_chain (hchain : names.IsChain table.LeadsTo) (hname : name ∈ names.dropLast) :
    name ∈ table := by
  induction names with
  | nil => cases hname
  | cons first rest ih =>
    cases rest with
    | nil => cases hname
    | cons second rest =>
      rw [List.isChain_cons_cons] at hchain
      rcases List.mem_cons.mp hname with rfl | hmem
      · exact hchain.1.mem
      · exact ih hchain.2 hmem

theorem Walks.length_le (h : table.Walks ⟨start, []⟩ names found) {groups : List String}
    (hgroups : ∀ name ∈ table, ReflTransGen table.LeadsTo start name → name ∈ groups) :
    names.length ≤ groups.length + 1 := by
  have hnodup : names.Nodup := (h.distinct List.not_mem_nil).1
  have hsub : names.dropLast ⊆ groups := by
    intro name hname
    have hne : names ≠ [] := by
      rintro rfl
      cases hname
    refine hgroups name (mem_of_chain h.chain hname) ?_
    exact (chain_reaches h.chain h.head (List.getLast?_eq_some_getLast hne)
      (List.dropLast_subset names hname)).1
  have hle := (List.subperm_of_subset (hnodup.sublist (List.dropLast_sublist names)) hsub).length_le
  rw [List.length_dropLast] at hle
  omega

/-- A walk through any table comes to an end and looks up no name twice. It arrives just where a
chain of groups leads from its start to a terminal proxy, and is lost just where the groups go round
in a circle or come to a name that leads nowhere. -/
theorem walk_follows_chain (table : GroupTable) (start : String) :
    let names := (Trail.follow table ⟨start, []⟩).1
    (names.Nodup ∧ names.head? = some start ∧ names.IsChain table.LeadsTo) ∧
    ((∀ name ∈ names.dropLast, name ∈ table) ∧
      ∀ groups : List String,
        (∀ name ∈ table, ReflTransGen table.LeadsTo start name → name ∈ groups) →
        names.length ≤ groups.length + 1) ∧
    (∀ x, table.resolve start = some x ↔ table.ChainTo start x) ∧
    (table.resolve start = none ↔
      ∃ name, ReflTransGen table.LeadsTo start name ∧
        (TransGen table.LeadsTo name name ∨ table.LeadsNowhere name)) := by
  intro names
  have hwalk : table.Walks ⟨start, []⟩ names (table.resolve start) := table.walks_resolve start
  refine ⟨⟨(hwalk.distinct List.not_mem_nil).1, hwalk.head, hwalk.chain⟩, ⟨?_, ?_⟩, ?_, ?_⟩
  · exact fun name hname => mem_of_chain hwalk.chain hname
  · exact fun groups hgroups => hwalk.length_le hgroups
  · exact fun x => resolve_eq_some_iff
  · exact resolve_eq_none_iff

end GroupTable

end ProxyPulse
