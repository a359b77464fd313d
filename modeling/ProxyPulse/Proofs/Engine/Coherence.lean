import Mathlib.Data.List.Pairwise
import ProxyPulse.Proofs.Engine.Conduct

/-!
Flags and sessions agree. Each group has its record, tested exactly while the table of sessions has
an entry for it; each entry stands under the name of its group; and each task that watches over a
session finds it in the table.
-/

namespace ProxyPulse.Engine

variable {σ : Type} {P : Mark → Prop} {e e' e'' : Engine σ}

structure Coherent (e : Engine σ) : Prop where
  shown : ∀ i : Nat, e.board.tag i = e.registry.names[i]?.map (·, e.sessions.contains i)
  indexed : e.board.Indexed
  named : ∀ (i : Nat) (s : Session), e.sessions[i]? = some s → e.registry.names[i]? = some s.group
  used : ∀ (i : Nat) (s : Session), e.sessions[i]? = some s → s.id < e.nextSession
  past : ∀ (i : Nat) (s : Session), e.sessions[i]? = some s → s.startedAt ≤ e.now
  distinct : ∀ (i j : Nat) (s t : Session), e.sessions[i]? = some s → e.sessions[j]? = some t →
    s.id = t.id → i = j
  watched : ∀ plan ∈ livePlans e.tasks, e.Runs plan
  single : ((livePlans e.tasks).map SessionPlan.session).Nodup
  proper : ∀ t ∈ e.tasks, t.Proper

structure Follows (e e' : Engine σ) : Prop where
  now : e.now ≤ e'.now
  next : e.nextSession ≤ e'.nextSession
  entries : ∀ (i : Nat) (s : Session), e'.sessions[i]? = some s →
    e.sessions[i]? = some s ∨ e.nextSession ≤ s.id ∧ e.now ≤ s.startedAt
  ends : ∃ new, e'.board.events = new ++ e.board.events ∧
    ∀ i, i ∈ e.sessions → i ∉ e'.sessions → ∃ revision, .updated i revision ∈ new

theorem Follows.refl (e : Engine σ) : Follows e e :=
  ⟨Nat.le_refl _, Nat.le_refl _, fun _ _ h => .inl h, [], rfl, fun _ h hn => absurd h hn⟩

theorem Follows.trans (h : Follows e e') (h' : Follows e' e'') : Follows e e'' := by
  obtain ⟨new, hnew, hends⟩ := h.ends
  obtain ⟨new', hnew', hends'⟩ := h'.ends
  refine ⟨Nat.le_trans h.now h'.now, Nat.le_trans h.next h'.next, fun i s hs => ?_, new' ++ new, ?_, ?_⟩
  · rcases h'.entries i s hs with hs | ⟨hid, ht⟩
    · exact h.entries i s hs
    · exact .inr ⟨Nat.le_trans h.next hid, Nat.le_trans h.now ht⟩
  · rw [hnew', hnew, List.append_assoc]
  · intro i hi hn
    by_cases hm : i ∈ e'.sessions
    · obtain ⟨revision, hr⟩ := hends' i hm hn
      exact ⟨revision, List.mem_append_left _ hr⟩
    · obtain ⟨revision, hr⟩ := hends i hi hm
      exact ⟨revision, List.mem_append_right _ hr⟩

theorem Follows.of_sessions (hn : e.now ≤ e'.now) (hi : e.nextSession ≤ e'.nextSession)
    (hs : e'.sessions = e.sessions) (he : e.board.events <:+ e'.board.events) : Follows e e' := by
  obtain ⟨new, hnew⟩ := he
  exact ⟨hn, hi, fun i s h => .inl (hs ▸ h), new, hnew.symm, fun i h hn => absurd (hs ▸ h) hn⟩

theorem openSession_sessions (e : Engine σ) (index session : Nat) (g : Group) :
    (e.openSession index session g).sessions =
      e.sessions.insert index ⟨session, g.name, e.now⟩ := rfl

theorem openSession_names (e : Engine σ) (index session : Nat) (g : Group) :
    (e.openSession index session g).registry.names = e.registry.names :=
  Registry.setTesting_names e.registry index g.name true

theorem openSession_livePlans (e : Engine σ) (index session : Nat) (g : Group) :
    ∃ plan : SessionPlan, plan.session = session ∧ plan.index = index ∧ plan.group = g.name ∧
      livePlans (e.openSession index session g).tasks = livePlans e.tasks ++ [plan] := by
  refine ⟨_, ?_, ?_, ?_, livePlans_append e.tasks _⟩
  all_goals rfl

theorem entry_insert {sessions : Std.ExtTreeMap Nat Session} {index i : Nat} {new s : Session}
    (h : (sessions.insert index new)[i]? = some s) :
    i = index ∧ s = new ∨ i ≠ index ∧ sessions[i]? = some s := by
  simp only [Std.ExtTreeMap.getElem?_insert, Nat.compare_eq_eq] at h
  split at h
  · next hi => exact .inl ⟨hi.symm, (Option.some.inj h).symm⟩
  · next hi => exact .inr ⟨Ne.symm hi, h⟩

theorem entry_erase {sessions : Std.ExtTreeMap Nat Session} {index i : Nat} {s : Session}
    (h : (sessions.erase index)[i]? = some s) : i ≠ index ∧ sessions[i]? = some s := by
  simp only [Std.ExtTreeMap.getElem?_erase, Nat.compare_eq_eq] at h
  split at h
  · cases h
  · next hi => exact ⟨Ne.symm hi, h⟩

theorem contains_insert (sessions : Std.ExtTreeMap Nat Session) (index : Nat) (s : Session)
    (i : Nat) :
    (sessions.insert index s).contains i = if i = index then true else sessions.contains i := by
  simp only [Std.ExtTreeMap.contains_eq_isSome_getElem?, Std.ExtTreeMap.getElem?_insert,
    Nat.compare_eq_eq, eq_comm (a := i)]
  split <;> rfl

theorem contains_erase (sessions : Std.ExtTreeMap Nat Session) (index i : Nat) :
    (sessions.erase index).contains i = if i = index then false else sessions.contains i := by
  simp only [Std.ExtTreeMap.contains_eq_isSome_getElem?, Std.ExtTreeMap.getElem?_erase,
    Nat.compare_eq_eq, eq_comm (a := i)]
  split <;> rfl

theorem closeSession_sessions (e : Engine σ) (index : Nat) (s : Session)
    (outcome : SessionOutcome) :
    (e.closeSession index s outcome).sessions = e.sessions.erase index := rfl

theorem closeSession_names (e : Engine σ) (index : Nat) (s : Session) (outcome : SessionOutcome) :
    (e.closeSession index s outcome).registry.names = e.registry.names :=
  Registry.setTesting_names e.registry index s.group false

theorem Coherent.aligned (h : Coherent e) : e.registry.Aligned := by
  refine ⟨fun i => ?_, h.indexed⟩
  have hs := h.shown i
  rw [board] at hs
  rw [hs]
  simp [Function.comp_def]

theorem Coherent.frame (h : Coherent e) (hn : e'.registry.names = e.registry.names)
    (hb : e.board.Keeps e'.board) (hs : e'.sessions = e.sessions)
    (hi : e.nextSession ≤ e'.nextSession) (ht : e.now ≤ e'.now)
    (hp : (livePlans e'.tasks).Sublist (livePlans e.tasks)) (ha : ∀ t ∈ e'.tasks, t.Proper) :
    Coherent e' where
  shown i := by rw [hb.tags, hn, hs, h.shown]
  indexed := hb.indexed h.indexed
  named i s hx := by rw [hn]; exact h.named i s (hs ▸ hx)
  used i s hx := Nat.lt_of_lt_of_le (h.used i s (hs ▸ hx)) hi
  past i s hx := Nat.le_trans (h.past i s (hs ▸ hx)) ht
  distinct i j s t hx hy := h.distinct i j s t (hs ▸ hx) (hs ▸ hy)
  watched plan hx := by
    obtain ⟨s, hs', hr⟩ := h.watched plan (hp.subset hx)
    exact ⟨s, hs ▸ hs', hr⟩
  single := h.single.sublist (hp.map _)
  proper := ha

theorem Coherent.park (h : Coherent e) {t : Task} {plan : SessionPlan} (ht : t.plan? = some plan)
    (hr : e.Runs plan) (hn : plan.session ∉ (livePlans e.tasks).map SessionPlan.session) :
    Coherent { e with tasks := e.tasks ++ [t] } := by
  have hp : livePlans (e.tasks ++ [t]) = livePlans e.tasks ++ [plan] := by
    simp [livePlans, ht]
  refine ⟨h.shown, h.indexed, h.named, h.used, h.past, h.distinct, fun x hx => ?_, ?_, ?_⟩
  · rw [hp] at hx
    rcases List.mem_append.mp hx with hx | hx
    · exact h.watched x hx
    · exact List.mem_singleton.mp hx ▸ hr
  · show ((livePlans (e.tasks ++ [t])).map SessionPlan.session).Nodup
    rw [hp, List.map_append, List.nodup_append]
    refine ⟨h.single, by simp, fun x hx y hy he => hn ?_⟩
    rw [List.map_singleton, List.mem_singleton] at hy
    exact hy ▸ he ▸ hx
  · refine proper_append h.proper ?_
    cases ha : t.isAborted with
    | false => rfl
    | true => simp [Task.plan?, ha] at ht

theorem Coherent.flag (h : Coherent e) {index : Nat} {name : String}
    (hn : e.registry.names[index]? = some name) (testing : Bool) (i : Nat) :
    (e.registry.setTesting index name testing).1.board.tag i =
      e.registry.names[i]?.map (·, if i = index then testing else e.sessions.contains i) := by
  have hi := h.shown i
  rw [board] at hi
  rw [Registry.setTesting_tag hn, hi]
  split
  · simp [Function.comp_def]
  · rfl

theorem Coherent.unborn (h : Coherent e) :
    e.nextSession ∉ (livePlans e.tasks).map SessionPlan.session := by
  intro hm
  obtain ⟨x, hx, hid⟩ := List.mem_map.mp hm
  obtain ⟨s, hs, hsid, _⟩ := h.watched x hx
  have := h.used _ s hs
  omega

theorem Coherent.distinct_insert (h : Coherent e) {index : Nat} {new : Session}
    (hn : new.id = e.nextSession) {i j : Nat} {s t : Session}
    (hs : (e.sessions.insert index new)[i]? = some s)
    (ht : (e.sessions.insert index new)[j]? = some t) (hid : s.id = t.id) : i = j := by
  rcases entry_insert hs with ⟨hi, rfl⟩ | ⟨_, hold⟩
  · rcases entry_insert ht with ⟨hj, rfl⟩ | ⟨_, hold⟩
    · exact hi.trans hj.symm
    · have := h.used j t hold
      omega
  · rcases entry_insert ht with ⟨_, rfl⟩ | ⟨_, hold'⟩
    · have := h.used i s hold
      omega
    · exact h.distinct i j s t hold hold' hid

theorem unwatched_ne {index : Nat} (hu : e.Unwatched index) {plan : SessionPlan}
    (hp : plan ∈ livePlans e.tasks) {s : Session} (hs : e.sessions[plan.index]? = some s)
    (hid : s.id = plan.session) : index ≠ plan.index := by
  intro hi
  exact hu s (hi ▸ hs) (hid ▸ List.mem_map_of_mem hp)

theorem Coherent.watched_insert (h : Coherent e) {index : Nat} (hu : e.Unwatched index)
    (new : Session) {plan : SessionPlan} (hp : plan ∈ livePlans e.tasks) :
    ∃ s, (e.sessions.insert index new)[plan.index]? = some s ∧ s.id = plan.session ∧
      s.group = plan.group := by
  obtain ⟨s, hs, hid, hg⟩ := h.watched plan hp
  -- the entry that gives way is another one
  have hi := unwatched_ne hu hp hs hid
  refine ⟨s, ?_, hid, hg⟩
  simpa only [Std.ExtTreeMap.getElem?_insert, Nat.compare_eq_eq, if_neg hi] using hs

theorem Coherent.open (h : Coherent e) {index : Nat} {g : Group}
    (hg : e.registry.group? index = some g) (hu : e.Unwatched index) :
    Coherent ({ e with nextSession := e.nextSession + 1 }.openSession index e.nextSession g) := by
  have hn := Registry.group_name hg
  obtain ⟨plan, hps, hpi, hpg, hlive⟩ :=
    openSession_livePlans { e with nextSession := e.nextSession + 1 } index e.nextSession g
  constructor
  case shown =>
    intro i
    refine (h.flag hn true i).trans ?_
    rw [openSession_names, openSession_sessions, contains_insert]
  case indexed => exact Registry.setTesting_indexed h.indexed index g.name true
  case named =>
    intro i s hs
    rw [openSession_names]
    rcases entry_insert hs with ⟨rfl, rfl⟩ | ⟨_, hs⟩
    · exact hn
    · exact h.named i s hs
  case used =>
    intro i s hs
    rcases entry_insert hs with ⟨rfl, rfl⟩ | ⟨_, hs⟩
    · exact Nat.lt_succ_self _
    · exact Nat.lt_succ_of_lt (h.used i s hs)
  case past =>
    intro i s hs
    rcases entry_insert hs with ⟨rfl, rfl⟩ | ⟨_, hs⟩
    · exact Nat.le_refl _
    · exact h.past i s hs
  case distinct =>
    intro i j s t hs ht hid
    exact h.distinct_insert rfl hs ht hid
  case watched =>
    intro x hx
    rw [hlive] at hx
    rcases List.mem_append.mp hx with hx | hx
    · exact h.watched_insert hu _ hx
    · rw [List.mem_singleton.mp hx]
      refine ⟨⟨e.nextSession, g.name, e.now⟩, ?_, hps.symm, hpg.symm⟩
      rw [openSession_sessions, hpi]
      exact Std.ExtTreeMap.getElem?_insert_self
  case single =>
    rw [hlive, List.map_append, List.nodup_append]
    refine ⟨h.single, by simp, fun x hx y hy he => h.unborn ?_⟩
    rw [List.map_singleton, List.mem_singleton, hps] at hy
    exact hy ▸ he ▸ hx
  case proper => exact proper_append h.proper rfl

theorem Coherent.close (h : Coherent e) {index : Nat} {s : Session} (outcome : SessionOutcome)
    (hs : e.sessions[index]? = some s) (hu : e.Unwatched index) :
    Coherent (e.closeSession index s outcome) := by
  constructor
  case shown =>
    intro i
    refine (h.flag (h.named index s hs) false i).trans ?_
    rw [closeSession_names, closeSession_sessions, contains_erase]
  case indexed => exact Registry.setTesting_indexed h.indexed index s.group false
  case named =>
    intro i x hx
    rw [closeSession_names]
    exact h.named i x (entry_erase hx).2
  case used => exact fun i x hx => h.used i x (entry_erase hx).2
  case past => exact fun i x hx => h.past i x (entry_erase hx).2
  case distinct =>
    exact fun i j x y hx hy => h.distinct i j x y (entry_erase hx).2 (entry_erase hy).2
  case watched =>
    intro plan hp
    obtain ⟨x, hx, hid, hgr⟩ := h.watched plan hp
    have hi := unwatched_ne hu hp hx hid
    refine ⟨x, ?_, hid, hgr⟩
    rw [closeSession_sessions]
    simpa only [Std.ExtTreeMap.getElem?_erase, Nat.compare_eq_eq, if_neg hi] using hx
  case single => exact h.single
  case proper => exact h.proper

theorem Coherent.swap (h : Coherent e) {names : List String}
    (hs : ∀ i : Nat, e.sessions[i]? = none) (hn : e.registry.names ≠ names) :
    Coherent { e with registry := (e.registry.replace names).1 } := by
  have hnone : ∀ (i : Nat) (s : Session), e.sessions[i]? ≠ some s := fun i s hx => by
    rw [hs i] at hx
    cases hx
  constructor
  case shown =>
    intro i
    refine (Registry.replace_tag e.registry hn i).trans ?_
    have hc : e.sessions.contains i = false := by
      rw [Std.ExtTreeMap.contains_eq_isSome_getElem?, hs i]
      rfl
    rw [hc, Registry.replace_names]
  case indexed => exact Registry.replace_indexed h.indexed names
  case named => exact fun i s hx => absurd hx (hnone i s)
  case used => exact h.used
  case past => exact h.past
  case distinct => exact h.distinct
  case watched =>
    intro plan hp
    obtain ⟨x, hx, _⟩ := h.watched plan hp
    exact absurd hx (hnone _ x)
  case single => exact h.single
  case proper => exact h.proper

theorem Move.coherent {m : Option Mark} (hm : Move m e e') (h : Coherent e) : Coherent e' := by
  cases hm with
  | quiet hq =>
    refine h.frame (congrArg _ hq.registry) ?_ hq.sessions (Nat.le_of_eq hq.nextSession.symm)
      (Nat.le_of_eq hq.now.symm) ?_ ?_
    · exact hq.board ▸ .refl _
    · exact hq.tasks ▸ List.Sublist.refl _
    · rw [hq.tasks]
      exact h.proper
  | retask tasks nextTask hp ha =>
    exact h.frame rfl (.refl _) rfl (Nat.le_refl _) (Nat.le_refl _) hp (ha h.proper)
  | park ht hr hn => exact h.park ht hr hn
  | write w hw =>
    exact h.frame (Registry.Write.names_apply _ w) (Registry.Write.apply_keeps h.aligned hw) rfl
      (Nat.le_refl _) (Nat.le_refl _) (.refl _) h.proper
  | settings overrides hb =>
    exact h.frame rfl hb.same.keeps rfl (Nat.le_refl _) (Nat.le_refl _) (.refl _) h.proper
  | resort now =>
    exact h.frame rfl (Board.serveResorting_keeps _ now) rfl (Nat.le_refl _) (Nat.le_refl _)
      (.refl _) h.proper
  | count => exact h.frame rfl (.refl _) rfl (Nat.le_succ _) (Nat.le_refl _) (.refl _) h.proper
  | yield => exact h.frame rfl (.refl _) rfl (Nat.le_refl _) (Nat.le_refl _) (.refl _) h.proper
  | «open» hg hu => exact h.open hg hu
  | close outcome hs hu => exact h.close outcome hs hu
  | swap names hs hn => exact h.swap hs hn
  | clock ht => exact h.frame rfl (.refl _) rfl (Nat.le_refl _) ht (.refl _) h.proper

theorem open_follows (e : Engine σ) (index : Nat) (g : Group) :
    Follows e ({ e with nextSession := e.nextSession + 1 }.openSession index e.nextSession g) := by
  obtain ⟨new, hnew⟩ := Registry.setTesting_events e.registry index g.name true
  refine ⟨Nat.le_refl _, Nat.le_succ _, fun i s hs => ?_, new, hnew.symm, fun i hi hn => ?_⟩
  · rcases entry_insert hs with ⟨_, rfl⟩ | ⟨_, hs⟩
    · exact .inr ⟨Nat.le_refl _, Nat.le_refl _⟩
    · exact .inl hs
  · exact absurd (Std.ExtTreeMap.mem_insert.mpr (.inr hi)) hn

theorem Coherent.tested (h : Coherent e) {index : Nat} {s : Session}
    (hs : e.sessions[index]? = some s) :
    ∃ r, e.board.records[index]? = some r ∧ r.group.name = s.group ∧ r.testing = true := by
  have hc : e.sessions.contains index = true := by
    rw [Std.ExtTreeMap.contains_eq_isSome_getElem?, hs]
    rfl
  have ht := h.shown index
  rw [h.named index s hs, hc] at ht
  obtain ⟨r, hr, hrt⟩ := Option.map_eq_some_iff.mp ht
  obtain ⟨hname, htesting⟩ := Prod.mk.inj hrt
  exact ⟨r, hr, hname, htesting⟩

theorem Coherent.close_events (h : Coherent e) {index : Nat} {s : Session}
    (outcome : SessionOutcome) (hs : e.sessions[index]? = some s) :
    (e.closeSession index s outcome).board.events =
      [.updated index (e.board.revision + 1)] ++ e.board.events := by
  obtain ⟨r, hr, _, ht⟩ := h.tested hs
  have hput : (e.board.setTesting index false).1 = _ :=
    Board.setTesting_put e.board hr (by simp [ht])
  have hb := Registry.setTesting_board (h.named index s hs) false
  show (e.registry.setTesting index s.group false).1.board.events = _
  rw [hb]
  exact congrArg Board.events hput

theorem Coherent.close_follows (h : Coherent e) {index : Nat} {s : Session}
    (outcome : SessionOutcome) (hs : e.sessions[index]? = some s) :
    Follows e (e.closeSession index s outcome) := by
  refine ⟨Nat.le_refl _, Nat.le_refl _, fun i x hx => .inl (entry_erase hx).2, _,
    h.close_events outcome hs, fun i hi hn => ?_⟩
  have he : i = index := by
    rw [closeSession_sessions, ← Std.ExtTreeMap.contains_iff_mem, contains_erase] at hn
    split at hn
    · assumption
    · exact absurd (Std.ExtTreeMap.contains_iff_mem.mpr hi) hn
  rw [he]
  exact ⟨_, List.mem_singleton_self _⟩

theorem Move.follows {m : Option Mark} (hm : Move m e e') (h : Coherent e) : Follows e e' := by
  cases hm with
  | quiet hq =>
    refine .of_sessions (Nat.le_of_eq hq.now.symm) (Nat.le_of_eq hq.nextSession.symm) hq.sessions ?_
    exact hq.board ▸ List.suffix_refl _
  | retask tasks nextTask hp ha =>
    exact .of_sessions (Nat.le_refl _) (Nat.le_refl _) rfl (List.suffix_refl _)
  | park ht hr hn => exact .of_sessions (Nat.le_refl _) (Nat.le_refl _) rfl (List.suffix_refl _)
  | write w hw =>
    exact .of_sessions (Nat.le_refl _) (Nat.le_refl _) rfl
      (Registry.Write.apply_keeps h.aligned hw).events
  | settings overrides hb =>
    exact .of_sessions (Nat.le_refl _) (Nat.le_refl _) rfl hb.same.keeps.events
  | resort now =>
    exact .of_sessions (Nat.le_refl _) (Nat.le_refl _) rfl
      (Board.serveResorting_keeps _ now).events
  | count => exact .of_sessions (Nat.le_refl _) (Nat.le_succ _) rfl (List.suffix_refl _)
  | yield => exact .of_sessions (Nat.le_refl _) (Nat.le_refl _) rfl (List.suffix_refl _)
  | «open» hg hu => exact open_follows e _ _
  | close outcome hs hu => exact h.close_follows outcome hs
  | swap names hs hn =>
    exact .of_sessions (Nat.le_refl _) (Nat.le_refl _) rfl (Registry.replace_events _ _)
  | clock ht => exact .of_sessions ht (Nat.le_refl _) rfl (List.suffix_refl _)

theorem Moves.coherent (h : Moves P e e') (hc : Coherent e) : Coherent e' := by
  induction h with
  | refl => exact hc
  | tail _ hs ih =>
    obtain ⟨m, _, hs⟩ := hs
    exact hs.coherent ih

theorem Moves.follows (h : Moves P e e') (hc : Coherent e) : Follows e e' := by
  induction h with
  | refl => exact .refl e
  | tail hm hs ih =>
    obtain ⟨m, _, hs⟩ := hs
    exact ih.trans (hs.follows (Moves.coherent hm hc))

end ProxyPulse.Engine
