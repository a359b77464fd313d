import ProxyPulse.Proofs.Engine.Move

namespace ProxyPulse.Engine

variable {σ : Type} {P : Mark → Prop}

inductive May : Job → Mark → Prop
  | load {goal : LoadGoal} {loads : List Load} {index : Nat} {query : Query} :
    .asking index query ∈ loads → May (.loading goal loads) (.write index query.group)
  | stopSessions {attempt : Option Attempt} {selectableOnly : Bool} {call : Call} :
    May (.naming attempt selectableOnly call) .close
  | swap {attempt : Option Attempt} {selectableOnly : Bool} {call : Call} :
    May (.naming attempt selectableOnly call) .swap
  | choose {choice : Choice} {call : Call} :
    May (.choosing choice call) (.write choice.index choice.group)
  | testChoice {choice : Choice} {call : Call} : May (.choosing choice call) .ask
  | settings {c : Coordinator} : May (.coordinating c) .settings
  | ask {c : Coordinator} : May (.coordinating c) .ask
  | close {c : Coordinator} : May (.coordinating c) .close
  | show {job : Job} {plan : SessionPlan} :
    job.plan? = some plan → May job (.write plan.index plan.group)
  | finish {job : Job} {plan : SessionPlan} : job.plan? = some plan → May job .close
  | park {job : Job} {plan : SessionPlan} : job.plan? = some plan → May job .park

theorem cancel_moves (e : Engine σ) (session : Nat) : Moves P e (e.cancel session) := by
  apply map_moves
  · intro t
    split
    · exact .inr rfl
    · exact .inl rfl
  · intro t ht
    split
    · next hs =>
      intro _
      obtain ⟨plan, hp, _⟩ := Option.map_eq_some_iff.mp hs
      show t.job.plan?.isSome = true
      rw [hp]
      rfl
    · exact ht

theorem cancel_unwatched (e : Engine σ) (session : Nat) :
    session ∉ (livePlans (e.cancel session).tasks).map SessionPlan.session := by
  intro h
  obtain ⟨plan, hp, hs⟩ := List.mem_map.mp h
  obtain ⟨t, ht, hp⟩ := List.mem_filterMap.mp hp
  obtain ⟨u, _, rfl⟩ := List.mem_map.mp ht
  split at hp
  · cases hp
  · next hu =>
    apply hu
    unfold Task.plan? at hp
    split at hp
    · cases hp
    · rw [Job.session?, hp, ← hs, Option.map_some]

theorem requestTest_moves (hP : P .ask) (e : Engine σ) (index : Nat) :
    Moves P e (e.requestTest index).1 := by
  unfold requestTest
  split
  · exact .refl P e
  · next g hg =>
    split
    · exact .refl P e
    · dsimp only
      split
      · next hn =>
        exact (Move.open hg fun s hs => by rw [hn] at hs; cases hs).marked hP
      · next running hr =>
        split
        · exact Move.count.marked hP
        · have hc : Moves P e ((e.cancel running.id).measure (.sessionEnded .stopped)) :=
            (cancel_moves e running.id).trans (Move.yield.marked hP)
          refine hc.trans (Move.marked (.open hg fun s hs => ?_) hP)
          have he : s = running := Option.some.inj (hs.symm.trans hr)
          exact he ▸ cancel_unwatched e running.id

theorem requestBackgroundTest_moves (hP : P .ask) (e : Engine σ) (index : Nat) :
    Moves P e (e.requestBackgroundTest index).1 := by
  unfold requestBackgroundTest
  dsimp only
  split
  · exact .refl P e
  · exact requestTest_moves hP e index

theorem stopSession_moves (hP : P .close) (e : Engine σ) (index : Nat) (outcome : SessionOutcome) :
    Moves P e (e.stopSession index outcome).1 := by
  unfold stopSession
  split
  · exact .refl P e
  · next s hs =>
    refine (cancel_moves e s.id).trans (Move.marked (.close outcome hs fun x hx => ?_) hP)
    have he : x = s := Option.some.inj (hx.symm.trans hs)
    exact he ▸ cancel_unwatched e s.id

theorem stopSessions_fst (indices : List Nat) (outcome : SessionOutcome) (e : Engine σ) :
    (e.stopSessions indices outcome).1 =
      indices.foldl (fun e index => (e.stopSession index outcome).1) e := by
  unfold stopSessions
  generalize 0 = count
  induction indices generalizing e count with
  | nil => rfl
  | cons i rest ih => exact ih _ _

theorem stopSessions_moves (hP : P .close) (indices : List Nat) (outcome : SessionOutcome)
    (e : Engine σ) : Moves P e (e.stopSessions indices outcome).1 := by
  rw [stopSessions_fst]
  induction indices generalizing e with
  | nil => exact .refl P e
  | cons i rest ih => exact (stopSession_moves hP e i outcome).trans (ih _)

theorem stopSessions_keep {α : Type} (f : Engine σ → α)
    (hf : ∀ e index outcome, f (e.stopSession index outcome).1 = f e) (indices : List Nat)
    (outcome : SessionOutcome) (e : Engine σ) : f (e.stopSessions indices outcome).1 = f e := by
  rw [stopSessions_fst]
  induction indices generalizing e with
  | nil => rfl
  | cons i rest ih => exact (ih _).trans (hf e i outcome)

theorem stopSession_sessions (e : Engine σ) (index : Nat) (outcome : SessionOutcome) (i : Nat) :
    (e.stopSession index outcome).1.sessions[i]? = if index = i then none else e.sessions[i]? := by
  unfold stopSession
  split
  · next hs =>
    split
    · next h => exact h ▸ hs
    · rfl
  · simp [closeSession, cancel, write, measureSessions, measure, Std.ExtTreeMap.getElem?_erase]

theorem stopSessions_sessions (indices : List Nat) (outcome : SessionOutcome) (e : Engine σ)
    (i : Nat) :
    (e.stopSessions indices outcome).1.sessions[i]? =
      if i ∈ indices then none else e.sessions[i]? := by
  rw [stopSessions_fst]
  induction indices generalizing e with
  | nil => rfl
  | cons j rest ih =>
    rw [List.foldl_cons, ih, stopSession_sessions]
    by_cases hr : i ∈ rest
    · rw [if_pos hr, if_pos (List.mem_cons_of_mem j hr)]
    · by_cases hj : j = i
      · rw [if_neg hr, if_pos hj, if_pos (hj ▸ List.mem_cons_self)]
      · have hn : i ∉ j :: rest := List.not_mem_cons_of_ne_of_not_mem (Ne.symm hj) hr
        rw [if_neg hr, if_neg hj, if_neg hn]

theorem stopAll_sessions (e : Engine σ) (i : Nat) : e.stopAll.1.sessions[i]? = none := by
  unfold stopAll
  rw [stopSessions_sessions]
  split
  · rfl
  · next hn =>
    rw [Std.ExtTreeMap.mem_keys, Std.ExtTreeMap.mem_iff_isSome_getElem?] at hn
    exact Option.not_isSome_iff_eq_none.mp hn

theorem stopSession_names (e : Engine σ) (index : Nat) (outcome : SessionOutcome) :
    (e.stopSession index outcome).1.registry.names = e.registry.names := by
  unfold stopSession
  split
  · rfl
  · exact Registry.setTesting_names e.registry index _ false

theorem stopAll_names (e : Engine σ) : e.stopAll.1.registry.names = e.registry.names :=
  stopSessions_keep (·.registry.names) stopSession_names e.sessions.keys .stopped e

def Shows (plan : SessionPlan) (m : Mark) : Prop :=
  m = .write plan.index plan.group

theorem foldl_learn_quiet (delays : List (String × Int)) (e : Engine σ) :
    Quiet e (delays.foldl (fun e (proxy, delay) => e.learn proxy delay) e) := by
  induction delays generalizing e with
  | nil => exact .refl e
  | cons d rest ih => exact (learn_quiet e d.1 d.2).trans (ih _)

theorem applyPoll_moves (e : Engine σ) (plan : SessionPlan) (report : GroupReport) :
    Moves (Shows plan) e (e.applyPoll plan report) := by
  have hl := foldl_learn_quiet (DelayTable.ofMembers report.members).toList e
  have hd := Move.marked (P := Shows plan) (.write
    (e := (DelayTable.ofMembers report.members).toList.foldl
      (fun e (proxy, delay) => e.learn proxy delay) e)
    (.updateDelays plan.index plan.group (DelayTable.ofMembers report.members)) rfl) rfl
  unfold applyPoll
  dsimp only
  split
  · exact hl.moves.trans hd
  · next now _ =>
    exact (hl.moves.trans hd).trans
      (Move.marked (.write (.setSelection plan.index plan.group now) rfl) rfl)

theorem poll_moves (C : Core σ) (e : Engine σ) (plan : SessionPlan) (p : Polling) (query : Query) :
    Moves (Shows plan) e (e.poll C plan p query).1 := by
  have hq := (advanceQuery_quiet C query e).moves (P := Shows plan)
  unfold poll
  split
  · next he => rw [he] at hq; exact hq
  · next he => rw [he] at hq; exact hq
  · next report he => rw [he] at hq; exact hq.trans (applyPoll_moves _ plan report)

theorem tick_moves (C : Core σ) (e : Engine σ) (plan : SessionPlan) (p : Polling) :
    Moves P e (e.tick C plan p).1 := by
  unfold tick
  split
  · exact (query_quiet C _ _ _ e).moves
  · split <;> exact .refl P e

theorem collect_moves (e : Engine σ) (plan : SessionPlan) (missing deadline : Nat)
    (inbox : List (String × Int)) :
    Moves (Shows plan) e (e.collect plan missing deadline inbox).1 := by
  unfold collect
  split
  · next proxy delay rest =>
    exact Move.marked (.write (.updateDelay plan.index plan.group proxy delay) rfl) rfl
  · exact .refl _ e

theorem openPolling_moves (e : Engine σ) (plan : SessionPlan) :
    Moves P e (e.openPolling plan).1 := by
  have h : Moves P e (e.spawn (.triggering plan.session plan.group plan.budget.maxWait none)) :=
    spawn_moves e rfl
  unfold openPolling
  dsimp only
  split
  · exact h
  · split <;> exact h

theorem openProbes_moves (e : Engine σ) (plan : SessionPlan) :
    Moves P e (e.openProbes plan).1 := by
  unfold openProbes
  split
  · exact .refl P e
  · exact spawn_moves e rfl

theorem stepSession_moves (C : Core σ) (e : Engine σ) {job : Job} {plan : SessionPlan}
    (h : job.plan? = some plan) : Moves (Shows plan) e (e.stepSession C job).1 := by
  cases job with
  | opening p =>
    cases h
    unfold stepSession
    dsimp only
    split
    · exact openPolling_moves e plan
    · exact openProbes_moves e plan
  | ticking p polling => cases h; exact tick_moves C e plan polling
  | polling p polling query => cases h; exact poll_moves C e plan polling query
  | collecting p missing deadline inbox => cases h; exact collect_moves e plan missing deadline inbox
  | _ => cases h

section

variable {C : Core σ} {e : Engine σ} {plan : SessionPlan} {next : Job}

theorem openPolling_plan (h : (e.openPolling plan).2 = .wait next) : next.plan? = some plan := by
  unfold openPolling at h
  dsimp only at h
  split at h
  · cases h
  · split at h
    · cases h
    · cases h; rfl

theorem openProbes_plan (h : (e.openProbes plan).2 = .wait next) : next.plan? = some plan := by
  unfold openProbes at h
  split at h
  · cases h
  · cases h; rfl

theorem tick_plan {p : Polling} (h : (e.tick C plan p).2 = .wait next) :
    next.plan? = some plan := by
  unfold tick at h
  split at h
  · cases h; rfl
  · split at h
    · cases h
    · cases h; rfl

theorem afterPoll_plan {p : Polling} {found : Option DelayTable}
    (h : e.afterPoll plan p found = .wait next) : next.plan? = some plan := by
  unfold afterPoll at h
  dsimp only at h
  split at h
  · cases h
  · split at h
    · cases h
    · cases h; rfl

theorem poll_plan {p : Polling} {query : Query} (h : (e.poll C plan p query).2 = .wait next) :
    next.plan? = some plan := by
  unfold poll at h
  split at h
  · cases h; rfl
  · dsimp only at h; exact afterPoll_plan h
  · dsimp only at h; exact afterPoll_plan h

theorem collect_plan {missing deadline : Nat} {inbox : List (String × Int)}
    (h : (e.collect plan missing deadline inbox).2 = .wait next) : next.plan? = some plan := by
  unfold collect at h
  split at h
  · dsimp only at h
    split at h
    · cases h
    · cases h; rfl
  · dsimp only at h
    split at h
    · cases h
    · split at h
      · cases h
      · cases h; rfl

theorem stepSession_plan {job : Job} (h : job.plan? = some plan)
    (hn : (e.stepSession C job).2 = .wait next) : next.plan? = some plan := by
  cases job with
  | opening p =>
    cases h
    unfold stepSession at hn
    dsimp only at hn
    split at hn
    · exact openPolling_plan hn
    · exact openProbes_plan hn
  | ticking p polling => cases h; exact tick_plan hn
  | polling p polling query => cases h; exact poll_plan hn
  | collecting p missing deadline inbox => cases h; exact collect_plan hn
  | _ => cases h

end

theorem finishSession_cases (e : Engine σ) (plan : SessionPlan) (outcome : SessionOutcome) :
    e.finishSession plan outcome = e ∨ ∃ s, e.sessions[plan.index]? = some s ∧
      s.id = plan.session ∧
      e.finishSession plan outcome = e.closeSession plan.index s outcome := by
  unfold finishSession
  split
  · exact .inl rfl
  · next s hs =>
    split
    · next hid => exact .inr ⟨s, hs, hid, rfl⟩
    · exact .inl rfl

structure Yields (P : Mark → Prop) (e : Engine σ) (x : Engine σ × RequestMove) : Prop where
  moves : Moves P e x.1
  plan : ∀ job, x.2 = .wait job → job.plan? = none

theorem Yields.after {e e' : Engine σ} {x : Engine σ × RequestMove} (h : Moves P e e')
    (hx : Yields P e' x) : Yields P e x :=
  ⟨h.trans hx.moves, hx.plan⟩

theorem yields_done {e e' : Engine σ} (h : Moves P e e') (result : Result) :
    Yields P e (e', .done result) :=
  ⟨h, fun _ h => nomatch h⟩

theorem yields_wait {e e' : Engine σ} (h : Moves P e e') {job : Job} (hj : job.plan? = none) :
    Yields P e (e', .wait job) :=
  ⟨h, fun _ h => by cases h; exact hj⟩

/-- At most one of the loads goes on. -/
inductive LoadTurn (C : Core σ) (e : Engine σ) : List Load → Engine σ × List Load → Prop
  | none {loads : List Load} : LoadTurn C e loads (e, loads)
  | one (before after : List Load) (index : Nat) (query : Query) :
    LoadTurn C e (before ++ .asking index query :: after)
      ((stepLoad C e index query).1, before ++ (stepLoad C e index query).2 :: after)

theorem LoadTurn.cons {C : Core σ} {e : Engine σ} {loads : List Load} {x : Engine σ × List Load}
    (h : LoadTurn C e loads x) (load : Load) : LoadTurn C e (load :: loads) (x.1, load :: x.2) := by
  cases h with
  | none => exact .none
  | one before after index query => exact .one (load :: before) after index query

section

variable (C : Core σ) (e : Engine σ)

theorem call_yields (operation : Operation) (limit : Option Nat) {job : Call → Job}
    (hj : ∀ call, (job call).plan? = none) :
    Yields P e ((e.call C operation limit).1, .wait (job (e.call C operation limit).2)) :=
  yields_wait (call_quiet C operation limit e).moves (hj _)

theorem startLoad_quiet (index : Nat) : Quiet e (startLoad C e index).1 := by
  unfold startLoad
  split
  · exact .refl e
  · exact query_quiet C _ _ _ e

theorem startLoads_quiet (indices : List Nat) : Quiet e (startLoads C e indices).1 := by
  induction indices generalizing e with
  | nil => exact .refl e
  | cons i rest ih => exact (startLoad_quiet C e i).trans (ih _)

theorem fillDelay_quiet (p : Proxy) : Quiet e (e.fillDelay p).1 := by
  unfold fillDelay
  split
  · exact .refl e
  · exact lookUp_quiet e p.name

theorem fillDelays_quiet (members : List Proxy) : Quiet e (e.fillDelays members).1 := by
  induction members generalizing e with
  | nil => exact .refl e
  | cons p rest ih => exact (fillDelay_quiet e p).trans (ih _)

theorem applyReport_moves {index : Nat} {group : String} (hP : P (.write index group))
    (report : GroupReport) : Moves P e (e.applyReport index group report) :=
  (fillDelays_quiet e report.members).moves.trans (Move.marked (.write (.publish index
    ⟨group, (e.fillDelays report.members).2, report.selectable, report.now?⟩) rfl) hP)

theorem stepLoad_moves {index : Nat} {query : Query} (hP : P (.write index query.group)) :
    Moves P e (stepLoad C e index query).1 := by
  have hq := (advanceQuery_quiet C query e).moves (P := P)
  unfold stepLoad
  split
  · next he => rw [he] at hq; exact hq
  · next he => rw [he] at hq; exact hq
  · next report he => rw [he] at hq; exact hq.trans (applyReport_moves _ hP report)

theorem stepLoads_turn (loads : List Load) : LoadTurn C e loads (stepLoads C e loads) := by
  induction loads with
  | nil => exact .none
  | cons load rest ih =>
    cases load with
    | done ok => exact ih.cons _
    | asking index query =>
      unfold stepLoads
      dsimp only
      split
      · exact .one [] rest index query
      · exact ih.cons _

theorem stepLoads_moves (loads : List Load)
    (hP : ∀ index query, .asking index query ∈ loads → P (.write index query.group)) :
    Moves P e (stepLoads C e loads).1 := by
  have h := stepLoads_turn C e loads
  generalize stepLoads C e loads = x at h
  cases h with
  | none => exact .refl P e
  | one => exact stepLoad_moves C e (hP _ _ (by simp))

theorem loadMove_plan (goal : LoadGoal) (loads : List Load) (job : Job)
    (h : loadMove goal loads = .wait job) : job.plan? = none := by
  unfold loadMove at h
  split at h
  · cases h
  · cases h; rfl

theorem load_yields (goal : LoadGoal) (indices : List Nat) : Yields P e (load C e goal indices) :=
  ⟨(startLoads_quiet C e indices).moves, loadMove_plan goal _⟩

theorem applyNames_of_eq {names : List String} (h : e.registry.names = names) :
    e.applyNames names = (e, false) := by
  rw [applyNames, if_pos h]

theorem applyNames_of_ne {names : List String} (h : e.registry.names ≠ names) :
    e.applyNames names =
      ({ e.stopAll.1 with
          registry := (e.stopAll.1.registry.replace names).1
          cache := e.stopAll.1.cache.keep
            (e.stopAll.1.registry.replace names).2.referenced.toList }, true) := by
  have hs : e.stopAll.1.registry.names ≠ names := stopAll_names e ▸ h
  simp only [applyNames, if_neg h, Registry.replace, if_neg hs, if_true]

theorem applyNames_moves (hc : P .close) (hs : P .swap) (names : List String) :
    Moves P e (e.applyNames names).1 := by
  by_cases h : e.registry.names = names
  · rw [applyNames_of_eq e h]
    exact .refl P e
  · rw [applyNames_of_ne e h]
    have hstop : Moves P e e.stopAll.1 := stopSessions_moves hc _ _ e
    have hn : e.stopAll.1.registry.names ≠ names := stopAll_names e ▸ h
    have hswap := hstop.trans (Move.marked (.swap names (stopAll_sessions e) hn) hs)
    exact hswap.trans (Quiet.moves ⟨rfl, rfl, rfl, rfl, rfl, rfl, rfl, rfl⟩)

theorem askNames_yields (attempt : Option Attempt) : Yields P e (askNames C e attempt) :=
  call_yields C e (.names _) (some _) fun _ => rfl

theorem retry_yields (attempt : Attempt) : Yields P e (retry C e attempt) := by
  unfold retry
  split
  · refine yields_wait (Quiet.moves ?_) rfl
    exact ⟨rfl, rfl, rfl, rfl, rfl, rfl, rfl, rfl⟩
  · exact yields_done (.refl P e) _

theorem takeNames_yields (hc : P .close) (hs : P .swap) (attempt : Option Attempt)
    (answer : Answer (List String)) : Yields P e (takeNames C e attempt answer) := by
  unfold takeNames
  split
  · exact retry_yields C e _
  · exact retry_yields C e _
  · exact .after (applyNames_moves e hc hs _) (load_yields C _ _ _)
  · exact yields_done (.refl P e) _
  · next names =>
    have hn := applyNames_moves e hc hs names
    dsimp only
    split
    · exact .after hn (load_yields C _ _ _)
    · exact yields_done hn _

theorem startChoice_yields (index : Nat) (proxy : String) :
    Yields P e (startChoice C e index proxy) := by
  unfold startChoice
  split
  · exact yields_done (.refl P e) _
  · exact call_yields C e (.choose _ proxy) (some _) fun _ => rfl

theorem testInBackground_moves (hP : P .ask) (group : String) :
    Moves P e (e.testInBackground group) := by
  unfold testInBackground
  split
  · exact requestBackgroundTest_moves hP e _
  · exact spawn_moves e rfl

theorem takeChoice_yields {choice : Choice} (hw : P (.write choice.index choice.group))
    (ha : P .ask) (answer : Answer Bool) : Yields P e (e.takeChoice choice answer) := by
  have hs := Move.marked (P := P)
    (.write (e := e) (.setSelection choice.index choice.group choice.proxy) rfl) hw
  unfold takeChoice
  split
  · exact yields_done (.refl P e) _
  · exact yields_done (.refl P e) _
  · dsimp only
    split
    · exact yields_done (hs.trans (testInBackground_moves _ ha _)) _
    · exact yields_done hs _

theorem startWalk_yields (current : Bool) (trail : Trail) (limit : Nat) :
    Yields P e (startWalk C e current trail limit) :=
  call_yields C e (.report trail.here .listed) (some limit) fun _ => rfl

theorem takeStep_yields (current : Bool) (trail : Trail) (limit : Nat)
    (answer : Answer GroupReport) : Yields P e (takeStep C e current trail limit answer) := by
  unfold takeStep
  split
  · exact yields_done (.refl P e) _
  · exact yields_done (.refl P e) _
  · exact startWalk_yields C e current _ limit

theorem startRequest_yields (r : Request) : Yields P e (startRequest C e r) := by
  cases r with
  | prefetch => exact askNames_yields C e _
  | reload index => exact load_yields C e .one [index]
  | reloadAll => exact load_yields C e .all _
  | refresh => exact askNames_yields C e none
  | select index proxy => exact startChoice_yields C e index proxy
  | setMode mode => exact call_yields C e (.setMode mode) (some _) fun _ => rfl
  | resolve group => exact startWalk_yields C e false _ _
  | current =>
    unfold startRequest
    dsimp only
    split
    · exact yields_done (.refl P e) _
    · exact startWalk_yields C e true _ _
  | probe proxy => exact call_yields C e (.probe proxy) none fun _ => rfl
  | mode => exact call_yields C e .mode none fun _ => rfl

theorem hear_moves {α : Type} (call : Call) (answer : σ → σ × Option (Answer α)) {e' : Engine σ}
    {x : Call ⊕ Answer α} (h : e.hear call answer = (e', x)) : Moves P e e' := by
  have hq := (hear_quiet call answer e).moves (P := P)
  rwa [h] at hq

theorem heard_moves {α : Type} (call : Call) (answer : σ → σ × Option (Answer α))
    (operation : Operation) {e' : Engine σ} {a : Answer α}
    (h : e.hear call answer = (e', .inr a)) : Moves P e (note operation a e') :=
  (hear_moves e call answer h).trans (note_quiet operation a e').moves

theorem stepRequest_yields {job : Job} (h : job.plan? = none) :
    Yields (May job) e (stepRequest C e job) := by
  cases job with
  | start r => exact startRequest_yields C e r
  | loading goal loads =>
    exact ⟨stepLoads_moves C e loads fun _ _ h => .load h, loadMove_plan goal _⟩
  | naming attempt selectableOnly call =>
    unfold stepRequest
    dsimp only
    split
    · next he => exact yields_wait (hear_moves e _ _ he) rfl
    · next answer he =>
      exact .after (heard_moves e _ _ _ he)
        (takeNames_yields C _ .stopSessions .swap attempt answer)
  | pausing attempt due =>
    unfold stepRequest
    dsimp only
    split
    · exact askNames_yields C e _
    · exact yields_wait (.refl _ e) rfl
  | choosing choice call =>
    unfold stepRequest
    dsimp only
    split
    · next he => exact yields_wait (hear_moves e _ _ he) rfl
    · next answer he =>
      exact .after (heard_moves e _ _ _ he)
        (takeChoice_yields _ .choose .testChoice answer)
  | settingMode mode call =>
    unfold stepRequest
    dsimp only
    split
    · next he => exact yields_wait (hear_moves e _ _ he) rfl
    · next answer he =>
      exact yields_done (heard_moves e _ _ _ he) _
  | walking current trail limit call =>
    unfold stepRequest
    dsimp only
    split
    · next he => exact yields_wait (hear_moves e _ _ he) rfl
    · next answer he =>
      exact .after (heard_moves e _ _ _ he)
        (takeStep_yields C _ current trail limit answer)
  | probing proxy call =>
    unfold stepRequest
    dsimp only
    split
    · next he => exact yields_wait (hear_moves e _ _ he) rfl
    · next he => exact yields_done (hear_moves e _ _ he) _
  | readingMode call =>
    unfold stepRequest
    dsimp only
    split
    · next he => exact yields_wait (hear_moves e _ _ he) rfl
    · next he => exact yields_done (hear_moves e _ _ he) _
  | triggering session group limit call => exact yields_wait (.refl _ e) rfl
  | batch probes => exact yields_wait (.refl _ e) rfl
  | coordinating c => exact yields_wait (.refl _ e) rfl
  | opening plan => cases h
  | ticking plan p => cases h
  | polling plan p query => cases h
  | collecting plan missing deadline inbox => cases h

end

section

variable (C : Core σ) (e : Engine σ)

theorem report_moves (session : Nat) (proxy : String) (delay : Int) :
    Moves P e (e.report session proxy delay) := by
  apply map_moves
  · intro t
    refine .inl ?_
    cases hj : t.job with
    | collecting plan missing deadline inbox =>
      dsimp only
      split
      · simp [Task.plan?, Job.plan?, hj]
      · rfl
    | _ => rfl
  · intro t ht
    cases hj : t.job with
    | collecting plan missing deadline inbox =>
      dsimp only
      split
      · exact fun _ => rfl
      · exact ht
    | _ => exact ht

theorem endedProbe_quiet (running : List (String × Call)) :
    Quiet e (endedProbe C e running).1 := by
  induction running generalizing e with
  | nil => exact .refl e
  | cons probe rest ih =>
    obtain ⟨proxy, call⟩ := probe
    have hq := hear_quiet call (C.probe proxy) e
    unfold endedProbe
    split
    · next he => rw [he] at hq; exact hq
    · next he => rw [he] at hq; exact hq.trans (ih _)

theorem settle_moves (b : ProbeBatch) : Moves P e (stepBatch.settle C b e).1 := by
  have hq := (endedProbe_quiet C e b.running).moves (P := P)
  unfold stepBatch.settle
  split
  · next he => rw [he] at hq; exact hq
  · next proxy answer running he =>
    rw [he] at hq
    exact ((hq.trans (note_quiet (.probe proxy) answer _).moves).trans
      (learn_quiet _ proxy _).moves).trans (report_moves _ _ _ _)

theorem stepBatch_moves (b : ProbeBatch) : Moves P e (stepBatch C e b).1 := by
  unfold stepBatch
  split
  · split
    · exact (call_quiet C (.probe _) (some b.limit) e).moves
    · exact settle_moves C e b
  · exact settle_moves C e b

theorem stepTrigger_moves (group : String) (limit : Nat) (call : Option Call) :
    Moves P e (stepTrigger C e group limit call).1 := by
  unfold stepTrigger
  split
  · exact (call_quiet C (.trigger group) (some limit) e).moves
  · split
    · next he => exact hear_moves e _ _ he
    · next answer he => exact heard_moves e _ _ _ he

end

section

variable (e : Engine σ)

theorem setSortByDelay_moves (hP : P .settings) (on : Bool) : Moves P e (e.setSortByDelay on) :=
  Move.marked (.settings _ (.sort on)) hP

theorem applyConfig_moves (hP : P .settings) (next : Config) : Moves P e (e.applyConfig next) :=
  Move.marked (.settings e.overrides (.configure _)) hP

theorem sweep_moves (hP : P .close) : Moves P e e.sweep :=
  (stopSessions_moves hP _ _ e).trans (evict_quiet _).moves

theorem dispatch_moves (hs : P .settings) (ha : P .ask) (hc : P .close) (intent : Intent) :
    Moves P e (e.dispatch intent) := by
  cases intent with
  | reloadAll => exact spawn_moves e rfl
  | reload index => exact spawn_moves e rfl
  | select index proxy => exact spawn_moves e rfl
  | test index => exact requestTest_moves ha e index
  | setMode mode => exact spawn_moves e rfl
  | stop index => exact stopSession_moves hc e index _
  | stopAll => exact stopSessions_moves hc _ _ e
  | refresh => exact spawn_moves e rfl
  | sortByDelay on => exact setSortByDelay_moves e hs on

theorem takeBranch_moves (hs : P .settings) (ha : P .ask) (hc : P .close) (c : Coordinator)
    (branch : Coordinator.Branch) : Moves P e (e.takeBranch c branch).1 := by
  cases branch with
  | intent =>
    unfold takeBranch
    dsimp only
    split
    · exact dispatch_moves e hs ha hc _
    · exact stopSessions_moves hc _ _ e
  | tick => exact sweep_moves e hc
  | update =>
    unfold takeBranch
    dsimp only
    split
    · exact applyConfig_moves e hs _
    · exact .refl P e
  | stop => exact stopSessions_moves hc _ _ e

theorem stepCoordinator_moves (hs : P .settings) (ha : P .ask) (hc : P .close) (c : Coordinator) :
    Moves P e (e.stepCoordinator c).1 := by
  unfold stepCoordinator
  split
  · exact takeBranch_moves e hs ha hc c _
  · exact .refl P e

theorem changeCoordinator_moves (handle : Nat) (change : Coordinator → Coordinator) :
    Moves P e (e.changeCoordinator handle change) := by
  apply map_moves
  · intro t
    refine .inl ?_
    cases hj : t.job with
    | coordinating c =>
      dsimp only
      split
      · simp [Task.plan?, Job.plan?, hj]
      · rfl
    | _ => rfl
  · intro t ht
    cases hj : t.job with
    | coordinating c =>
      dsimp only
      split
      · simpa [Task.Proper, Job.plan?, hj] using ht
      · exact ht
    | _ => exact ht

theorem shutdown_moves : Moves P e e.shutdown := by
  apply map_moves
  · intro t
    refine .inl ?_
    cases hj : t.job with
    | coordinating c => simp [Task.plan?, Job.plan?, hj]
    | _ => rfl
  · intro t ht
    cases hj : t.job with
    | coordinating c => simpa [Task.Proper, Job.plan?, hj] using ht
    | _ => exact ht

end

end ProxyPulse.Engine
