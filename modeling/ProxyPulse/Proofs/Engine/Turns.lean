import ProxyPulse.Proofs.Engine.Coherence
import ProxyPulse.Proofs.Engine.Schedule

namespace ProxyPulse.Engine

variable {σ : Type} {P : Mark → Prop} {e e' e'' : Engine σ}

structure Beside (e e' : Engine σ) : Prop where
  sessions : e'.sessions = e.sessions
  plans : (livePlans e'.tasks).Sublist (livePlans e.tasks)

theorem Moves.beside {plan : SessionPlan} (h : Moves (Shows plan) e e') : Beside e e' := by
  induction h with
  | refl => exact ⟨rfl, .refl _⟩
  | tail _ hs ih =>
    obtain ⟨m, hm, hs⟩ := hs
    obtain ⟨hsessions, hplans⟩ := ih
    cases hs with
    | quiet hq =>
      refine ⟨hq.sessions.trans hsessions, ?_⟩
      rw [hq.tasks]
      exact hplans
    | retask tasks nextTask hp ha => exact ⟨hsessions, hp.trans hplans⟩
    | write w hw => exact ⟨hsessions, hplans⟩
    | park | settings | resort | count | yield | «open» | close | swap | clock => cases hm _ rfl

theorem Coherent.same_task (h : Coherent e) {t u : Task} {p q : SessionPlan} (ht : t ∈ e.tasks)
    (hu : u ∈ e.tasks) (hp : t.plan? = some p) (hq : u.plan? = some q)
    (hid : p.session = q.session) : t = u := by
  have hs := h.single
  rw [livePlans, List.map_filterMap, List.Nodup, List.pairwise_filterMap] at hs
  by_cases htu : t = u
  · exact htu
  · have hsym : Std.Symm fun a b : Task => ∀ x, a.plan?.map SessionPlan.session = some x →
        ∀ y, b.plan?.map SessionPlan.session = some y → x ≠ y :=
      ⟨fun a b hab x hx y hy => (hab y hy x hx).symm⟩
    refine absurd hid (hs.forall ht hu htu p.session ?_ q.session ?_)
    · rw [hp]; rfl
    · rw [hq]; rfl

theorem Coherent.without_unwatched (h : Coherent e) {t : Task} {plan : SessionPlan}
    (ht : t ∈ e.tasks) (hp : t.plan? = some plan) :
    plan.session ∉ (livePlans (e.without t).tasks).map SessionPlan.session := by
  intro hm
  obtain ⟨other, ho, hid⟩ := List.mem_map.mp hm
  obtain ⟨u, hu, hup⟩ := List.mem_filterMap.mp ho
  obtain ⟨hu, hne⟩ := List.mem_filter.mp hu
  have htu := h.same_task hu ht hup hp hid
  simp [htu] at hne

theorem park_plan_moves (hP : P .park) {t : Task} {job : Job} {plan : SessionPlan}
    (hj : job.plan? = some plan) (hr : e.Runs plan)
    (hn : plan.session ∉ (livePlans e.tasks).map SessionPlan.session) :
    Moves P e (e.park t (some job)) :=
  Move.marked (.park (by simp [Task.plan?, hj]) hr hn) hP

theorem Shows.may {plan : SessionPlan} {m : Mark} (h : Shows plan m) {job : Job}
    (hp : job.plan? = some plan) : May job m := by
  cases h
  exact .show hp

theorem stepJob_session (C : Core σ) (e : Engine σ) (id : Nat) {job : Job} {plan : SessionPlan}
    (h : job.plan? = some plan) :
    stepJob C e id job = afterSession plan (stepSession C e job) := by
  cases job with
  | opening p | ticking p polling | polling p polling query | collecting p missing deadline inbox =>
    cases h
    rfl
  | _ => cases h

theorem session_moves (C : Core σ) (h : Coherent e) {t : Task} {plan : SessionPlan}
    (ht : t ∈ e.tasks) (ha : t.isAborted = false) (hp : t.job.plan? = some plan) :
    Moves (May t.job) (e.without t)
      ((stepJob C (e.without t) t.id t.job).1.park t (stepJob C (e.without t) t.id t.job).2) := by
  have htp : t.plan? = some plan := by
    rw [Task.plan?, ha]
    exact hp
  have hs := stepSession_moves C (e.without t) hp
  have hmay : Moves (May t.job) (e.without t) (stepSession C (e.without t) t.job).1 :=
    hs.mono fun m hm => hm.may hp
  -- what the session shows moves no entry, so its own still stands and nobody else watches it
  have hb := hs.beside
  have hrun : (stepSession C (e.without t) t.job).1.Runs plan := by
    obtain ⟨s, hs, hr⟩ := h.watched plan (List.mem_filterMap.mpr ⟨t, ht, htp⟩)
    refine ⟨s, ?_, hr⟩
    rw [hb.sessions]
    exact hs
  have hun : plan.session ∉
      (livePlans (stepSession C (e.without t) t.job).1.tasks).map SessionPlan.session :=
    fun hm => h.without_unwatched ht htp ((hb.plans.map _).subset hm)
  rw [stepJob_session C _ _ hp]
  rcases he : stepSession C (e.without t) t.job with ⟨e', move⟩
  rw [he] at hmay hrun hun
  cases move with
  | wait job =>
    have hplan := stepSession_plan hp (by rw [he])
    exact hmay.trans (park_plan_moves (.park hp) hplan hrun hun)
  | stop outcome =>
    rcases finishSession_cases e' plan outcome with hf | ⟨s, hs, hid, hf⟩
    · simp only [afterSession, hf]
      exact hmay
    · simp only [afterSession, hf]
      refine hmay.trans (Move.marked (.close outcome hs fun x hx => ?_) (.finish hp))
      have hx : x = s := Option.some.inj (hx.symm.trans hs)
      rw [hx, hid]
      exact hun
  | breakOff => exact hmay

theorem afterRequest_quiet (id : Nat) (x : Engine σ × RequestMove) :
    Quiet x.1 (afterRequest id x).1 := by
  obtain ⟨e, move⟩ := x
  cases move <;> exact ⟨rfl, rfl, rfl, rfl, rfl, rfl, rfl, rfl⟩

theorem afterRequest_wait {id : Nat} {x : Engine σ × RequestMove} {next : Job}
    (h : next ∈ (afterRequest id x).2) : x.2 = .wait next := by
  obtain ⟨e, move⟩ := x
  cases move with
  | wait job => exact congrArg RequestMove.wait (Option.some.inj h)
  | done result => cases h

theorem stepJob_moves (C : Core σ) (e : Engine σ) (id : Nat) {job : Job} (h : job.plan? = none) :
    Moves (May job) e (stepJob C e id job).1 ∧
      ∀ next ∈ (stepJob C e id job).2, next.plan? = none := by
  cases job with
  | opening p | ticking p polling | polling p polling query | collecting p missing deadline inbox =>
    cases h
  | batch b =>
    refine ⟨stepBatch_moves C e b, fun next hn => ?_⟩
    obtain ⟨x, _, rfl⟩ := Option.map_eq_some_iff.mp hn
    rfl
  | triggering session group limit call =>
    refine ⟨stepTrigger_moves C e group limit call, fun next hn => ?_⟩
    obtain ⟨x, _, rfl⟩ := Option.map_eq_some_iff.mp hn
    rfl
  | coordinating c =>
    refine ⟨stepCoordinator_moves e .settings .ask .close c, fun next hn => ?_⟩
    obtain ⟨x, _, rfl⟩ := Option.map_eq_some_iff.mp hn
    rfl
  | _ =>
    obtain ⟨hm, hp⟩ := stepRequest_yields C e h
    exact ⟨hm.trans (afterRequest_quiet id _).moves, fun next hn => hp next (afterRequest_wait hn)⟩

theorem resume_moves (C : Core σ) (h : Coherent e) {t : Task} (ht : t ∈ e.tasks) :
    Moves (May t.job) e (resume C e t) := by
  have hw : Moves (May t.job) e (e.without t) := without_moves e t
  unfold resume
  dsimp only
  split
  · exact hw.trans (abandonJob_quiet _ _).moves
  · next ha =>
    refine hw.trans ?_
    cases hp : t.job.plan? with
    | some plan => exact session_moves C h ht (by simpa using ha) hp
    | none =>
      obtain ⟨hm, hn⟩ := stepJob_moves C (e.without t) t.id hp
      exact hm.trans (park_moves _ t hn)

inductive Via (e : Engine σ) : List (TestCall σ) → Engine σ → Prop
  | silent {e' : Engine σ} : Moves (· ≠ .ask) e e' → Via e [] e'
  | ask {e' : Engine σ} (c : TestCall σ) :
    Moves (· ≠ .ask) e c.engine → Moves (· ≠ .ask) c.after e' → Via e [c] e'

theorem Via.after {calls : List (TestCall σ)} (h : Moves (· ≠ .ask) e e')
    (hv : Via e' calls e'') : Via e calls e'' := by
  cases hv with
  | silent hm => exact .silent (h.trans hm)
  | ask c hm hm' => exact .ask c (h.trans hm) hm'

theorem Via.before {calls : List (TestCall σ)} (hv : Via e calls e')
    (h : Moves (· ≠ .ask) e' e'') : Via e calls e'' := by
  cases hv with
  | silent hm => exact .silent (hm.trans h)
  | ask c hm hm' => exact .ask c hm (hm'.trans h)

theorem testCall_moves (c : TestCall σ) (hP : P .ask) : Moves P c.engine c.after := by
  unfold TestCall.after TestCall.outcome
  split
  · exact requestBackgroundTest_moves hP c.engine c.index
  · exact requestTest_moves hP c.engine c.index

theorem Via.moves {calls : List (TestCall σ)} (h : Via e calls e') :
    Moves (fun _ => True) e e' := by
  cases h with
  | silent hm => exact hm.mono fun _ _ => trivial
  | ask c hm hm' =>
    have hc := testCall_moves (P := fun _ => True) c trivial
    exact ((hm.mono fun _ _ => trivial).trans hc).trans (hm'.mono fun _ _ => trivial)

theorem branch_via (e : Engine σ) (c : Coordinator) (branch : Coordinator.Branch) :
    Via e (e.branchCalls c branch) (e.takeBranch c branch).1 := by
  cases branch with
  | intent =>
    unfold branchCalls takeBranch
    dsimp only
    cases hi : c.intents with
    | nil => exact .silent (stopSessions_moves Mark.noConfusion _ _ e)
    | cons intent rest =>
      cases intent with
      | test index => exact .ask ⟨e, index, false⟩ (.refl _ e) (.refl _ _)
      | reloadAll | reload | select | setMode | refresh => exact .silent (spawn_moves e rfl)
      | stop index => exact .silent (stopSession_moves Mark.noConfusion e index _)
      | stopAll => exact .silent (stopSessions_moves Mark.noConfusion _ _ e)
      | sortByDelay on => exact .silent (setSortByDelay_moves e Mark.noConfusion on)
  | tick => exact .silent (sweep_moves e Mark.noConfusion)
  | update =>
    refine .silent ?_
    unfold takeBranch
    dsimp only
    split
    · exact applyConfig_moves e Mark.noConfusion _
    · exact .refl _ e
  | stop => exact .silent (stopSessions_moves Mark.noConfusion _ _ e)

theorem background_via (e : Engine σ) (group : String) :
    Via e ((e.registry.indexOf? group).toList.map (⟨e, ·, true⟩)) (e.testInBackground group) := by
  unfold testInBackground
  cases hi : e.registry.indexOf? group with
  | none => exact .silent (spawn_moves e rfl)
  | some index => exact .ask ⟨e, index, true⟩ (.refl _ e) (.refl _ _)

theorem choice_via (C : Core σ) (e : Engine σ) (choice : Choice) (call : Call) :
    Via e (choiceCalls C e choice call) (stepRequest C e (.choosing choice call)).1 := by
  have hq := (hear_quiet call (C.choose choice.group choice.proxy) e).moves (P := (· ≠ .ask))
  unfold choiceCalls stepRequest
  dsimp only
  rcases he : e.hear call (C.choose choice.group choice.proxy) with ⟨e₁, x⟩
  rw [he] at hq
  rcases x with call' | error | taken
  · exact .silent hq
  · exact .silent (hq.trans (note_quiet (α := Bool) _ (.error error) e₁).moves)
  · cases taken with
    | false => exact .silent hq
    | true =>
      have hw : Moves (· ≠ .ask) e₁
          (e₁.write (·.setSelection choice.index choice.group choice.proxy)) :=
        Move.marked (.write (.setSelection choice.index choice.group choice.proxy) rfl)
          Mark.noConfusion
      cases hl : choice.leadsOn with
      | false => simpa [takeChoice, note, hl] using Via.silent (hq.trans hw)
      | true =>
        refine .after (hq.trans hw) ?_
        simp only [takeChoice, note, hl, if_true]
        exact background_via _ choice.proxy

theorem stepChoosing_via (C : Core σ) (e : Engine σ) (id : Nat) (choice : Choice) (call : Call) :
    Via e (choiceCalls C e choice call) (stepJob C e id (.choosing choice call)).1 := by
  exact (choice_via C e choice call).before (afterRequest_quiet id _).moves

theorem stepCoordinator_via (e : Engine σ) (c : Coordinator) :
    Via e ((c.branch? e.now).elim [] (e.branchCalls c)) (e.stepCoordinator c).1 := by
  unfold stepCoordinator
  cases c.branch? e.now with
  | none => exact .silent (.refl _ e)
  | some branch => exact branch_via e c branch

theorem resume_via (C : Core σ) (h : Coherent e) {t : Task} (ht : t ∈ e.tasks) :
    Via e (e.calls C (.resume t)) (resume C e t) := by
  have hm := resume_moves C h ht
  have hw : Moves (· ≠ .ask) e (e.without t) := without_moves e t
  cases ha : t.isAborted with
  | true =>
    simp only [calls, resume, ha, if_true]
    exact .silent (hw.trans (abandonJob_quiet _ _).moves)
  | false =>
    cases hj : t.job with
    | choosing choice call =>
      have hv := (stepChoosing_via C (e.without t) t.id choice call).after hw
      have hp := stepJob_moves C (e.without t) t.id
        (show (Job.choosing choice call).plan? = none from rfl)
      simp only [calls, resume, ha, hj, jobCalls]
      exact hv.before (park_moves _ t hp.2)
    | coordinating c =>
      have hv := (stepCoordinator_via (e.without t) c).after hw
      have hp := stepJob_moves C (e.without t) t.id
        (show (Job.coordinating c).plan? = none from rfl)
      simp only [calls, resume, ha, hj, jobCalls]
      exact hv.before (park_moves _ t hp.2)
    | _ =>
      have hn : Moves (· ≠ .ask) e (resume C e t) := hm.mono fun m hm => by
        rw [hj] at hm
        rintro rfl
        cases hm
      have hc : e.calls C (.resume t) = [] := by simp [calls, ha, hj, jobCalls]
      rw [hc]
      exact .silent hn

theorem turnTo_via (e : Engine σ) (t : Task) (c : Coordinator) (branch : Coordinator.Branch) :
    Via e ((e.without t).branchCalls c branch) (e.turnTo t c branch) := by
  refine (((branch_via (e.without t) c branch).after (without_moves e t))).before ?_
  refine park_moves _ t fun job hj => ?_
  obtain ⟨x, _, rfl⟩ := Option.map_eq_some_iff.mp hj
  rfl

theorem perform_via (C : Core σ) (h : Coherent e) {a : Action σ} (ha : e.Allows a) :
    Via e (e.calls C a) (e.perform C a) := by
  cases a with
  | resume t => exact resume_via C h ha
  | turnTo t c branch => exact turnTo_via e t c branch
  | takeResorts => exact .silent (Move.marked (.settings e.overrides (.take e.now)) Mark.noConfusion)
  | serveResorts => exact .silent (Move.marked (.resort e.now) Mark.noConfusion)
  | wait time => exact .silent (Move.marked (.clock ha) Mark.noConfusion)
  | changeCore core => exact .silent (Quiet.moves ⟨rfl, rfl, rfl, rfl, rfl, rfl, rfl, rfl⟩)
  | request r => exact .silent (spawn_moves e rfl)
  | test index => exact .ask ⟨e, index, false⟩ (.refl _ e) (.refl _ _)
  | backgroundTest index => exact .ask ⟨e, index, true⟩ (.refl _ e) (.refl _ _)
  | stop index => exact .silent (stopSession_moves Mark.noConfusion e index _)
  | stopAll => exact .silent (stopSessions_moves Mark.noConfusion _ _ e)
  | sweepSessions => exact .silent (stopSessions_moves Mark.noConfusion _ _ e)
  | sortByDelay on => exact .silent (setSortByDelay_moves e Mark.noConfusion on)
  | configure next => exact .silent (applyConfig_moves e Mark.noConfusion next)
  | startCoordinator takesUpdates => exact .silent (spawn_moves e rfl)
  | send handle intent =>
    refine .silent ?_
    unfold perform send
    dsimp only
    split
    · exact changeCoordinator_moves e handle _
    · exact .refl _ e
  | sendConfig handle next =>
    refine .silent ?_
    unfold perform sendConfig
    dsimp only
    split
    · exact changeCoordinator_moves e handle _
    · exact .refl _ e
  | closeUpdates handle => exact .silent (changeCoordinator_moves e handle _)
  | dropHandle handle => exact .silent (changeCoordinator_moves e handle _)
  | shutdown => exact .silent (shutdown_moves e)
  | remember proxy delay => exact .silent (Quiet.moves ⟨rfl, rfl, rfl, rfl, rfl, rfl, rfl, rfl⟩)
  | lookUp proxy => exact .silent (lookUp_quiet e proxy).moves
  | evict => exact .silent (evict_quiet e).moves

theorem perform_moves (C : Core σ) (h : Coherent e) {a : Action σ} (ha : e.Allows a) :
    Moves (fun _ => True) e (e.perform C a) :=
  (perform_via C h ha).moves

theorem new_coherent (core : σ) (config : Config) (overrides : Overrides) :
    Coherent (Engine.new core config overrides) := by
  have hnone : ∀ (i : Nat) (s : Session),
      (Engine.new core config overrides).sessions[i]? ≠ some s := by
    intro i s h
    simp [Engine.new] at h
  constructor
  case shown => intro i; simp [Engine.new, board, Board.tag]
  case indexed => intro i r h; simp [Engine.new, board] at h
  case named => exact fun i s h => absurd h (hnone i s)
  case used => exact fun i s h => absurd h (hnone i s)
  case past => exact fun i s h => absurd h (hnone i s)
  case distinct => exact fun i j s t h => absurd h (hnone i s)
  case watched => intro plan h; cases h
  case single => exact List.nodup_nil
  case proper => intro t ht; cases ht

theorem Run.coherent {C : Core σ} {calls : List (TestCall σ)} (h : Run C e calls e')
    (hc : Coherent e) : Coherent e' := by
  induction h with
  | refl => exact hc
  | step _ ha ih => exact (perform_moves C ih ha).coherent ih

theorem Run.keeps {C : Core σ} {calls : List (TestCall σ)} {Q : Engine σ → Prop}
    (hQ : ∀ (e : Engine σ) (a : Action σ), Coherent e → e.Allows a → Q e → Q (e.perform C a))
    (h : Run C e calls e') (hc : Coherent e) (hq : Q e) : Q e' := by
  induction h with
  | refl => exact hq
  | step hr ha ih => exact hQ _ _ (hr.coherent hc) ha ih

theorem Run.follows {C : Core σ} {calls : List (TestCall σ)} (h : Run C e calls e')
    (hc : Coherent e) : Follows e e' := by
  induction h with
  | refl => exact .refl e
  | step hr ha ih => exact ih.trans ((perform_moves C (hr.coherent hc) ha).follows (hr.coherent hc))

theorem Reachable.coherent {C : Core σ} (h : Reachable C e) : Coherent e := by
  obtain ⟨core, config, overrides, calls, hr⟩ := h
  exact hr.coherent (new_coherent core config overrides)

theorem Coherent.testing_iff (h : Coherent e) (i : Nat) :
    (∃ r, e.board.records[i]? = some r ∧ r.testing = true) ↔ i ∈ e.sessions := by
  rw [Std.ExtTreeMap.mem_iff_isSome_getElem?, Option.isSome_iff_exists]
  constructor
  · rintro ⟨r, hr, ht⟩
    have hs := h.shown i
    rw [Board.tag, hr] at hs
    obtain ⟨name, _, hn⟩ := Option.map_eq_some_iff.mp hs.symm
    have hc : e.sessions.contains i = true := (congrArg Prod.snd hn).trans ht
    rw [Std.ExtTreeMap.contains_eq_isSome_getElem?] at hc
    exact Option.isSome_iff_exists.mp hc
  · rintro ⟨s, hs⟩
    obtain ⟨r, hr, _, ht⟩ := h.tested hs
    exact ⟨r, hr, ht⟩

/-- A group is shown as tested exactly while it has a session, a session stands under the name of
its group, and the end of a session is announced. -/
theorem flags_agree {C : Core σ} (h : Reachable C e) :
    (∀ i, (∃ r, e.board.records[i]? = some r ∧ r.testing = true) ↔ i ∈ e.sessions) ∧
    (∀ (i : Nat) (s : Session), e.sessions[i]? = some s →
      i < e.registry.names.length ∧ e.registry.names[i]? = some s.group) ∧
    ∀ a, e.Allows a → ∃ new, (e.perform C a).board.events = new ++ e.board.events ∧
      ∀ i, i ∈ e.sessions → i ∉ (e.perform C a).sessions →
        ∃ revision, .updated i revision ∈ new := by
  have hc := h.coherent
  refine ⟨hc.testing_iff, fun i s hs => ?_, fun a ha => ?_⟩
  · have hn := hc.named i s hs
    exact ⟨(List.getElem?_eq_some_iff.mp hn).1, hn⟩
  · exact ((perform_moves C hc ha).follows hc).ends

theorem flags_agree_single :
    (∃ r, (single 0 .group).board.records[0]? = some r ∧ r.testing = true) ∧
      ∃ new, ((single 0 .group).perform (Core.single 0) (.stop 0)).board.events =
        new ++ (single 0 .group).board.events ∧ ∃ revision, .updated 0 revision ∈ new := by
  have h := flags_agree (single_reachable 0 .group)
  obtain ⟨new, hnew, hends⟩ := h.2.2 (.stop 0) trivial
  refine ⟨(h.1 0).mpr ?_, new, hnew, hends 0 ?_ ?_⟩
  · decide
  · decide
  · decide

end ProxyPulse.Engine
