import ProxyPulse.Proofs.Engine.Course
import ProxyPulse.Proofs.Engine.Crew

namespace ProxyPulse

inductive Deed where
  | opened
  -- A poll starts: it takes a permit, or queues for one.
  | asked
  -- A poll is back, with the delays it found unless it failed, and whether the trigger is out.
  | polled (found : Option DelayTable) (triggering : Bool)
  | reported (proxy : String) (answer : Answer Int)
  | shown (proxy : String) (delay : Int)
  | ended (outcome : SessionOutcome)
  -- The task that watches over the session goes without an end of its own.
  | cutOff

namespace Deed

def poll? : Deed → Option (Option DelayTable × Bool)
  | .polled found triggering => some (found, triggering)
  | _ => none

def outcome? : Deed → Option SessionOutcome
  | .ended outcome => some outcome
  | _ => none

end Deed

namespace Engine

variable {σ : Type} {C : Core σ} {e e' e'' : Engine σ} {s : Nat}

def SessionMove.deeds : SessionMove → List Deed
  | .wait _ => []
  | .stop outcome => [.ended outcome]
  | .breakOff => [.cutOff]

def jobDeeds (C : Core σ) (e : Engine σ) (job : Job) : List Deed :=
  match job with
  | .opening _ =>
    match (stepSession C e job).2 with
    | .breakOff => [.cutOff]
    | move => .opened :: move.deeds
  | .ticking plan p =>
    (if p.due ≤ e.now then [.asked] else []) ++ (tick C e plan p).2.deeds
  | .polling plan p query =>
    (match e.advanceQuery C query with
      | (_, .inl _) => []
      | (e, .inr answer) =>
        [.polled (answer.toOption.map fun report => .ofMembers report.members)
          (e.isTriggering plan.session)]) ++ (poll C e plan p query).2.deeds
  | .collecting plan missing deadline inbox =>
    (inbox.head?.toList.map fun (proxy, delay) => .shown proxy delay) ++
      (e.collect plan missing deadline inbox).2.deeds
  | .batch b =>
    if b.hasRoom then []
    else (endedProbe C e b.running).2.1.toList.map fun (proxy, answer) => .reported proxy answer
  | _ => []

def deeds (C : Core σ) (s : Nat) (e : Engine σ) : Action σ → List Deed
  | .resume t =>
    if t.job.owner? = some s then
      if t.isAborted then [.cutOff] else jobDeeds C (e.without t) t.job
    else []
  | _ => []

def testPlan (config : Config) (members : List String) : SessionPlan where
  session := 1
  index := 0
  group := "auto"
  members
  budget := Budget.forGroupSize config.scheduler.tiers members.length
  config

def singlePlan (strategy : ProbeStrategy) : SessionPlan :=
  testPlan { scheduler := { strategy } } ["direct"]

def pairPlan (tier : BudgetTier) : SessionPlan :=
  testPlan (pairConfig tier) ["direct", "proxy"]

theorem opening_of_first {plan : SessionPlan}
    (h : e.tasks[0]?.map Task.job = some (.opening plan)) :
    .opening plan ∈ e.crew plan.session := by
  obtain ⟨t, ht, hj⟩ := Option.map_eq_some_iff.mp h
  exact mem_crew.mpr ⟨rfl, t, List.mem_of_getElem? ht, hj⟩

theorem deeds_stranger {a : Action σ} (h : ∀ t, a = .resume t → t.job.owner? ≠ some s) :
    e.deeds C s a = [] := by
  cases a with
  | resume t => exact if_neg (h t rfl)
  | _ => rfl

theorem deeds_aborted {t : Task} (ho : t.job.owner? = some s) (ha : t.isAborted = true) :
    e.deeds C s (.resume t) = [.cutOff] := by
  simp only [deeds, ho, ha, if_true]

theorem deeds_own {t : Task} (ho : t.job.owner? = some s) (ha : t.isAborted = false) :
    e.deeds C s (.resume t) = jobDeeds C (e.without t) t.job := by
  simp only [deeds, ho, ha, if_true, Bool.false_eq_true, if_false]

theorem Course.keeps_sound {α : Type} {note : Engine σ → Action σ → List α}
    {P : Engine σ → Action σ → Prop} {Q : List (Nat × α) → Engine σ → Prop}
    {notes : List (Nat × α)} (h : Course (Acts C note P) e notes e') (hsound : Sound e)
    (hQ : ∀ notes e a, Sound e → e.Allows a → P e a → Q notes e →
      Q (notes ++ (note e a).map (e.now, ·)) (e.perform C a)) (hq : Q [] e) :
    Sound e' ∧ Q notes e' :=
  h.keeps (Q := fun notes e => Sound e ∧ Q notes e)
    (fun notes e _ _ hact hs => by
      cases hact with
      | act ha hp => exact ⟨hs.1.perform C ha, hQ notes e _ hs.1 ha hp hs.2⟩)
    ⟨hsound, hq⟩

theorem perform_now (C : Core σ) (hc : Coherent e) {a : Action σ} (ha : e.Allows a)
    (hw : ∀ time, a ≠ .wait time) : (e.perform C a).now = e.now := by
  by_cases hi : a.Instructs
  · rw [perform_instructs C e hi]
    rfl
  cases a with
  | resume t =>
    refine (resume_moves C hc ha).now fun hm => ?_
    generalize t.job = job at hm
    cases hm
  | turnTo t c branch =>
    have hb : Moves (· ≠ .clock) (e.without t) ((e.without t).takeBranch c branch).1 :=
      takeBranch_moves (e.without t) Mark.noConfusion Mark.noConfusion Mark.noConfusion c branch
    have hp : Moves (· ≠ .clock) _ (e.turnTo t c branch) := park_moves _ t fun job hj => by
      obtain ⟨c', _, rfl⟩ := Option.map_eq_some_iff.mp hj
      rfl
    exact (hb.trans hp).now fun h => h rfl
  | wait time => exact absurd rfl (hw time)
  | test index => exact (requestTest_moves (P := (· = .ask)) rfl e index).now Mark.noConfusion
  | backgroundTest index =>
    exact (requestBackgroundTest_moves (P := (· = .ask)) rfl e index).now Mark.noConfusion
  | stop index => exact (stopSession_moves (P := (· = .close)) rfl e index _).now Mark.noConfusion
  | stopAll | sweepSessions =>
    exact (stopSessions_moves (P := (· = .close)) rfl _ _ e).now Mark.noConfusion
  | send handle intent | sendConfig handle next | closeUpdates handle | dropHandle handle
  | shutdown => exact absurd trivial hi
  | _ => rfl

theorem Prompt.not_ready {time : Nat} (h : Prompt e (.wait time)) {t : Task} (ht : t ∈ e.tasks) :
    e.isReady t = false := by
  have hbusy := h.1
  unfold isBusy at hbusy
  rw [Bool.or_eq_false_iff, List.any_eq_false] at hbusy
  exact Bool.eq_false_iff.mpr (hbusy.2 t (List.mem_filter.mpr ⟨ht, rfl⟩))

theorem Prompt.not_over {time : Nat} (h : Prompt e (.wait time)) {t : Task} (ht : t ∈ e.tasks)
    {w : Wait} (hw : w ∈ t.job.waits) : e.isOver w = false := by
  have hready := h.not_ready ht
  rw [isReady, Bool.or_eq_false_iff, List.any_eq_false] at hready
  exact Bool.eq_false_iff.mpr (hready.2 w hw)

theorem Prompt.no_turn {time : Nat} (h : Prompt e (.wait time)) {t : Task} (ht : t ∈ e.tasks) :
    .turn ∉ t.job.waits := fun hw =>
  have hturn : e.isOver .turn = false := h.not_over ht hw
  nomatch hturn

theorem Prompt.le_wake {time : Nat} (h : Prompt e (.wait time)) {t : Task} (ht : t ∈ e.tasks)
    {w : Wait} (hw : w ∈ t.job.waits) {moment : Nat} (hm : w.wakeAt = some moment)
    (hlater : e.now < moment) : time ≤ moment := by
  have hmem : moment ∈ ((e.tasks.flatMap (·.job.waits)).filterMap Wait.wakeAt
      ++ (e.board.resorting.map Resorting.due).toList).filter (e.now < ·) := by
    refine List.mem_filter.mpr ⟨List.mem_append_left _ ?_, decide_eq_true hlater⟩
    exact List.mem_filterMap.mpr ⟨w, List.mem_flatMap.mpr ⟨t, ht, hw⟩, hm⟩
  cases hnext : e.nextMoment? with
  | none =>
    rw [nextMoment?, List.min?_eq_none_iff] at hnext
    rw [hnext] at hmem
    cases hmem
  | some next => exact Nat.le_trans (h.2 next hnext) ((List.min?_eq_some_iff.mp hnext).2 _ hmem)

theorem Prompt.le_moment {time : Nat} (h : Prompt e (.wait time)) {t : Task} (ht : t ∈ e.tasks)
    {moment : Nat} (hm : .moment moment ∈ t.job.waits) : time ≤ moment := by
  have hover := h.not_over ht hm
  exact h.le_wake ht hm rfl (by simpa [isOver] using hover)

def SessionMove.rest : SessionMove → Option Job
  | .wait job => some job
  | _ => none

theorem afterSession_rest (plan : SessionPlan) (x : Engine σ × SessionMove) :
    (afterSession plan x).2 = x.2.rest := by
  obtain ⟨e, move⟩ := x
  cases move <;> rfl

theorem SessionMove.stops {move : SessionMove} {outcome : SessionOutcome}
    (h : .ended outcome ∈ move.deeds) : move = .stop outcome := by
  cases move with
  | wait job => cases h
  | stop o =>
    cases List.mem_singleton.mp h
    rfl
  | breakOff => cases List.mem_singleton.mp h

theorem jobDeeds_ended {job : Job} {outcome : SessionOutcome}
    (h : .ended outcome ∈ jobDeeds C e job) :
    ∃ plan, job.plan? = some plan ∧ (stepSession C e job).2 = .stop outcome := by
  cases job with
  | opening plan =>
    refine ⟨plan, rfl, ?_⟩
    unfold jobDeeds at h
    dsimp only at h
    split at h
    · cases List.mem_singleton.mp h
    · exact SessionMove.stops ((List.mem_cons.mp h).resolve_left nofun)
  | ticking plan p =>
    refine ⟨plan, rfl, ?_⟩
    rcases List.mem_append.mp h with h | h
    · split at h
      · cases List.mem_singleton.mp h
      · cases h
    · exact SessionMove.stops h
  | polling plan p query =>
    refine ⟨plan, rfl, ?_⟩
    rcases List.mem_append.mp h with h | h
    · split at h
      · cases h
      · cases List.mem_singleton.mp h
    · exact SessionMove.stops h
  | collecting plan missing deadline inbox =>
    refine ⟨plan, rfl, ?_⟩
    rcases List.mem_append.mp h with h | h
    · obtain ⟨report, _, hr⟩ := List.mem_map.mp h
      cases hr
    · exact SessionMove.stops h
  | batch b =>
    unfold jobDeeds at h
    dsimp only at h
    split at h
    · cases h
    · obtain ⟨x, _, hx⟩ := List.mem_map.mp h
      cases hx
  | _ => cases h

theorem Moves.same_books {P : Mark → Prop} (h : Moves P e e') (ha : ¬ P .ask) (hc : ¬ P .close) :
    e'.books = e.books := by
  induction h with
  | refl => rfl
  | tail _ hm ih =>
    obtain ⟨m, hm, hs⟩ := hm
    rw [← ih]
    cases hs with
    | quiet hq => exact hq.books
    | count | yield => exact absurd (hm _ rfl) ha
    | «open» => exact absurd (hm _ rfl) ha
    | close => exact absurd (hm _ rfl) hc
    | _ => rfl

theorem ended_closes (C : Core σ) (hc : Coherent e) {a : Action σ} (ha : e.Allows a)
    {outcome : SessionOutcome} (h : .ended outcome ∈ e.deeds C s a) :
    (e.perform C a).Gone s ∧ (e.perform C a).books =
      .activeSessions (e.perform C a).sessions.size :: .sessionEnded outcome :: e.books := by
  cases a with
  | resume t =>
    by_cases ho : t.job.owner? = some s
    · cases hab : t.isAborted with
      | true =>
        rw [deeds_aborted ho hab] at h
        cases List.mem_singleton.mp h
      | false =>
        rw [deeds_own ho hab] at h
        obtain ⟨plan, hp, hstop⟩ := jobDeeds_ended h
        have hplan : plan.session = s := Option.some.inj ((owner_of_plan hp).symm.trans ho)
        have htp : t.plan? = some plan := by
          rw [Task.plan?, hab]
          exact hp
        obtain ⟨x, hx, hid, _⟩ := hc.watched plan (List.mem_filterMap.mpr ⟨t, ha, htp⟩)
        -- up to its end the session stands in the table, as nothing it shows takes it out
        have hmoves := stepSession_moves C (e.without t) hp
        have hbeside := hmoves.beside
        have hbooks := hmoves.same_books Mark.noConfusion Mark.noConfusion
        rcases hs : stepSession C (e.without t) t.job with ⟨e₁, move⟩
        rw [hs] at hstop hbeside hbooks
        obtain rfl : move = .stop outcome := hstop
        have hx₁ : e₁.sessions[plan.index]? = some x := by
          rw [hbeside.sessions]
          exact hx
        have hend : e.perform C (.resume t) = e₁.closeSession plan.index x outcome := by
          show resume C e t = _
          rw [resume_lives C e hab]
          simp only [stepJob_session C _ _ hp, hs, afterSession, finishSession, hx₁, hid, if_true]
          rfl
        rw [hend]
        refine ⟨fun i y hy => ?_, congrArg (_ :: _ :: ·) hbooks⟩
        obtain ⟨hi, hy⟩ := entry_erase hy
        have hy : e.sessions[i]? = some y := hbeside.sessions ▸ hy
        intro hys
        exact hi (hc.distinct i plan.index y x hy hx (hys.trans (hplan.symm.trans hid.symm)))
    · rw [deeds_stranger fun u hu => by cases hu; exact ho] at h
      cases h
  | _ => cases h

end Engine

end ProxyPulse
