import ProxyPulse.Proofs.Engine.Deeds

namespace ProxyPulse

inductive Job.Polls (plan : SessionPlan) : Job → Prop
  | opening : Polls plan (.opening plan)
  | ticking (p : Polling) : Polls plan (.ticking plan p)
  | polling (p : Polling) (query : Query) : Polls plan (.polling plan p query)

namespace SessionPlan

def strategy (plan : SessionPlan) : ProbeStrategy :=
  plan.config.scheduler.strategy

def pollInterval (plan : SessionPlan) : Nat :=
  plan.config.scheduler.pollInterval

def maxPolls (plan : SessionPlan) : Nat :=
  plan.config.scheduler.maxPolls

def stablePollsRequired (plan : SessionPlan) : Nat :=
  plan.config.scheduler.stablePollsRequired

def polling (plan : SessionPlan) (now : Nat) : Polling where
  left := plan.maxPolls
  due := now + plan.pollInterval
  deadline := now + plan.budget.maxWait
  last := none
  stable := 0

end SessionPlan

def Polling.next (p : Polling) (plan : SessionPlan) (found : Option DelayTable)
    (triggering : Bool) : Polling :=
  { p.count found triggering with left := p.left - 1, due := p.due + plan.pollInterval }

theorem Polling.next_deadline (p : Polling) (plan : SessionPlan) (found : Option DelayTable)
    (triggering : Bool) : (p.next plan found triggering).deadline = p.deadline := by
  show (p.count found triggering).deadline = _
  unfold Polling.count
  split
  · rfl
  · split <;> rfl

theorem Polling.next_due (p : Polling) (plan : SessionPlan) (found : Option DelayTable)
    (triggering : Bool) : (p.next plan found triggering).due = p.due + plan.pollInterval :=
  rfl

theorem Job.Polls.plan {plan : SessionPlan} {job : Job} (h : job.Polls plan) :
    job.plan? = some plan := by
  cases h <;> rfl

namespace Engine

variable {σ : Type} {C : Core σ} {e e' : Engine σ} {plan : SessionPlan} {watch : Option Job}
  {triggering : Bool}

inductive PollStep (plan : SessionPlan) (now : Nat) :
    Option Job → Bool → List Deed → Option Job → Bool → Prop
  | rest {watch : Option Job} {triggering : Bool} :
    PollStep plan now watch triggering [] watch triggering
  | back {watch : Option Job} : PollStep plan now watch true [] watch false
  | cutOff {job : Job} {triggering triggering' : Bool} :
    PollStep plan now (some job) triggering [.cutOff] none triggering'
  | close {triggering : Bool} : plan.maxPolls = 0 →
    PollStep plan now (some (.opening plan)) triggering [.opened, .ended .completed] none true
  | open {triggering : Bool} : plan.maxPolls ≠ 0 →
    PollStep plan now (some (.opening plan)) triggering [.opened]
      (some (.ticking plan (plan.polling now))) true
  | ask {p : Polling} {triggering : Bool} (query : Query) : p.due ≤ now →
    PollStep plan now (some (.ticking plan p)) triggering [.asked] (some (.polling plan p query))
      triggering
  | timeOut {p : Polling} {triggering : Bool} : now < p.due → p.deadline ≤ now →
    PollStep plan now (some (.ticking plan p)) triggering [.ended .timedOut] none triggering
  | linger {p : Polling} {query : Query} {triggering : Bool} (query' : Query) :
    PollStep plan now (some (.polling plan p query)) triggering [] (some (.polling plan p query'))
      triggering
  | converge {p : Polling} {query : Query} {triggering : Bool} {found : Option DelayTable} :
    p.isSettled (p.count found triggering) plan.stablePollsRequired = true →
    PollStep plan now (some (.polling plan p query)) triggering
      [.polled found triggering, .ended .converged] none triggering
  | complete {p : Polling} {query : Query} {triggering : Bool} {found : Option DelayTable} :
    p.isSettled (p.count found triggering) plan.stablePollsRequired = false → p.left ≤ 1 →
    PollStep plan now (some (.polling plan p query)) triggering
      [.polled found triggering, .ended .completed] none triggering
  | count {p : Polling} {query : Query} {triggering : Bool} {found : Option DelayTable} :
    p.isSettled (p.count found triggering) plan.stablePollsRequired = false → 1 < p.left →
    PollStep plan now (some (.polling plan p query)) triggering [.polled found triggering]
      (some (.ticking plan (p.next plan found triggering))) triggering

theorem PollStep.polls {now : Nat} {deeds : List Deed} {watch' : Option Job} {triggering' : Bool}
    (h : PollStep plan now watch triggering deeds watch' triggering')
    (hw : ∀ job ∈ watch, job.Polls plan) : ∀ job ∈ watch', job.Polls plan := by
  cases h with
  | rest | back => exact hw
  | cutOff | close | timeOut | converge | complete =>
    intro job hj
    cases hj
  | «open» | count =>
    intro job hj
    exact Option.some.inj hj ▸ .ticking _
  | ask query | linger query =>
    intro job hj
    exact Option.some.inj hj ▸ .polling _ _

theorem isTriggering_eq (e : Engine σ) (s : Nat) :
    e.isTriggering s = (e.crew s).any (·.isTriggerOf s) := by
  rw [Bool.eq_iff_iff]
  simp only [isTriggering, List.any_eq_true, mem_crew]
  constructor
  · rintro ⟨t, ht, htrig⟩
    refine ⟨t.job, ⟨?_, t, ht, rfl⟩, htrig⟩
    cases hj : t.job with
    | triggering session group limit call =>
      rw [hj] at htrig
      cases session with
      | none => cases htrig
      | some s' => exact congrArg some (beq_iff_eq.mp htrig)
    | _ => rw [hj] at htrig; cases htrig
  · rintro ⟨job, ⟨_, t, ht, rfl⟩, htrig⟩
    exact ⟨t, ht, htrig⟩

theorem isTriggering_of_crew {s : Nat} (h : e'.crew s = e.crew s) :
    e'.isTriggering s = e.isTriggering s := by
  rw [isTriggering_eq, h, isTriggering_eq]

theorem afterPoll_steps (e : Engine σ) (plan : SessionPlan) (p : Polling) (query : Query)
    (found : Option DelayTable) (now : Nat) :
    PollStep plan now (some (.polling plan p query)) (e.isTriggering plan.session)
      (.polled found (e.isTriggering plan.session) :: (e.afterPoll plan p found).deeds)
      (e.afterPoll plan p found).rest (e.isTriggering plan.session) := by
  unfold afterPoll
  dsimp only
  split
  · next h => exact .converge h
  · next h =>
    have h := Bool.eq_false_iff.mpr h
    split
    · next hl => exact .complete h hl
    · next hl => exact .count h (Nat.lt_of_not_le hl)

theorem applyPoll_crew (e : Engine σ) (plan : SessionPlan) (report : GroupReport) (s : Nat) :
    (e.applyPoll plan report).crew s = e.crew s := by
  have h : Tends (fun _ => False) e [] (e.applyPoll plan report) [] :=
    applyPoll_tends e plan report
  exact h.same_crew s

theorem poll_steps (C : Core σ) (e : Engine σ) (plan : SessionPlan) (p : Polling) (query : Query) :
    PollStep plan e.now (some (.polling plan p query)) (e.isTriggering plan.session)
      (jobDeeds C e (.polling plan p query)) (poll C e plan p query).2.rest
      (e.isTriggering plan.session) := by
  have hq := isTriggering_of_crew (crew_of_tasks (advanceQuery_quiet C query e).tasks plan.session)
  unfold jobDeeds poll
  dsimp only
  rcases he : e.advanceQuery C query with ⟨e', query' | error | report⟩
  · exact .linger query'
  · rw [he] at hq
    dsimp only at hq ⊢
    rw [← hq]
    exact afterPoll_steps e' plan p query none e.now
  · rw [he] at hq
    dsimp only at hq ⊢
    rw [← hq, ← isTriggering_of_crew (applyPoll_crew e' plan report plan.session)]
    exact afterPoll_steps (e'.applyPoll plan report) plan p query
      (some (.ofMembers report.members)) e.now

theorem tick_steps (C : Core σ) (e : Engine σ) (plan : SessionPlan) (p : Polling) :
    PollStep plan e.now (some (.ticking plan p)) (e.isTriggering plan.session)
      (jobDeeds C e (.ticking plan p)) (tick C e plan p).2.rest (e.isTriggering plan.session) := by
  unfold jobDeeds tick
  dsimp only
  split
  · next h => exact .ask _ h
  · next h =>
    split
    · next hd => exact .timeOut (Nat.lt_of_not_le h) hd
    · exact .rest

theorem stepSession_polls (C : Core σ) (e : Engine σ) (hg : plan.strategy = .group) :
    stepSession C e (.opening plan) = e.openPolling plan := by
  have hg : plan.config.scheduler.strategy = .group := hg
  simp only [stepSession, hg]

theorem open_steps (C : Core σ) (e : Engine σ) (hg : plan.strategy = .group) :
    PollStep plan e.now (some (.opening plan)) (e.isTriggering plan.session)
      (jobDeeds C e (.opening plan)) (stepSession C e (.opening plan)).2.rest
      ((stepSession C e (.opening plan)).1.isTriggering plan.session) := by
  have htrig : (e.openPolling plan).1.isTriggering plan.session = true := by
    rw [isTriggering_eq, openPolling_crew, List.any_append, Bool.or_eq_true]
    exact .inr (by simp [Job.isTriggerOf])
  have hmove : (e.openPolling plan).2 =
      if plan.pollInterval = 0 then .breakOff
      else if plan.maxPolls = 0 then .stop .completed
      else .wait (.ticking plan (plan.polling e.now)) := by
    unfold openPolling
    dsimp only
    split
    · next h => rw [SessionPlan.pollInterval, if_pos h]
    · next h =>
      rw [SessionPlan.pollInterval, if_neg h]
      split
      · next h => rw [SessionPlan.maxPolls, if_pos h]
      · next h => rw [SessionPlan.maxPolls, if_neg h]; rfl
  rw [jobDeeds, stepSession_polls C e hg, htrig, hmove]
  by_cases hi : plan.pollInterval = 0
  · rw [if_pos hi]
    exact .cutOff
  · rw [if_neg hi]
    by_cases hm : plan.maxPolls = 0
    · rw [if_pos hm]
      exact .close hm
    · rw [if_neg hm]
      exact .open hm

theorem polls_steps (C : Core σ) (e : Engine σ) (hg : plan.strategy = .group) {job : Job}
    (h : job.Polls plan) :
    PollStep plan e.now (some job) (e.isTriggering plan.session) (jobDeeds C e job)
      (stepSession C e job).2.rest ((stepSession C e job).1.isTriggering plan.session) := by
  cases h with
  | opening => exact open_steps C e hg
  | ticking p =>
    rw [isTriggering_of_crew (stepSession_crew C e (Job.Polls.ticking p).plan Job.noConfusion _)]
    exact tick_steps C e plan p
  | polling p query =>
    have hp : (Job.polling plan p query).plan? = some plan := rfl
    rw [isTriggering_of_crew (stepSession_crew C e hp Job.noConfusion _)]
    exact poll_steps C e plan p query

structure PollCrew (plan : SessionPlan) (watch : Option Job) (e : Engine σ) : Prop where
  crew : ∃ trigger : Option Job, (e.crew plan.session).Perm (watch.toList ++ trigger.toList) ∧
    ∀ job ∈ trigger, job.isTriggerOf plan.session = true
  polls : ∀ job ∈ watch, job.Polls plan

theorem not_trigger_of_polls {job : Job} (h : job.Polls plan) (s : Nat) :
    job.isTriggerOf s = false := by
  cases h <;> rfl

theorem isTriggering_of_perm {trigger : Option Job} (hw : ∀ job ∈ watch, job.Polls plan)
    (ht : ∀ job ∈ trigger, job.isTriggerOf plan.session = true)
    (h : (e.crew plan.session).Perm (watch.toList ++ trigger.toList)) :
    e.isTriggering plan.session = trigger.isSome := by
  have hnone : watch.toList.any (·.isTriggerOf plan.session) = false := by
    rw [List.any_eq_false]
    intro job hj
    rw [not_trigger_of_polls (hw job (Option.mem_toList.mp hj))]
    exact Bool.false_ne_true
  rw [isTriggering_eq, h.any_eq, List.any_append, hnone, Bool.false_or]
  cases trigger with
  | none => rfl
  | some job =>
    rw [Option.toList_some, List.any_cons, ht job rfl]
    rfl

theorem isTriggering_of_trigger {trigger : Option Job}
    (ht : ∀ job ∈ trigger, job.isTriggerOf plan.session = true)
    (h : (e.crew plan.session).Perm trigger.toList) :
    e.isTriggering plan.session = trigger.isSome :=
  have hnobody : ∀ job ∈ (none : Option Job), job.Polls plan :=
    fun job hj => absurd hj (Option.not_mem_none job)
  isTriggering_of_perm hnobody ht h

theorem resume_rest (C : Core σ) {t : Task} (ha : t.isAborted = false)
    (hp : t.job.plan? = some plan) : (resume C e t).crew plan.session =
      (stepSession C (e.without t) t.job).1.crew plan.session ++
        (stepSession C (e.without t) t.job).2.rest.toList := by
  rw [resume_crew C ha (owner_of_plan hp), stepJob_session C _ _ hp, afterSession_crew,
    afterSession_rest]

theorem PollCrew.trigger_turn (h : PollCrew plan watch e) (hsound : Sound e) (C : Core σ)
    {t : Task} (ht : t ∈ e.tasks) (htrig : t.job.isTriggerOf plan.session = true)
    (hleft : ((e.without t).crew plan.session).Perm watch.toList) :
    PollStep plan e.now watch (e.isTriggering plan.session) (e.deeds C plan.session (.resume t))
      watch ((resume C e t).isTriggering plan.session) ∧ PollCrew plan watch (resume C e t) := by
  have hout : e.isTriggering plan.session = true := List.any_eq_true.mpr ⟨t, ht, htrig⟩
  cases hj : t.job with
  | triggering session group limit call =>
    rw [hj] at htrig
    obtain rfl : session = some plan.session := by
      cases session with
      | none => cases htrig
      | some s => exact congrArg some (beq_iff_eq.mp htrig)
    have hlive : t.isAborted = false :=
      not_aborted_of_proper (hsound.coherent.proper t ht) (by rw [hj]; rfl)
    have ho : t.job.owner? = some plan.session := by rw [hj]; rfl
    -- what is left of the trigger after its turn
    obtain ⟨trigger, htrigger, hcrew⟩ : ∃ trigger : Option Job,
        (∀ job ∈ trigger, job.isTriggerOf plan.session = true) ∧
        (resume C e t).crew plan.session = (e.without t).crew plan.session ++ trigger.toList := by
      refine ⟨(stepJob C (e.without t) t.id t.job).2, ?_, ?_⟩
      · rw [hj]
        intro job hjob
        obtain ⟨call', _, rfl⟩ := Option.map_eq_some_iff.mp hjob
        exact beq_self_eq_true _
      · rw [resume_crew C hlive ho, hj]
        exact congrArg (· ++ _) (stepTrigger_crew C (e.without t) group limit call _)
    have hperm : ((resume C e t).crew plan.session).Perm (watch.toList ++ trigger.toList) := by
      rw [hcrew]
      exact hleft.append_right _
    refine ⟨?_, ⟨⟨trigger, hperm, htrigger⟩, h.polls⟩⟩
    have hdeeds : e.deeds C plan.session (.resume t) = [] := by
      rw [deeds_own ho hlive, hj]
      rfl
    rw [hdeeds, hout, isTriggering_of_perm h.polls htrigger hperm]
    cases trigger with
    | none => exact .back
    | some job => exact .rest
  | _ =>
    rw [hj] at htrig
    cases htrig

theorem PollCrew.watch_turn {job : Job} (h : PollCrew plan (some job) e) (hsound : Sound e)
    (hg : plan.strategy = .group) (C : Core σ) {t : Task} (ht : t ∈ e.tasks) (hj : t.job = job) :
    ∃ watch', PollStep plan e.now (some job) (e.isTriggering plan.session)
      (e.deeds C plan.session (.resume t)) watch' ((resume C e t).isTriggering plan.session) ∧
        PollCrew plan watch' (resume C e t) := by
  subst hj
  have hpolls : t.job.Polls plan := h.polls _ rfl
  have ho := owner_of_plan hpolls.plan
  obtain ⟨trigger, hcrew, htrigger⟩ := h.crew
  have hleft : ((e.without t).crew plan.session).Perm trigger.toList :=
    ((hsound.numbered.crew_perm ht ho).symm.trans hcrew).cons_inv
  cases ha : t.isAborted with
  | true =>
    refine ⟨none, ?_, ⟨⟨trigger, ?_, htrigger⟩, fun job hj => absurd hj (Option.not_mem_none job)⟩⟩
    · rw [deeds_aborted ho ha]
      exact .cutOff
    · rw [resume_aborted_crew C ha]
      exact hleft
  | false =>
    have hout : (e.without t).isTriggering plan.session = e.isTriggering plan.session := by
      have hpolls' : ∀ job ∈ some t.job, job.Polls plan := h.polls
      rw [isTriggering_of_trigger htrigger hleft, isTriggering_of_perm hpolls' htrigger hcrew]
    have hstep := polls_steps C (e.without t) hg hpolls
    -- while the session opens it has no trigger, and then it has one
    obtain ⟨trigger', htrigger', hcrew'⟩ : ∃ trigger' : Option Job,
        (∀ job ∈ trigger', job.isTriggerOf plan.session = true) ∧
        ((stepSession C (e.without t) t.job).1.crew plan.session).Perm trigger'.toList := by
      by_cases hopen : t.job = .opening plan
      · have hnone := hsound.opens_alone ht hopen
        refine ⟨some (.triggering plan.session plan.group plan.budget.maxWait none), ?_, ?_⟩
        · intro job hjob
          cases hjob
          exact beq_self_eq_true _
        · rw [hopen, stepSession_polls C _ hg, openPolling_crew, hnone]
          exact .refl _
      · refine ⟨trigger, htrigger, ?_⟩
        rw [stepSession_crew C (e.without t) hpolls.plan hopen]
        exact hleft
    have hrest := hstep.polls h.polls
    have hperm : ((resume C e t).crew plan.session).Perm
        ((stepSession C (e.without t) t.job).2.rest.toList ++ trigger'.toList) := by
      rw [resume_rest C ha hpolls.plan]
      exact (hcrew'.append_right _).trans List.perm_append_comm
    refine ⟨_, ?_, ⟨⟨trigger', hperm, htrigger'⟩, hrest⟩⟩
    rw [deeds_own ho ha, isTriggering_of_perm hrest htrigger' hperm,
      ← isTriggering_of_trigger htrigger' hcrew', ← hout]
    exact hstep

theorem PollCrew.act (h : PollCrew plan watch e) (hsound : Sound e)
    (hs : plan.session < e.nextSession) (hg : plan.strategy = .group) (C : Core σ) {a : Action σ}
    (ha : e.Allows a) :
    ∃ watch', PollStep plan e.now watch (e.isTriggering plan.session)
      (e.deeds C plan.session a) watch' ((e.perform C a).isTriggering plan.session) ∧
        PollCrew plan watch' (e.perform C a) := by
  rcases own_or_other a plan.session with ⟨t, rfl, ho⟩ | hother
  · obtain ⟨trigger, hcrew, htrigger⟩ := h.crew
    have hperm := hsound.numbered.crew_perm ha ho
    have hmem : t.job ∈ watch.toList ++ trigger.toList :=
      hcrew.mem_iff.mp (hperm.mem_iff.mpr List.mem_cons_self)
    rcases List.mem_append.mp hmem with hmem | hmem
    · cases watch with
      | none => cases hmem
      | some job => exact h.watch_turn hsound hg C ha (List.mem_singleton.mp hmem)
    · cases trigger with
      | none => cases hmem
      | some job =>
        have hj := List.mem_singleton.mp hmem
        have hleft : ((e.without t).crew plan.session).Perm watch.toList := by
          have hp := hperm.symm.trans (hcrew.trans List.perm_append_comm)
          rw [hj] at hp
          exact hp.cons_inv
        exact ⟨watch, h.trigger_turn hsound C ha (hj ▸ htrigger job rfl) hleft⟩
  · have hsame := perform_crew C hsound.numbered ha hs hother
    refine ⟨watch, ?_, ⟨by rw [hsame]; exact h.crew, h.polls⟩⟩
    rw [deeds_stranger hother, isTriggering_of_crew hsame]
    exact .rest

theorem PollCrew.deeds_turn (h : PollCrew plan watch e) (hc : Coherent e) {a : Action σ}
    (ha : e.Allows a) {deed : Deed} (hd : deed ∈ e.deeds C plan.session a) :
    ∃ t, a = .resume t ∧ t.job.owner? = some plan.session ∧ t.job.Polls plan := by
  cases a with
  | resume t =>
    by_cases ho : t.job.owner? = some plan.session
    · refine ⟨t, rfl, ho, ?_⟩
      obtain ⟨trigger, hcrew, htrigger⟩ := h.crew
      have hmem := hcrew.mem_iff.mp (mem_crew.mpr ⟨ho, t, ha, rfl⟩)
      rcases List.mem_append.mp hmem with hmem | hmem
      · exact h.polls _ (Option.mem_toList.mp hmem)
      · have htrig := htrigger _ (Option.mem_toList.mp hmem)
        cases hj : t.job with
        | triggering session group limit call =>
          have hlive := not_aborted_of_proper (hc.proper t ha) (by rw [hj]; rfl)
          rw [deeds_own ho hlive, hj] at hd
          cases hd
        | _ =>
          rw [hj] at htrig
          cases htrig
    · rw [deeds_stranger fun u hu => by cases hu; exact ho] at hd
      cases hd
  | _ => cases hd

theorem Employs.crew_lt (h : Employs e) {s : Nat} {job : Job} (hj : job ∈ e.crew s) :
    s < e.nextSession := by
  rcases Nat.lt_or_ge s e.nextSession with hs | hs
  · exact hs
  · rw [h.started s hs] at hj
    cases hj

theorem Employs.opens (h : Employs e) (hopen : .opening plan ∈ e.crew plan.session) :
    PollCrew plan (some (.opening plan)) e := by
  refine ⟨⟨none, ?_, fun job hj => absurd hj (Option.not_mem_none job)⟩,
    fun job hj => Option.some.inj hj ▸ .opening⟩
  rw [h.alone plan.session _ hopen rfl]
  exact .refl _

theorem polls_keep {P : Engine σ → Action σ → Prop}
    {I : Engine σ → Option Job → List (Nat × Deed) → Prop}
    (hI : ∀ (e : Engine σ) (a : Action σ) (watch watch' : Option Job) (D : List (Nat × Deed)),
      Sound e → e.Allows a → P e a → PollCrew plan watch' (e.perform C a) →
      PollStep plan e.now watch (e.isTriggering plan.session) (e.deeds C plan.session a) watch'
        ((e.perform C a).isTriggering plan.session) →
      I e watch D →
      I (e.perform C a) watch' (D ++ (e.deeds C plan.session a).map (e.now, ·)))
    (hg : plan.strategy = .group) (hsound : Sound e) (hopen : .opening plan ∈ e.crew plan.session)
    (hstart : I e (some (.opening plan)) []) {D : List (Nat × Deed)}
    (h : Course (Acts C (deeds C plan.session) P) e D e') :
    ∃ watch, PollCrew plan watch e' ∧ I e' watch D := by
  have hs := hsound.employs.crew_lt hopen
  obtain ⟨_, _, hend⟩ := h.keeps_sound hsound
    (Q := fun D e => plan.session < e.nextSession ∧ ∃ watch, PollCrew plan watch e ∧ I e watch D)
    (fun D e a hsound ha hp hq => by
      obtain ⟨hs, watch, hcrew, hi⟩ := hq
      obtain ⟨watch', hstep, hcrew'⟩ := hcrew.act hsound hs hg C ha
      exact ⟨Nat.lt_of_lt_of_le hs (hsound.nextSession_le C ha), watch', hcrew',
        hI e a watch watch' D hsound ha hp hcrew' hstep hi⟩)
    ⟨hs, some (.opening plan), hsound.employs.opens hopen, hstart⟩
  exact hend

end Engine

end ProxyPulse
