import ProxyPulse.Proofs.Engine.Roster

/-!
Who works for a session: the task that watches over it, its trigger, its probes. What anybody else
does leaves them all where they wait; a session begins with one task, and whoever joins it later is
sent by that one.
-/

namespace ProxyPulse

def Task.duty (s : Nat) (t : Task) : List Job :=
  if t.job.owner? = some s then [t.job] else []

def Job.deliver (report : String × Int) : Job → Job
  | .collecting plan missing deadline inbox => .collecting plan missing deadline (inbox ++ [report])
  | job => job

section

variable {K : Job → Prop} {t t' : Task} {s : Nat}

theorem Task.duty_of_owner (h : t.job.owner? = some s) : t.duty s = [t.job] := by
  rw [Task.duty, if_pos h]

theorem Task.duty_of_stranger (h : t.job.owner? ≠ some s) : t.duty s = [] := by
  rw [Task.duty, if_neg h]

theorem Job.stranger {job : Job} (h : job.owner? = none) : job.owner? ≠ some s := by
  rw [h]
  exact nofun

theorem Told.duty (hK : ∀ job, K job → job.owner? ≠ some s) (h : Told K t t') :
    t'.duty s = t.duty s := by
  cases h with
  | abort isAborted => rfl
  | report inbox hj hk =>
    have ho : t.job.owner? ≠ some s := by
      rw [hj]
      exact fun h => hK _ hk h
    rw [Task.duty_of_stranger ho]
    exact Task.duty_of_stranger (hK _ hk)
  | coordinate c hj hk =>
    have ho : t.job.owner? ≠ some s := Job.stranger (by rw [hj]; rfl)
    rw [Task.duty_of_stranger ho]
    exact Task.duty_of_stranger (hK _ hk)

theorem Job.Hires.owner {next : Nat} {job hired : Job} (h : job.Hires next hired)
    (ho : hired.owner? = some s) :
    job.owner? = some s ∨ next ≤ s ∧ ∃ choice call, job = .choosing choice call := by
  cases h with
  | test hp => exact .inr ⟨Option.some.inj ho ▸ hp, _, _, rfl⟩
  | pull group limit => cases ho
  | trigger group limit => exact .inl ho
  | probe hb => exact .inl ((congrArg some hb.symm).trans ho)
  | report hb => exact .inl ((congrArg some hb.symm).trans ho)

end

namespace Engine

variable {σ : Type} {C : Core σ} {K : Job → Prop} {e e' : Engine σ} {t : Task} {s : Nat}

def crew (e : Engine σ) (s : Nat) : List Job :=
  e.tasks.flatMap (Task.duty s)

theorem mem_crew {job : Job} :
    job ∈ e.crew s ↔ job.owner? = some s ∧ ∃ t ∈ e.tasks, t.job = job := by
  unfold crew Task.duty
  rw [List.mem_flatMap]
  constructor
  · rintro ⟨t, ht, hj⟩
    split at hj
    · next ho =>
      obtain rfl := List.mem_singleton.mp hj
      exact ⟨ho, t, ht, rfl⟩
    · cases hj
  · rintro ⟨ho, t, ht, rfl⟩
    exact ⟨t, ht, by rw [if_pos ho]; exact List.mem_singleton_self _⟩

theorem crew_of_tasks (h : e'.tasks = e.tasks) (s : Nat) : e'.crew s = e.crew s := by
  rw [crew, h, crew]

theorem Staffs.crew (h : Staffs K e e') (hK : ∀ job, K job → job.owner? ≠ some s) :
    e'.crew s = e.crew s :=
  h.read (fun _ _ ht => ht.duty hK) fun t ht => Task.duty_of_stranger (hK t.job ht)

theorem Tends.crew {hand hand' : List Query} (h : Tends K e hand e' hand')
    (hK : ∀ job, K job → job.owner? ≠ some s) : e'.crew s = e.crew s :=
  h.staffs.crew hK

theorem spawn_crew (e : Engine σ) {job : Job} (h : job.owner? = some s) :
    (e.spawn job).crew s = e.crew s ++ [job] := by
  have hd : Task.duty s { id := e.nextTask, job } = [job] := Task.duty_of_owner h
  unfold Engine.crew spawn
  rw [List.flatMap_append, List.flatMap_singleton, hd]

theorem spawn_stranger (e : Engine σ) {job : Job} (h : job.owner? ≠ some s) :
    (e.spawn job).crew s = e.crew s := by
  have hd : Task.duty s { id := e.nextTask, job } = [] := Task.duty_of_stranger h
  unfold Engine.crew spawn
  rw [List.flatMap_append, List.flatMap_singleton, hd, List.append_nil]

theorem report_crew (e : Engine σ) (s : Nat) (proxy : String) (delay : Int) :
    (e.report s proxy delay).crew s = (e.crew s).map (Job.deliver (proxy, delay)) := by
  unfold Engine.crew report
  rw [List.flatMap_map, List.map_flatMap]
  refine List.flatMap_congr fun t _ => ?_
  unfold Task.duty
  cases hj : t.job with
  | collecting plan missing deadline inbox =>
    by_cases hs : plan.session = s
    · have ho (inbox : List (String × Int)) :
          (Job.collecting plan missing deadline inbox).owner? = some s := congrArg some hs
      simp only [if_pos hs, ho, if_true, List.map_cons, List.map_nil, Job.deliver]
    · have ho : (Job.collecting plan missing deadline inbox).owner? ≠ some s :=
        fun h => hs (Option.some.inj h)
      simp only [if_neg hs, hj, if_neg ho, List.map_nil]
  | _ =>
    dsimp only
    rw [hj]
    split <;> rfl

theorem Numbered.crew_perm (h : Numbered [] e) (ht : t ∈ e.tasks) (ho : t.job.owner? = some s) :
    (e.crew s).Perm (t.job :: (e.without t).crew s) := by
  have hp : (e.crew s).Perm (t.duty s ++ (e.without t).crew s) :=
    (h.without_perm ht).flatMap_right _
  rwa [Task.duty_of_owner ho] at hp

theorem Numbered.crew_without (h : Numbered [] e) (ht : t ∈ e.tasks)
    (ho : t.job.owner? ≠ some s) : (e.without t).crew s = e.crew s := by
  obtain ⟨before, after, hl, hw⟩ := h.split ht
  rw [crew, crew, hl, hw, List.flatMap_append, List.flatMap_append, List.flatMap_cons,
    Task.duty_of_stranger ho, List.nil_append]

theorem park_crew (e : Engine σ) (t : Task) {job : Option Job}
    (hj : ∀ next ∈ job, next.owner? = some s) : (e.park t job).crew s = e.crew s ++ job.toList := by
  refine (park_read (Task.duty s) e t job).trans ?_
  cases job with
  | none => rfl
  | some next => exact congrArg _ (Task.duty_of_owner (hj next rfl))

theorem park_stranger (e : Engine σ) (t : Task) {job : Option Job}
    (hj : ∀ next ∈ job, next.owner? ≠ some s) : (e.park t job).crew s = e.crew s := by
  refine (park_read (Task.duty s) e t job).trans ?_
  cases job with
  | none => exact List.append_nil _
  | some next =>
    show _ ++ Task.duty s { id := t.id, job := next } = _
    rw [Task.duty_of_stranger (hj next rfl), List.append_nil, crew]

theorem newer_stranger {next : Nat} {plan : SessionPlan} (hs : s < next)
    (hp : next ≤ plan.session) : (Job.opening plan).owner? ≠ some s := by
  intro h
  have : plan.session = s := Option.some.inj h
  omega

theorem not_coordinating_of_owner {job : Job} (ho : job.owner? = some s) :
    job.isCoordinating = false := by
  cases job with
  | coordinating c => cases ho
  | _ => rfl

theorem resume_aborted_crew (C : Core σ) (ha : t.isAborted = true) (s : Nat) :
    (resume C e t).crew s = (e.without t).crew s := by
  simp only [resume, ha, if_true]
  exact crew_of_tasks (abandonJob_quiet _ _).tasks s

theorem resume_crew (C : Core σ) (ha : t.isAborted = false) (ho : t.job.owner? = some s) :
    (resume C e t).crew s = (stepJob C (e.without t) t.id t.job).1.crew s ++
      (stepJob C (e.without t) t.id t.job).2.toList := by
  rw [resume_lives C e ha]
  refine park_crew _ t fun next hn => ?_
  exact (stepJob_next C _ t.id (not_coordinating_of_owner ho) hn).2.2.trans ho

theorem resume_stranger (C : Core σ) (h : Numbered [] e) (ht : t ∈ e.tasks)
    (ho : t.job.owner? ≠ some s) (hs : s < e.nextSession) : (resume C e t).crew s = e.crew s := by
  rw [← h.crew_without ht ho]
  cases ha : t.isAborted with
  | true => exact resume_aborted_crew C ha s
  | false =>
    rw [resume_lives C e ha]
    cases hc : t.job.isCoordinating with
    | false =>
      have hstep : Tends (fun job => job.owner? ≠ some s) (e.without t) (t.job.queries ++ []) _ _ :=
        stepJob_tends C (e.without t) t.id hc fun hired hh hs' => by
          rcases hh.owner hs' with h | ⟨hn, _⟩
          · exact ho h
          · exact absurd hs (Nat.not_lt.mpr hn)
      refine (park_stranger _ t fun next hn => ?_).trans (hstep.crew fun _ h => h)
      exact (stepJob_next C _ t.id hc hn).2.2 ▸ ho
    | true =>
      obtain ⟨c, hj⟩ := Job.coordinator_of hc
      rw [hj]
      have hstep : Tends (fun job => job.owner? ≠ some s) (e.without t) [] _ [] :=
        stepCoordinator_tends (e.without t)
          (fun plan hp => newer_stranger hs hp) (fun _ => Job.stranger rfl) c
      refine (park_stranger _ t fun next hn => ?_).trans (hstep.crew fun _ h => h)
      obtain ⟨c', _, rfl⟩ := Option.map_eq_some_iff.mp hn
      exact Job.stranger rfl

theorem own_or_other (a : Action σ) (s : Nat) :
    (∃ t, a = .resume t ∧ t.job.owner? = some s) ∨
      ∀ t, a = .resume t → t.job.owner? ≠ some s := by
  by_cases h : ∃ t, a = .resume t ∧ t.job.owner? = some s
  · exact .inl h
  · exact .inr fun t ht ho => h ⟨t, ht, ho⟩

theorem perform_crew (C : Core σ) (h : Numbered [] e) {a : Action σ} (ha : e.Allows a)
    (hs : s < e.nextSession) (hother : ∀ t, a = .resume t → t.job.owner? ≠ some s) :
    (e.perform C a).crew s = e.crew s := by
  by_cases ht : a.IsTurn
  · cases a with
    | resume t => exact resume_stranger C h ha (hother t rfl) hs
    | turnTo t c branch =>
      have ho : t.job.owner? ≠ some s := Job.stranger (by rw [ha.2.1]; rfl)
      have hstep : Tends (fun job => job.owner? ≠ some s) (e.without t) [] _ [] :=
        takeBranch_tends (e.without t) (fun plan hp => newer_stranger hs hp)
          (fun _ => Job.stranger rfl) c branch
      rw [← h.crew_without ha.1 ho]
      refine (park_stranger _ t fun next hn => ?_).trans (hstep.crew fun _ h => h)
      obtain ⟨c', _, rfl⟩ := Option.map_eq_some_iff.mp hn
      exact Job.stranger rfl
    | _ => cases ht
  · have hstep : Tends (fun job => job.owner? ≠ some s) e [] _ [] :=
      perform_tends C e ht (fun plan hp => newer_stranger hs hp) (fun _ => Job.stranger rfl)
        fun _ => Job.stranger rfl
    exact hstep.crew fun _ h => h

theorem Tends.same_crew {hand hand' : List Query} (h : Tends (fun _ => False) e hand e' hand')
    (s : Nat) : e'.crew s = e.crew s :=
  h.crew fun _ hj => hj.elim

theorem stopSession_crew (e : Engine σ) (index : Nat) (outcome : SessionOutcome) (s : Nat) :
    (e.stopSession index outcome).1.crew s = e.crew s := by
  have h : Tends (fun _ => False) e [] _ [] := stopSession_tends e index outcome
  exact h.same_crew s

theorem stopSessions_crew (e : Engine σ) (indices : List Nat) (outcome : SessionOutcome) (s : Nat) :
    (e.stopSessions indices outcome).1.crew s = e.crew s := by
  have h : Tends (fun _ => False) e [] _ [] := stopSessions_tends indices outcome e
  exact h.same_crew s

theorem afterSession_crew (plan : SessionPlan) (x : Engine σ × SessionMove) (s : Nat) :
    (afterSession plan x).1.crew s = x.1.crew s := by
  obtain ⟨e, move⟩ := x
  cases move with
  | wait job => rfl
  | stop outcome =>
    have h : Tends (fun _ => False) e [] (e.finishSession plan outcome) [] :=
      finishSession_tends e plan outcome
    exact h.same_crew s
  | breakOff => rfl

theorem stepSession_crew (C : Core σ) (e : Engine σ) {job : Job} {plan : SessionPlan}
    (hp : job.plan? = some plan) (hjob : job ≠ .opening plan) (s : Nat) :
    (stepSession C e job).1.crew s = e.crew s := by
  have h : Tends (fun _ => False) e (job.queries ++ []) _ _ :=
    stepSession_tends C e hp fun hired (hh : job.Hires 0 hired) => by
      cases hh with
      | trigger group limit | probe hb =>
        cases hp
        exact hjob rfl
      | _ => cases hp
  exact h.same_crew s

theorem openPolling_crew (e : Engine σ) (plan : SessionPlan) :
    (e.openPolling plan).1.crew plan.session = e.crew plan.session ++
      [.triggering plan.session plan.group plan.budget.maxWait none] := by
  have hs : (e.spawn (.triggering plan.session plan.group plan.budget.maxWait none)).crew
      plan.session = _ := spawn_crew e rfl
  unfold openPolling
  dsimp only
  split
  · exact hs
  · split <;> exact hs

theorem stepTrigger_crew (C : Core σ) (e : Engine σ) (group : String) (limit : Nat)
    (call : Option Call) (s : Nat) : (stepTrigger C e group limit call).1.crew s = e.crew s := by
  have h : Tends (fun _ => False) e [] _ [] := stepTrigger_tends C e group limit call
  exact h.same_crew s

def Job.isOpening : Job → Bool
  | .opening _ => true
  | _ => false

def SessionMove.IsRipe : SessionMove → Prop
  | .wait job => Job.isOpening job = false
  | _ => True

theorem openPolling_ripe (e : Engine σ) (plan : SessionPlan) : (e.openPolling plan).2.IsRipe := by
  unfold openPolling
  dsimp only
  split
  · trivial
  · split
    · trivial
    · rfl

theorem openProbes_ripe (e : Engine σ) (plan : SessionPlan) : (e.openProbes plan).2.IsRipe := by
  unfold openProbes
  split
  · trivial
  · rfl

theorem tick_ripe (C : Core σ) (e : Engine σ) (plan : SessionPlan) (p : Polling) :
    (tick C e plan p).2.IsRipe := by
  unfold tick
  split
  · rfl
  · split
    · trivial
    · rfl

theorem afterPoll_ripe (e : Engine σ) (plan : SessionPlan) (p : Polling)
    (found : Option DelayTable) : (e.afterPoll plan p found).IsRipe := by
  unfold afterPoll
  dsimp only
  split
  · trivial
  · split
    · trivial
    · rfl

theorem poll_ripe (C : Core σ) (e : Engine σ) (plan : SessionPlan) (p : Polling) (query : Query) :
    (poll C e plan p query).2.IsRipe := by
  unfold poll
  split
  · rfl
  · exact afterPoll_ripe _ plan p none
  · exact afterPoll_ripe _ plan p _

theorem collect_ripe (e : Engine σ) (plan : SessionPlan) (missing deadline : Nat)
    (inbox : List (String × Int)) : (e.collect plan missing deadline inbox).2.IsRipe := by
  cases inbox with
  | nil =>
    show SessionMove.IsRipe (if missing = 0 then _ else _)
    split
    · trivial
    · split
      · trivial
      · rfl
  | cons report rest =>
    show SessionMove.IsRipe (if missing ≤ 1 then _ else _)
    split
    · trivial
    · rfl

theorem stepSession_ripe (C : Core σ) (e : Engine σ) {job : Job} (hp : job.plan?.isSome = true) :
    (stepSession C e job).2.IsRipe := by
  cases job with
  | opening plan =>
    unfold stepSession
    dsimp only
    split
    · exact openPolling_ripe e plan
    · exact openProbes_ripe e plan
  | ticking plan p => exact tick_ripe C e plan p
  | polling plan p query => exact poll_ripe C e plan p query
  | collecting plan missing deadline inbox => exact collect_ripe e plan missing deadline inbox
  | _ => cases hp

theorem stepJob_ripe (C : Core σ) (e : Engine σ) (id : Nat) {job next : Job}
    (ho : job.owner? = some s) (hn : next ∈ (stepJob C e id job).2) :
    Job.isOpening next = false := by
  cases hp : job.plan? with
  | some plan =>
    have hripe : (stepSession C e job).2.IsRipe := stepSession_ripe C e (by rw [hp]; rfl)
    rw [stepJob_session C e id hp] at hn
    rcases hx : stepSession C e job with ⟨e', move⟩
    rw [hx] at hn hripe
    cases move with
    | wait job' =>
      cases hn
      exact hripe
    | stop outcome | breakOff => cases hn
  | none =>
    cases job with
    | batch b =>
      obtain ⟨x, _, rfl⟩ := Option.map_eq_some_iff.mp hn
      rfl
    | triggering session group limit call =>
      obtain ⟨x, _, rfl⟩ := Option.map_eq_some_iff.mp hn
      rfl
    | opening | ticking | polling | collecting => cases hp
    | _ => cases ho

structure Employs (e : Engine σ) : Prop where
  started : ∀ s, e.nextSession ≤ s → e.crew s = []
  alone : ∀ s, ∀ job ∈ e.crew s, Job.isOpening job = true → e.crew s = [job]

def Newcomer (s : Nat) (e : Engine σ) : Prop :=
  e.crew s = [] ∨ s < e.nextSession ∧ ∃ plan, e.crew s = [.opening plan]

theorem openSession_tasks (e : Engine σ) (index session : Nat) (g : Group) :
    ∃ plan : SessionPlan, plan.session = session ∧
      (e.openSession index session g).tasks =
        e.tasks ++ [{ id := e.nextTask, job := .opening plan }] :=
  ⟨_, rfl, rfl⟩

theorem openSession_newcomer (hnone : e.crew s = []) {session : Nat} (hn : session < e.nextSession)
    (index : Nat) (g : Group) : Newcomer s (e.openSession index session g) := by
  obtain ⟨plan, hplan, htasks⟩ := openSession_tasks e index session g
  have hcrew : (e.openSession index session g).crew s =
      Task.duty s { id := e.nextTask, job := .opening plan } := by
    rw [crew, htasks, List.flatMap_append, List.flatMap_singleton]
    exact congrArg (· ++ _) hnone
  by_cases hs : session = s
  · have ho : (Job.opening plan).owner? = some s := congrArg some (hplan.trans hs)
    exact .inr ⟨hs ▸ hn, plan, hcrew.trans (Task.duty_of_owner ho)⟩
  · have ho : (Job.opening plan).owner? ≠ some s :=
      fun h => hs (hplan.symm.trans (Option.some.inj h))
    exact .inl (hcrew.trans (Task.duty_of_stranger ho))

theorem requestTest_newcomer (hnone : e.crew s = []) (index : Nat) :
    Newcomer s (e.requestTest index).1 := by
  unfold requestTest
  split
  · exact .inl hnone
  · split
    · exact .inl hnone
    · dsimp only
      split
      · exact openSession_newcomer (e := { e with nextSession := e.nextSession + 1 }) hnone
          (Nat.lt_succ_self _) index _
      · next running _ =>
        split
        · exact .inl hnone
        · refine openSession_newcomer ?_ (Nat.lt_succ_self _) index _
          have hc : Tends (fun _ => False) { e with nextSession := e.nextSession + 1 } [] _ [] :=
            cancel_tends _ running.id
          exact (hc.same_crew s).trans hnone

theorem requestBackgroundTest_newcomer (hnone : e.crew s = [])
    (index : Nat) : Newcomer s (e.requestBackgroundTest index).1 := by
  unfold requestBackgroundTest
  dsimp only
  split
  · exact .inl hnone
  · exact requestTest_newcomer hnone index

theorem testInBackground_newcomer (hnone : e.crew s = [])
    (group : String) : Newcomer s (e.testInBackground group) := by
  unfold testInBackground
  split
  · exact requestBackgroundTest_newcomer hnone _
  · exact .inl ((spawn_stranger e (Job.stranger rfl)).trans hnone)

theorem afterRequest_crew (id : Nat) (x : Engine σ × RequestMove) (s : Nat) :
    (afterRequest id x).1.crew s = x.1.crew s :=
  crew_of_tasks (afterRequest_quiet id x).tasks s

theorem takeChoice_newcomer (hnone : e.crew s = []) (choice : Choice)
    (answer : Answer Bool) : Newcomer s (e.takeChoice choice answer).1 := by
  unfold takeChoice
  split
  · exact .inl hnone
  · exact .inl hnone
  · dsimp only
    split
    · exact testInBackground_newcomer
        (e := e.write (·.setSelection choice.index choice.group choice.proxy)) hnone _
    · exact .inl hnone

theorem stepChoosing_newcomer (hnone : e.crew s = []) (C : Core σ)
    (choice : Choice) (call : Call) :
    Newcomer s (stepRequest C e (.choosing choice call)).1 := by
  have hq := hear_quiet call (C.choose choice.group choice.proxy) e
  unfold stepRequest
  dsimp only
  split
  · next he =>
    rw [he] at hq
    exact .inl ((crew_of_tasks hq.tasks s).trans hnone)
  · next e' answer he =>
    rw [he] at hq
    have hq := hq.trans (note_quiet (.choose choice.group choice.proxy) answer e')
    exact takeChoice_newcomer ((crew_of_tasks hq.tasks s).trans hnone) choice answer

theorem takeBranch_newcomer (hnone : e.crew s = []) (c : Coordinator)
    (branch : Coordinator.Branch) : Newcomer s (e.takeBranch c branch).1 := by
  have stranger (r : Request) : Newcomer s (e.spawn (.start r)) :=
    .inl ((spawn_stranger e (Job.stranger rfl)).trans hnone)
  have stopped (indices : List Nat) (outcome : SessionOutcome) :
      (e.stopSessions indices outcome).1.crew s = [] :=
    (stopSessions_crew e indices outcome s).trans hnone
  cases branch with
  | intent =>
    unfold takeBranch
    dsimp only
    split
    · next intent rest _ =>
      cases intent with
      | reloadAll | reload index | select index proxy | setMode mode | refresh => exact stranger _
      | test index => exact requestTest_newcomer hnone index
      | stop index => exact .inl ((stopSession_crew e index _ s).trans hnone)
      | stopAll => exact .inl (stopped _ _)
      | sortByDelay on => exact .inl hnone
    · exact .inl (stopped _ _)
  | tick => exact .inl (stopped _ _)
  | update =>
    unfold takeBranch
    dsimp only
    split
    · exact .inl hnone
    · exact .inl hnone
  | stop => exact .inl (stopped _ _)

theorem Newcomer.park (h : Newcomer s e) {job : Option Job}
    (hj : ∀ next ∈ job, next.owner? ≠ some s) : Newcomer s (e.park t job) := by
  have hn : (e.park t job).nextSession = e.nextSession := by
    cases job <;> rfl
  unfold Newcomer
  rw [park_stranger e t hj, hn]
  exact h

theorem resume_newcomer (C : Core σ) (hn : Numbered [] e) (ht : t ∈ e.tasks)
    (hnone : e.crew s = []) : Newcomer s (resume C e t) := by
  have ho : t.job.owner? ≠ some s := fun ho => by
    have hm : t.job ∈ e.crew s := mem_crew.mpr ⟨ho, t, ht, rfl⟩
    rw [hnone] at hm
    cases hm
  have hleft : (e.without t).crew s = [] := (hn.crew_without ht ho).trans hnone
  cases ha : t.isAborted with
  | true => exact .inl ((resume_aborted_crew C ha s).trans hleft)
  | false =>
    rw [resume_lives C e ha]
    cases hc : t.job.isCoordinating with
    | true =>
      obtain ⟨c, hj⟩ := Job.coordinator_of hc
      rw [hj]
      refine Newcomer.park ?_ fun next hnext => ?_
      · show Newcomer s (stepCoordinator (e.without t) c).1
        unfold stepCoordinator
        split
        · exact takeBranch_newcomer (e := e.without t) hleft c _
        · exact .inl hleft
      · obtain ⟨c', _, rfl⟩ := Option.map_eq_some_iff.mp hnext
        exact Job.stranger rfl
    | false =>
      refine Newcomer.park ?_ fun next hnext => (stepJob_next C _ t.id hc hnext).2.2 ▸ ho
      cases hj : t.job with
      | choosing choice call =>
        show Newcomer s (afterRequest t.id (stepRequest C (e.without t) (.choosing choice call))).1
        unfold Newcomer
        rw [afterRequest_crew, (afterRequest_quiet t.id _).nextSession]
        exact stepChoosing_newcomer (e := e.without t) hleft C choice call
      | coordinating c =>
        rw [hj] at hc
        cases hc
      | _ =>
        have hstep : Tends (fun job => job.owner? ≠ some s) (e.without t) (_ ++ []) _ _ :=
          stepJob_tends C (e.without t) t.id (hj ▸ hc) fun hired hh hs' => by
            rcases hh.owner hs' with h | ⟨_, choice, call, h⟩
            · exact ho (hj ▸ h)
            · cases h
        exact .inl ((hstep.crew fun _ h => h).trans hleft)

theorem perform_newcomer (C : Core σ) (hn : Numbered [] e) {a : Action σ} (ha : e.Allows a)
    (hnone : e.crew s = []) : Newcomer s (e.perform C a) := by
  by_cases hside : a.IsAside
  · by_cases hi : a.Instructs
    · rw [perform_instructs C e hi]
      have h : Tends (fun job => job.owner? ≠ some s) e [] (e.instruct (e.told a)) [] :=
        instruct_tends (fun _ => Job.stranger rfl) e _
      exact .inl ((h.crew fun _ h => h).trans hnone)
    · cases a with
      | test index => exact requestTest_newcomer hnone index
      | backgroundTest index => exact requestBackgroundTest_newcomer hnone index
      | stop index => exact .inl ((stopSession_crew e index _ s).trans hnone)
      | stopAll | sweepSessions =>
        exact .inl ((stopSessions_crew e _ _ s).trans hnone)
      | resume t | turnTo t c branch | request r | startCoordinator takesUpdates => cases hside
      | send handle intent | sendConfig handle next | closeUpdates handle | dropHandle handle
      | shutdown => exact absurd trivial hi
      | _ => exact .inl hnone
  · cases a with
    | resume t => exact resume_newcomer C hn ha hnone
    | turnTo t c branch =>
      have ho : t.job.owner? ≠ some s := Job.stranger (by rw [ha.2.1]; rfl)
      refine Newcomer.park ?_ fun next hnext => ?_
      · exact takeBranch_newcomer ((hn.crew_without ha.1 ho).trans hnone) c branch
      · obtain ⟨c', _, rfl⟩ := Option.map_eq_some_iff.mp hnext
        exact Job.stranger rfl
    | request r | startCoordinator takesUpdates =>
      exact .inl ((spawn_stranger e (Job.stranger rfl)).trans hnone)
    | _ => exact absurd trivial hside

theorem resume_ripe (C : Core σ) (h : Employs e) (hn : Numbered [] e) (ht : t ∈ e.tasks)
    (ho : t.job.owner? = some s) : ∀ job ∈ (resume C e t).crew s, Job.isOpening job = false := by
  have hperm := hn.crew_perm ht ho
  have hmem : t.job ∈ e.crew s := hperm.mem_iff.mpr List.mem_cons_self
  -- the one that opens the session is alone, so it is this task or there is none
  have hleft : ∀ job ∈ (e.without t).crew s, Job.isOpening job = false := by
    intro job hj
    have hj' : job ∈ e.crew s := hperm.mem_iff.mpr (List.mem_cons_of_mem _ hj)
    cases hopen : Job.isOpening job with
    | false => rfl
    | true =>
      have hlength := hperm.length_eq
      rw [h.alone s job hj' hopen] at hlength
      simp only [List.length_cons, List.length_nil] at hlength
      have := List.length_pos_of_mem hj
      omega
  cases ha : t.isAborted with
  | true =>
    rw [resume_aborted_crew C ha]
    exact hleft
  | false =>
    have hstep : Tends (fun job => Job.isOpening job = false) (e.without t)
        (t.job.queries ++ []) _ _ :=
      stepJob_tends C (e.without t) t.id (not_coordinating_of_owner ho) fun hired hh => by
        cases hj : t.job with
        | choosing choice call =>
          rw [hj] at ho
          cases ho
        | _ =>
          rw [hj] at hh
          cases hh <;> rfl
    have hall := hstep.staffs.all
      (Q := fun u => u.job.owner? = some s → Job.isOpening u.job = false) (fun u u' hu hq => by
        cases hu with
        | abort isAborted => exact hq
        | report inbox | coordinate c => exact fun _ => rfl) (fun _ _ _ hj _ => hj)
      fun u hu huo => hleft u.job (mem_crew.mpr ⟨huo, u, hu, rfl⟩)
    rw [resume_crew C ha ho]
    intro job hj
    rcases List.mem_append.mp hj with hj | hj
    · obtain ⟨hjo, u, hu, rfl⟩ := mem_crew.mp hj
      exact hall u hu hjo
    · exact stepJob_ripe C _ t.id ho (Option.mem_toList.mp hj)

theorem Employs.perform (h : Employs e) (C : Core σ) (hc : Coherent e) (hn : Numbered [] e)
    {a : Action σ} (ha : e.Allows a) : Employs (e.perform C a) := by
  have hnext : e.nextSession ≤ (e.perform C a).nextSession :=
    ((perform_moves C hc ha).follows hc).next
  -- of the sessions to come one may begin, those that are there go on
  have hcases (s : Nat) : Newcomer s (e.perform C a) ∨ s < e.nextSession := by
    rcases Nat.lt_or_ge s e.nextSession with hs | hs
    · exact .inr hs
    · exact .inl (perform_newcomer C hn ha (h.started s hs))
  constructor
  case started =>
    intro s hs
    rcases hcases s with hnone | hlt
    · exact hnone.resolve_right fun ⟨hlt, _⟩ => absurd hlt (Nat.not_lt.mpr hs)
    · omega
  case alone =>
    intro s job hj hopen
    rcases hcases s with (hnone | ⟨_, plan, hone⟩) | hlt
    · rw [hnone] at hj
      cases hj
    · rw [hone] at hj ⊢
      rw [List.mem_singleton.mp hj]
    · rcases own_or_other a s with ⟨t, rfl, ho⟩ | hother
      · rw [resume_ripe C h hn ha ho job hj] at hopen
        cases hopen
      · have hsame := perform_crew C hn ha hlt hother
        rw [hsame] at hj ⊢
        exact h.alone s job hj hopen

theorem new_employs (core : σ) (config : Config) (overrides : Overrides) :
    Employs (Engine.new core config overrides) :=
  ⟨fun _ _ => rfl, fun _ _ hj => nomatch hj⟩

theorem Reachable.employs (h : Reachable C e) : Employs e := by
  obtain ⟨core, config, overrides, calls, hr⟩ := h
  have hc := new_coherent core config overrides
  exact (hr.keeps (Q := fun e => Numbered [] e ∧ Employs e)
    (fun _ _ hc ha hq => ⟨hq.1.perform C hc ha, hq.2.perform C hc hq.1 ha⟩) hc
    ⟨new_numbered core config overrides, new_employs core config overrides⟩).2

structure Sound (e : Engine σ) : Prop where
  coherent : Coherent e
  numbered : Numbered [] e
  employs : Employs e

theorem Sound.opens_alone (h : Sound e) {t : Task} {plan : SessionPlan} (ht : t ∈ e.tasks)
    (hj : t.job = .opening plan) : (e.without t).crew plan.session = [] := by
  have ho : t.job.owner? = some plan.session := by
    rw [hj]
    rfl
  have halone := h.employs.alone plan.session t.job (mem_crew.mpr ⟨ho, t, ht, rfl⟩)
    (by rw [hj]; rfl)
  have hperm := h.numbered.crew_perm ht ho
  rw [halone] at hperm
  exact hperm.cons_inv.symm.eq_nil

theorem Sound.perform (h : Sound e) (C : Core σ) {a : Action σ} (ha : e.Allows a) :
    Sound (e.perform C a) :=
  ⟨(perform_moves C h.coherent ha).coherent h.coherent, h.numbered.perform C h.coherent ha,
    h.employs.perform C h.coherent h.numbered ha⟩

theorem Sound.nextSession_le (h : Sound e) (C : Core σ) {a : Action σ} (ha : e.Allows a) :
    e.nextSession ≤ (e.perform C a).nextSession :=
  ((perform_moves C h.coherent ha).follows h.coherent).next

theorem Reachable.sound (h : Reachable C e) : Sound e :=
  ⟨h.coherent, h.numbered, h.employs⟩

end Engine

end ProxyPulse
