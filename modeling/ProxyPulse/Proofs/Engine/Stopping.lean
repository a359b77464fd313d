import ProxyPulse.Proofs.Engine.Convergence
import ProxyPulse.Proofs.Engine.Overheard

namespace ProxyPulse

variable {σ : Type}

def Job.queued : Job → List String
  | .batch b => b.waiting
  | _ => []

namespace Engine

variable {C : Core σ} {e e' : Engine σ} {t : Task} {s : Nat} {P : Engine σ → Action σ → Prop}

def operations (C : Core σ) (s : Nat) (e : Engine σ) : Action σ → List Operation :=
  e.noted C.traced (·.job.owner? = some s)

def queued (e : Engine σ) (s : Nat) : List String :=
  (e.crew s).flatMap Job.queued

def Halted (e : Engine σ) (s : Nat) : Prop :=
  ∀ job ∈ e.crew s, (∃ b, job = .batch b) ∨
    ∃ group limit call, job = .triggering (some s) group limit (some call)

theorem Gone.halted (hgone : e.Gone s) (hc : Coherent e)
    (hquiet : ∀ t ∈ e.tasks, t.job.owner? = some s → e.isReady t = false) : e.Halted s := by
  intro job hj
  obtain ⟨ho, t, ht, rfl⟩ := mem_crew.mp hj
  have hready := hquiet t ht ho
  rw [isReady, Bool.or_eq_false_iff] at hready
  obtain ⟨hlive, hover⟩ := hready
  cases hp : t.job.plan? with
  | some plan =>
    have htp : t.plan? = some plan := by
      rw [Task.plan?, hlive]
      exact hp
    obtain ⟨x, hx, hid, _⟩ := hc.watched plan (List.mem_filterMap.mpr ⟨t, ht, htp⟩)
    have hs : plan.session = s := Option.some.inj ((owner_of_plan hp).symm.trans ho)
    exact absurd (hid.trans hs) (hgone plan.index x hx)
  | none =>
    cases hjob : t.job with
    | batch b => exact .inl ⟨b, rfl⟩
    | triggering session group limit call =>
      rw [hjob] at ho hover
      obtain rfl : session = some s := ho
      cases call with
      | some call => exact .inr ⟨group, limit, call, rfl⟩
      | none => cases hover
    | opening | ticking | polling | collecting => rw [hjob] at hp; cases hp
    | _ => rw [hjob] at ho; cases ho

theorem Halted.receive (h : e.Halted s) (deeds : List Deed) :
    (e.crew s).map (Deed.deliverAll deeds) = e.crew s := by
  have hdeaf (deed : Deed) : ∀ job ∈ e.crew s, deed.deliver job = job := by
    intro job hj
    cases deed with
    | reported proxy answer => rcases h job hj with ⟨b, rfl⟩ | ⟨group, limit, call, rfl⟩ <;> rfl
    | _ => rfl
  have hsame : ∀ job ∈ e.crew s, Deed.deliverAll deeds job = job := by
    intro job hj
    induction deeds with
    | nil => rfl
    | cons deed rest ih =>
      show Deed.deliverAll rest (deed.deliver job) = job
      rw [hdeaf deed job hj, ih]
  exact (List.map_congr_left hsame).trans (List.map_id _)

theorem Halted.rest (hleft : (e.without t).Halted s) {next : Option Job}
    (hcrew : e'.crew s = (e.without t).crew s ++ next.toList)
    (hnext : ∀ job ∈ next, (∃ b, job = .batch b) ∨
      ∃ group limit call, job = .triggering (some s) group limit (some call)) :
    e'.Halted s ∧ e'.queued s = (e.without t).queued s ++ next.elim [] Job.queued := by
  constructor
  · intro job hjob
    rw [hcrew] at hjob
    rcases List.mem_append.mp hjob with hjob | hjob
    · exact hleft job hjob
    · exact hnext job (Option.mem_toList.mp hjob)
  · rw [queued, hcrew, List.flatMap_append]
    congr 1
    cases next with
    | none => rfl
    | some job => exact List.flatMap_singleton _ _

theorem stepJob_asks (C : Core σ) (e : Engine σ) (id : Nat) {job : Job}
    (h : (∃ b, job = .batch b) ∨
      ∃ group limit call, job = .triggering (some s) group limit (some call)) :
    (stepJob C.traced e.withLog id job).1.core.2 ++
      ((stepJob C e id job).2.elim [] Job.queued).map Operation.probe =
        job.queued.map Operation.probe := by
  rcases h with ⟨b, rfl⟩ | ⟨group, limit, call, rfl⟩
  · -- the probe that starts is the first in the queue
    obtain ⟨said, hlog, hturn⟩ := stepBatch_noting C (fun note => note.asked?.toList) e.withLog b
    have hasked : (stepBatch C.traced e.withLog b).1.core.2 = said.filterMap Note.asked? :=
      (hlog.trans (List.nil_append _)).trans (List.filterMap_eq_flatMap_toList _ said).symm
    have hwaiting : (stepJob C e id (.batch b)).2.elim [] Job.queued =
        (stepBatch C e b).2.elim [] ProbeBatch.waiting := by
      show ((stepBatch C e b).2.map Job.batch).elim [] Job.queued = _
      cases (stepBatch C e b).2 <;> rfl
    show (stepBatch C.traced e.withLog b).1.core.2 ++ _ = b.waiting.map _
    rw [hasked, hwaiting]
    exact hturn.asks
  · have hnobody : (stepJob C e id (.triggering (some s) group limit (some call))).2.elim []
        Job.queued = [] := by
      show ((stepTrigger C e group limit (some call)).2.map _).elim [] Job.queued = _
      cases (stepTrigger C e group limit (some call)).2 <;> rfl
    rw [hnobody]
    exact (List.append_nil _).trans (stepTrigger_log C _ e.withLog group limit call)

theorem Halted.leaves (h : e.Halted s) (C : Core σ) (id : Nat) {job : Job}
    (ho : job.owner? = some s)
    (hj : (∃ b, job = .batch b) ∨
      ∃ group limit call, job = .triggering (some s) group limit (some call)) :
    (stepJob C e id job).1.crew s = e.crew s ∧
      ∀ next ∈ (stepJob C e id job).2, (∃ b, next = .batch b) ∨
        ∃ group limit call, next = .triggering (some s) group limit (some call) := by
  rcases hj with ⟨b, rfl⟩ | ⟨group, limit, call, rfl⟩
  · have hs : b.session = s := Option.some.inj ho
    refine ⟨?_, fun next hnext => ?_⟩
    · show (stepBatch C e b).1.crew s = e.crew s
      rw [← hs, stepBatch_crew, hs]
      exact h.receive _
    · obtain ⟨b', _, rfl⟩ := Option.map_eq_some_iff.mp hnext
      exact .inl ⟨b', rfl⟩
  · refine ⟨stepTrigger_crew C e group limit (some call) s, fun next hnext => ?_⟩
    obtain ⟨call', _, rfl⟩ := Option.map_eq_some_iff.mp hnext
    exact .inr ⟨group, limit, call', rfl⟩

theorem Halted.turn (h : e.Halted s) (hsound : Sound e) (C : Core σ) (ht : t ∈ e.tasks)
    (ho : t.job.owner? = some s) : (resume C e t).Halted s ∧
      (e.operations C s (.resume t) ++ ((resume C e t).queued s).map Operation.probe).Perm
        ((e.queued s).map Operation.probe) := by
  have hperm := hsound.numbered.crew_perm ht ho
  have hleft : (e.without t).Halted s := fun job hj =>
    h job (hperm.mem_iff.mpr (List.mem_cons_of_mem _ hj))
  have hkind := h t.job (hperm.mem_iff.mpr List.mem_cons_self)
  have hnone : t.job.plan? = none := by
    rcases hkind with ⟨b, hj⟩ | ⟨group, limit, call, hj⟩ <;> rw [hj] <;> rfl
  have hlive := not_aborted_of_proper (hsound.coherent.proper t ht) hnone
  have hops : e.operations C s (.resume t) =
      (stepJob C.traced (e.withLog.without t) t.id t.job).1.core.2 := by
    rw [operations, noted, if_pos ho, resume_core C.traced e.withLog hlive]
  obtain ⟨hsame, hnext⟩ := hleft.leaves C t.id ho hkind
  have hcrew := (resume_crew C hlive ho).trans (congrArg (· ++ _) hsame)
  obtain ⟨hhalted, hqueued⟩ := hleft.rest hcrew hnext
  have hqueue : (t.job.queued ++ (e.without t).queued s).Perm (e.queued s) :=
    (hperm.flatMap_right _).symm
  refine ⟨hhalted, List.Perm.trans ?_ (hqueue.map _)⟩
  have hasks := stepJob_asks C (e.without t) t.id hkind
  rw [hops, hqueued, List.map_append, List.map_append, ← hasks, List.append_assoc]
  exact List.perm_append_comm.append_left _

theorem Halted.act (h : e.Halted s) (hsound : Sound e) (hs : s < e.nextSession) (C : Core σ)
    {a : Action σ} (ha : e.Allows a) : (e.perform C a).Halted s ∧
      (e.operations C s a ++ ((e.perform C a).queued s).map Operation.probe).Perm
        ((e.queued s).map Operation.probe) := by
  rcases own_or_other a s with ⟨t, rfl, ho⟩ | hother
  · exact h.turn hsound C ha ho
  · have hsame := perform_crew C hsound.numbered ha hs hother
    refine ⟨fun job hj => h job (hsame ▸ hj), ?_⟩
    rw [operations, noted_stranger hother, queued, hsame]
    exact .refl _

theorem Halted.course (h : e.Halted s) (hsound : Sound e) (hs : s < e.nextSession)
    {D : List (Nat × Operation)} (hrun : Course (Acts C (operations C s) P) e D e') :
    (D.map Prod.snd ++ (e'.queued s).map Operation.probe).Perm
      ((e.queued s).map Operation.probe) := by
  obtain ⟨_, _, _, hperm⟩ := hrun.keeps_sound hsound
    (Q := fun D e' => s < e'.nextSession ∧ e'.Halted s ∧
      (D.map Prod.snd ++ (e'.queued s).map Operation.probe).Perm
        ((e.queued s).map Operation.probe))
    (fun D e' a hsound ha _ hq => by
      obtain ⟨hs, hhalted, hperm⟩ := hq
      obtain ⟨hhalted', hstep⟩ := hhalted.act hsound hs C ha
      refine ⟨Nat.lt_of_lt_of_le hs (hsound.nextSession_le C ha), hhalted',
        List.Perm.trans ?_ hperm⟩
      have hnotes : ((e'.operations C s a).map (e'.now, ·)).map Prod.snd =
          e'.operations C s a := by
        rw [List.map_map]
        exact List.map_id _
      rw [List.map_append, hnotes, List.append_assoc]
      exact hstep.append_left _)
    ⟨hs, h, .refl _⟩
  exact hperm

theorem PollCrew.queued {plan : SessionPlan} {watch : Option Job} (h : PollCrew plan watch e) :
    e.queued plan.session = [] := by
  refine List.flatMap_eq_nil_iff.mpr fun job hj => ?_
  obtain ⟨trigger, hcrew, htrigger⟩ := h.crew
  rcases List.mem_append.mp (hcrew.mem_iff.mp hj) with hj | hj
  · have hp := h.polls job (Option.mem_toList.mp hj)
    cases hp <;> rfl
  · have ht := htrigger job (Option.mem_toList.mp hj)
    cases job with
    | batch b => cases ht
    | _ => rfl

/-- What is asked of the core for a session that has left the table, once everything that can go on
has done so: at most the probes that were waiting for a place then, each of them once. They wait
only while all places are taken, and a session that polls has none. -/
theorem stops_leave_queued_probes (he : Reachable C e) (hs : s < e.nextSession)
    (hgone : e.Gone s) (hquiet : ∀ t ∈ e.tasks, t.job.owner? = some s → e.isReady t = false)
    {D : List (Nat × Operation)} (hrun : Course (Acts C (operations C s) P) e D e') :
    (D.map Prod.snd ++ (e'.queued s).map Operation.probe).Perm
      ((e.queued s).map Operation.probe) ∧
    (e.queued s = [] → D = []) ∧
    (∀ job ∈ e.crew s, ∀ proxy ∈ job.queued,
      ∃ b, job = .batch b ∧ b.concurrency ≤ b.running.length) ∧
    ∀ (e₀ : Engine σ) (plan : SessionPlan), Reachable C e₀ → plan.session = s →
      plan.strategy = .group → .opening plan ∈ e₀.crew s → Reaches C e₀ e → D = [] := by
  have hperm := (hgone.halted he.coherent hquiet).course he.sound hs hrun
  have hnothing (hnone : e.queued s = []) : D = [] := by
    rw [hnone, List.map_nil, List.perm_nil, List.append_eq_nil_iff, List.map_eq_nil_iff] at hperm
    exact hperm.1
  refine ⟨hperm, hnothing, fun job hj proxy hp => ?_, fun e₀ plan he₀ hplan hg hopen hr => ?_⟩
  · cases job with
    | batch b =>
      refine ⟨b, rfl, ?_⟩
      obtain ⟨ho, t, ht, hjob⟩ := mem_crew.mp hj
      have hready := hquiet t ht (hjob ▸ ho)
      by_contra hlt
      have hroom : b.hasRoom = true := by
        rw [ProbeBatch.hasRoom, Bool.and_eq_true, decide_eq_true_iff]
        refine ⟨?_, Nat.lt_of_not_le hlt⟩
        cases hw : b.waiting with
        | nil => rw [show Job.queued (.batch b) = b.waiting from rfl, hw] at hp; cases hp
        | cons proxy waiting => rfl
      rw [isReady, hjob, Bool.or_eq_false_iff, List.any_eq_false] at hready
      refine hready.2 .turn ?_ rfl
      show Wait.turn ∈ b.waits
      rw [ProbeBatch.waits, if_pos hroom]
      exact List.mem_cons_self
    | _ => cases hp
  · subst hplan
    obtain ⟨D₀, hcourse⟩ := hr.course (deeds C plan.session)
    obtain ⟨watch, hcrew, _⟩ := hcourse.tallied he₀.sound hg hopen
    exact hnothing hcrew.queued

def stoppedPair : Engine Unit :=
  settle Core.pair 9 (halted Core.pair (openedPair ⟨1000, 1, 8000⟩))

theorem stoppedPair_reachable : Reachable Core.pair stoppedPair := by
  have hstop := (openedPair_reachable ⟨1000, 1, 8000⟩).reaches (halted_reaches Core.pair _)
  exact hstop.reaches (settleAround_reaches Core.pair none 9 _)

theorem stoppedPair_gone : stoppedPair.Gone 1 :=
  gone_of_isEmpty (by decide) 1

theorem stoppedPair_quiet : ∀ t ∈ stoppedPair.tasks, stoppedPair.isReady t = false := by
  have hall : stoppedPair.tasks.all (fun t => !stoppedPair.isReady t) = true := by decide
  intro t ht
  simpa using List.all_eq_true.mp hall t ht

theorem probe_after_the_stop :
    Reachable Core.pair stoppedPair ∧ 1 < stoppedPair.nextSession ∧ stoppedPair.Gone 1 ∧
      (∀ t ∈ stoppedPair.tasks, stoppedPair.isReady t = false) ∧
      let run := play Core.pair (operations Core.pair 1) 3 stoppedPair
      Course (Acts Core.pair (operations Core.pair 1) Prompt) stoppedPair run.1 run.2 ∧
        run.1 = [(300, .probe "proxy")] :=
  ⟨stoppedPair_reachable, by decide, stoppedPair_gone, stoppedPair_quiet, play_course _ _ 3 _,
    by decide⟩

theorem stops_leave_queued_probes_pair :
    let run := play Core.pair (operations Core.pair 1) 3 stoppedPair
    (run.1.map Prod.snd ++ (run.2.queued 1).map Operation.probe).Perm [.probe "proxy"] := by
  intro run
  have hrun : Course (Acts Core.pair (operations Core.pair 1) Prompt) stoppedPair run.1 run.2 :=
    play_course _ _ 3 _
  obtain ⟨hperm, _⟩ := stops_leave_queued_probes stoppedPair_reachable (by decide)
    stoppedPair_gone (fun t ht _ => stoppedPair_quiet t ht) hrun
  have hqueued : (stoppedPair.queued 1).map Operation.probe = [.probe "proxy"] := by decide
  rwa [hqueued] at hperm

end Engine

end ProxyPulse
