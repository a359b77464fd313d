import ProxyPulse.Proofs.Engine.Polling
import ProxyPulse.Proofs.Engine.Probes

namespace ProxyPulse

inductive Job.Collects (plan : SessionPlan) : Job → Prop
  | opening : Collects plan (.opening plan)
  | collecting (missing deadline : Nat) (inbox : List (String × Int)) :
    Collects plan (.collecting plan missing deadline inbox)

theorem Job.Collects.plan {plan : SessionPlan} {job : Job} (h : job.Collects plan) :
    job.plan? = some plan := by
  cases h <;> rfl

theorem Job.Collects.deliver {plan : SessionPlan} {job : Job} (h : job.Collects plan)
    (deed : Deed) : (deed.deliver job).Collects plan := by
  cases deed with
  | reported proxy answer =>
    cases h with
    | opening => exact .opening
    | collecting => exact .collecting _ _ _
  | _ => exact h

theorem Job.Collects.deliverAll {plan : SessionPlan} {job : Job} (h : job.Collects plan)
    (deeds : List Deed) : (Deed.deliverAll deeds job).Collects plan := by
  induction deeds generalizing job with
  | nil => exact h
  | cons deed rest ih => exact ih (h.deliver deed)

def SessionPlan.probes (plan : SessionPlan) : ProbeBatch where
  session := plan.session
  limit := plan.config.runtime.probeTimeout + plan.config.runtime.requestTimeout
  concurrency := plan.budget.concurrency
  waiting := plan.members
  running := []

namespace Engine

variable {σ : Type} {C : Core σ} {e e' : Engine σ} {plan : SessionPlan} {watch : Option Job}
  {batch : Option ProbeBatch} {t : Task} {b : ProbeBatch} {s : Nat}
  {P : Engine σ → Action σ → Prop}

def Unstopped (s : Nat) (_ : Engine σ) : Action σ → Prop
  | .resume t => t.job.owner? = some s → t.isAborted = false
  | _ => True

inductive ProbeStep (plan : SessionPlan) (now : Nat) :
    Option Job → Option ProbeBatch → List Deed → Option Job → Option ProbeBatch → Prop
  | rest {watch : Option Job} {batch : Option ProbeBatch} :
    ProbeStep plan now watch batch [] watch batch
  | breakOff : maxConcurrency < plan.budget.concurrency →
    ProbeStep plan now (some (.opening plan)) none [.cutOff] none none
  | open : plan.budget.concurrency ≤ maxConcurrency →
    ProbeStep plan now (some (.opening plan)) none [.opened]
      (some (.collecting plan plan.members.length (now + plan.budget.maxWait) []))
      (some plan.probes)
  | probe {watch : Option Job} {b : ProbeBatch} {next : Option ProbeBatch} {deeds : List Deed} :
    BatchStep b next deeds →
    ProbeStep plan now watch (some b) deeds (watch.map (Deed.deliverAll deeds)) next
  | shuffle {watch : Option Job} {b : ProbeBatch} {waiting : List String}
    {running : List (String × Call)} : waiting.Perm b.waiting → running.Perm b.running →
    ProbeStep plan now watch (some b) [] watch (some { b with waiting, running })
  | take {missing deadline : Nat} {proxy : String} {delay : Int} {inbox : List (String × Int)}
    {batch : Option ProbeBatch} : 1 < missing →
    ProbeStep plan now (some (.collecting plan missing deadline ((proxy, delay) :: inbox))) batch
      [.shown proxy delay] (some (.collecting plan (missing - 1) deadline inbox)) batch
  | finish {missing deadline : Nat} {proxy : String} {delay : Int} {inbox : List (String × Int)}
    {batch : Option ProbeBatch} : missing ≤ 1 →
    ProbeStep plan now (some (.collecting plan missing deadline ((proxy, delay) :: inbox))) batch
      [.shown proxy delay, .ended .completed] none batch
  | complete {deadline : Nat} {batch : Option ProbeBatch} :
    ProbeStep plan now (some (.collecting plan 0 deadline [])) batch [.ended .completed] none batch
  | timeOut {missing deadline : Nat} {batch : Option ProbeBatch} : missing ≠ 0 → deadline ≤ now →
    ProbeStep plan now (some (.collecting plan missing deadline [])) batch [.ended .timedOut] none
      batch

theorem ProbeStep.collects {now : Nat} {deeds : List Deed} {watch' : Option Job}
    {batch' : Option ProbeBatch} (h : ProbeStep plan now watch batch deeds watch' batch')
    (hw : ∀ job ∈ watch, job.Collects plan) : ∀ job ∈ watch', job.Collects plan := by
  cases h with
  | rest | shuffle => exact hw
  | breakOff | finish | complete | timeOut =>
    intro job hj
    cases hj
  | «open» | take =>
    intro job hj
    exact Option.some.inj hj ▸ .collecting _ _ _
  | probe =>
    intro job hj
    obtain ⟨job, hjob, rfl⟩ := Option.map_eq_some_iff.mp hj
    exact (hw job hjob).deliverAll _

theorem stepSession_probes (C : Core σ) (e : Engine σ) (hg : plan.strategy = .perProxy) :
    stepSession C e (.opening plan) = e.openProbes plan := by
  have hg : plan.config.scheduler.strategy = .perProxy := hg
  simp only [stepSession, hg]

theorem openProbes_steps (C : Core σ) (e : Engine σ) (hg : plan.strategy = .perProxy) :
    ∃ batch', ProbeStep plan e.now (some (.opening plan)) none (jobDeeds C e (.opening plan))
        (stepSession C e (.opening plan)).2.rest batch' ∧
      (stepSession C e (.opening plan)).1.crew plan.session =
        e.crew plan.session ++ (batch'.map Job.batch).toList := by
  rw [jobDeeds, stepSession_probes C e hg, openProbes]
  by_cases hc : maxConcurrency < plan.budget.concurrency
  · rw [if_pos hc]
    exact ⟨none, .breakOff hc, (List.append_nil _).symm⟩
  · rw [if_neg hc]
    have ho : (Job.batch plan.probes).owner? = some plan.session := rfl
    exact ⟨some plan.probes, .open (Nat.le_of_not_lt hc), spawn_crew e ho⟩

theorem collect_steps (C : Core σ) (e : Engine σ) (missing deadline : Nat)
    (inbox : List (String × Int)) (batch : Option ProbeBatch) :
    ProbeStep plan e.now (some (.collecting plan missing deadline inbox)) batch
      (jobDeeds C e (.collecting plan missing deadline inbox))
      (e.collect plan missing deadline inbox).2.rest batch := by
  unfold jobDeeds collect
  cases inbox with
  | cons report inbox =>
    dsimp only
    split
    · next h => exact .finish h
    · next h => exact .take (Nat.lt_of_not_le h)
  | nil =>
    dsimp only
    split
    · next h =>
      subst h
      exact .complete
    · next h =>
      split
      · next hd => exact .timeOut h hd
      · exact .rest

structure ProbeCrew (plan : SessionPlan) (watch : Option Job) (batch : Option ProbeBatch)
    (e : Engine σ) : Prop where
  crew : (e.crew plan.session).Perm (watch.toList ++ (batch.map Job.batch).toList)
  collects : ∀ job ∈ watch, job.Collects plan

theorem Sound.batch_lives (h : Sound e) (ht : t ∈ e.tasks) (hj : t.job = .batch b) :
    t.isAborted = false :=
  not_aborted_of_proper (h.coherent.proper t ht) (by rw [hj]; rfl)

theorem ProbeCrew.batch_crew (h : ProbeCrew plan watch (some b) e) (hsound : Sound e) (C : Core σ)
    (ht : t ∈ e.tasks) (hj : t.job = .batch b) (hs : b.session = plan.session) :
    e.deeds C plan.session (.resume t) = jobDeeds C (e.without t) (.batch b) ∧
      ProbeCrew plan (watch.map (Deed.deliverAll (jobDeeds C (e.without t) (.batch b))))
        (stepBatch C (e.without t) b).2 (resume C e t) := by
  have ho : t.job.owner? = some plan.session := by
    rw [hj]
    exact congrArg some hs
  have hlive := hsound.batch_lives ht hj
  have hleft : ((e.without t).crew plan.session).Perm watch.toList := by
    have hp := (hsound.numbered.crew_perm ht ho).symm.trans (h.crew.trans List.perm_append_comm)
    rw [hj] at hp
    exact hp.cons_inv
  refine ⟨by rw [deeds_own ho hlive, hj], ⟨?_, fun job hjob => ?_⟩⟩
  · have hheard : ((stepBatch C (e.without t) b).1.crew plan.session).Perm
        (watch.map (Deed.deliverAll (jobDeeds C (e.without t) (.batch b)))).toList := by
      rw [← hs, stepBatch_crew, hs, Option.toList_map]
      exact hleft.map _
    rw [resume_crew C hlive ho, hj]
    exact hheard.append_right _
  · obtain ⟨job, hmem, rfl⟩ := Option.map_eq_some_iff.mp hjob
    exact (h.collects job hmem).deliverAll _

theorem ProbeCrew.batch_turn (h : ProbeCrew plan watch (some b) e) (hsound : Sound e) (C : Core σ)
    (ht : t ∈ e.tasks) (hj : t.job = .batch b) (hs : b.session = plan.session) :
    ∃ watch' batch', ProbeStep plan e.now watch (some b) (e.deeds C plan.session (.resume t))
      watch' batch' ∧ ProbeCrew plan watch' batch' (resume C e t) := by
  obtain ⟨hdeeds, hcrew⟩ := h.batch_crew hsound C ht hj hs
  rw [hdeeds]
  exact ⟨_, _, .probe (stepBatch_steps C (e.without t) b), hcrew⟩

theorem ProbeCrew.left_by_watch (h : ProbeCrew plan (some t.job) batch e) (hsound : Sound e)
    (ht : t ∈ e.tasks) :
    ((e.without t).crew plan.session).Perm (batch.map Job.batch).toList :=
  have hp := hsound.numbered.crew_perm ht (owner_of_plan (h.collects _ rfl).plan)
  (hp.symm.trans h.crew).cons_inv

theorem ProbeCrew.opens_alone (h : ProbeCrew plan (some t.job) batch e) (hsound : Sound e)
    (ht : t ∈ e.tasks) (hopen : t.job = .opening plan) : batch = none := by
  have hleft := h.left_by_watch hsound ht
  rw [hsound.opens_alone ht hopen] at hleft
  cases batch with
  | none => rfl
  | some b => cases hleft.length_eq

theorem ProbeCrew.watch_step (h : ProbeCrew plan (some t.job) batch e) (hsound : Sound e)
    (hg : plan.strategy = .perProxy) (C : Core σ) (ht : t ∈ e.tasks) (ha : t.isAborted = false) :
    ∃ sent, ProbeStep plan e.now (some t.job) none (jobDeeds C (e.without t) t.job)
        (stepSession C (e.without t) t.job).2.rest sent ∧
      ProbeCrew plan (stepSession C (e.without t) t.job).2.rest (sent.or batch) (resume C e t) := by
  have hcollects : t.job.Collects plan := h.collects _ rfl
  have hleft := h.left_by_watch hsound ht
  have halone := h.opens_alone hsound ht
  obtain ⟨sent, hstep, hcrew⟩ : ∃ sent, ProbeStep plan e.now (some t.job) none
      (jobDeeds C (e.without t) t.job) (stepSession C (e.without t) t.job).2.rest sent ∧
        ((stepSession C (e.without t) t.job).1.crew plan.session).Perm
          ((sent.or batch).map Job.batch).toList := by
    generalize hjob : t.job = job at hcollects halone
    cases hcollects with
    | opening =>
      obtain ⟨sent, hstep, hcrew⟩ := openProbes_steps C (e.without t) hg
      refine ⟨sent, hstep, ?_⟩
      rw [hcrew, hsound.opens_alone ht hjob, halone rfl, Option.or_none]
      exact .refl _
    | collecting missing deadline inbox =>
      refine ⟨none, collect_steps C (e.without t) missing deadline inbox none, ?_⟩
      rw [stepSession_crew C (e.without t) (Job.Collects.collecting _ _ _).plan Job.noConfusion]
      exact hleft
  refine ⟨sent, hstep, ⟨?_, hstep.collects h.collects⟩⟩
  rw [resume_rest C ha hcollects.plan]
  exact (hcrew.append_right _).trans List.perm_append_comm

theorem ProbeStep.beside {now : Nat} {job : Job} {deeds : List Deed} {watch' : Option Job}
    {sent : Option ProbeBatch} (h : ProbeStep plan now (some job) none deeds watch' sent)
    (hopen : job = .opening plan → batch = none) :
    ProbeStep plan now (some job) batch deeds watch' (sent.or batch) := by
  cases h with
  | rest => exact .rest
  | breakOff hc =>
    rw [hopen rfl]
    exact .breakOff hc
  | «open» hc =>
    rw [hopen rfl]
    exact .open hc
  | take hm => exact .take hm
  | finish hm => exact .finish hm
  | complete => exact .complete
  | timeOut hm hd => exact .timeOut hm hd

theorem ProbeCrew.watch_turn (h : ProbeCrew plan (some t.job) batch e) (hsound : Sound e)
    (hg : plan.strategy = .perProxy) (C : Core σ) (ht : t ∈ e.tasks) (ha : t.isAborted = false) :
    ∃ watch' batch', ProbeStep plan e.now (some t.job) batch (e.deeds C plan.session (.resume t))
      watch' batch' ∧ ProbeCrew plan watch' batch' (resume C e t) := by
  obtain ⟨sent, hstep, hcrew⟩ := h.watch_step hsound hg C ht ha
  refine ⟨_, _, ?_, hcrew⟩
  rw [deeds_own (owner_of_plan (h.collects _ rfl).plan) ha]
  exact hstep.beside (h.opens_alone hsound ht)

theorem ProbeCrew.who (h : ProbeCrew plan watch batch e) (ht : t ∈ e.tasks)
    (ho : t.job.owner? = some plan.session) :
    watch = some t.job ∨ ∃ b, batch = some b ∧ t.job = .batch b ∧ b.session = plan.session := by
  have hmem : t.job ∈ watch.toList ++ (batch.map Job.batch).toList :=
    h.crew.mem_iff.mp (mem_crew.mpr ⟨ho, t, ht, rfl⟩)
  rcases List.mem_append.mp hmem with hmem | hmem
  · exact .inl (Option.mem_toList.mp hmem)
  · obtain ⟨b, hb, hj⟩ := Option.map_eq_some_iff.mp (Option.mem_toList.mp hmem)
    rw [← hj] at ho
    exact .inr ⟨b, hb, hj.symm, Option.some.inj ho⟩

theorem ProbeCrew.stranger (h : ProbeCrew plan watch batch e) (hsound : Sound e)
    (hs : plan.session < e.nextSession) (C : Core σ) {a : Action σ} (ha : e.Allows a)
    (hother : ∀ t, a = .resume t → t.job.owner? ≠ some plan.session) :
    ProbeCrew plan watch batch (e.perform C a) := by
  refine ⟨?_, h.collects⟩
  rw [perform_crew C hsound.numbered ha hs hother]
  exact h.crew

theorem ProbeCrew.act (h : ProbeCrew plan watch batch e) (hsound : Sound e)
    (hs : plan.session < e.nextSession) (hg : plan.strategy = .perProxy) (C : Core σ)
    {a : Action σ} (ha : e.Allows a) (hrun : Unstopped plan.session e a) :
    ∃ watch' batch', ProbeStep plan e.now watch batch (e.deeds C plan.session a) watch' batch' ∧
      ProbeCrew plan watch' batch' (e.perform C a) := by
  rcases own_or_other a plan.session with ⟨t, rfl, ho⟩ | hother
  · rcases h.who ha ho with rfl | ⟨b, rfl, hj, hb⟩
    · exact h.watch_turn hsound hg C ha (hrun ho)
    · exact h.batch_turn hsound C ha hj hb
  · rw [deeds_stranger hother]
    exact ⟨watch, batch, .rest, h.stranger hsound hs C ha hother⟩

section

variable {waiting : List String} {running : List (String × Call)}

theorem reorder_moves (e : Engine σ) (t : Task) (b : ProbeBatch) (waiting : List String)
    (running : List (String × Call)) :
    Moves (fun _ => False) e (e.reorder t b waiting running) := by
  have hpark : Moves (fun _ => False) (e.without t) (e.reorder t b waiting running) :=
    park_moves _ t fun job hj => by
      cases hj
      rfl
  exact (without_moves e t).trans hpark

theorem reorder_crew_own (hn : Numbered [] e) (ht : t ∈ e.tasks) (hj : t.job = .batch b)
    (hs : b.session = s) (waiting : List String) (running : List (String × Call)) :
    ∃ others, (e.crew s).Perm (others ++ [.batch b]) ∧
      (e.reorder t b waiting running).crew s =
        others ++ [.batch { b with waiting, running }] := by
  subst hs
  refine ⟨(e.without t).crew b.session, ?_, park_crew _ t fun job hjob => by cases hjob; rfl⟩
  have hp := hn.crew_perm ht (s := b.session) (by rw [hj]; rfl)
  rw [hj] at hp
  exact hp.trans (List.perm_append_singleton _ _).symm

theorem reorder_crew_stranger (hn : Numbered [] e) (ht : t ∈ e.tasks) (hj : t.job = .batch b)
    (hs : b.session ≠ s) : (e.reorder t b waiting running).crew s = e.crew s := by
  have ho (waiting : List String) (running : List (String × Call)) :
      (Job.batch { b with waiting, running }).owner? ≠ some s := fun h => hs (Option.some.inj h)
  rw [← hn.crew_without ht (s := s) (by rw [hj]; exact ho b.waiting b.running)]
  refine park_stranger _ t fun job hjob => ?_
  cases hjob
  exact ho waiting running

theorem Sound.reorder (h : Sound e) (ht : t ∈ e.tasks) (hj : t.job = .batch b) :
    Sound (e.reorder t b waiting running) := by
  refine ⟨(reorder_moves e t b waiting running).coherent h.coherent,
    (h.numbered.without ht).park _, ?_, ?_⟩
  · intro s hs
    have hnone := h.employs.started s hs
    by_cases hb : b.session = s
    · have hmem : t.job ∈ e.crew s := mem_crew.mpr ⟨by rw [hj]; exact congrArg some hb, t, ht, rfl⟩
      rw [hnone] at hmem
      cases hmem
    · rw [reorder_crew_stranger h.numbered ht hj hb, hnone]
  · intro s job hjob hopen
    by_cases hb : b.session = s
    · obtain ⟨others, hp, hcrew⟩ := reorder_crew_own h.numbered ht hj hb waiting running
      rw [hcrew] at hjob
      rcases List.mem_append.mp hjob with hmem | hmem
      · -- whoever opens a session has no probes beside it
        have halone := h.employs.alone s job (hp.mem_iff.mpr (List.mem_append_left _ hmem)) hopen
        have hlength := hp.length_eq
        have := List.length_pos_of_mem hmem
        rw [halone, List.length_append, List.length_singleton, List.length_singleton] at hlength
        omega
      · rw [List.mem_singleton.mp hmem] at hopen
        cases hopen
    · rw [reorder_crew_stranger h.numbered ht hj hb] at hjob ⊢
      exact h.employs.alone s job hjob hopen

theorem ProbeCrew.batch_of (h : ProbeCrew plan watch batch e) (ht : t ∈ e.tasks)
    (hj : t.job = .batch b) (hs : b.session = plan.session) : batch = some b := by
  rcases h.who ht (by rw [hj]; exact congrArg some hs) with hwatch | ⟨b', hb', hj', _⟩
  · have hcollects := h.collects _ hwatch
    rw [hj] at hcollects
    cases hcollects
  · cases hj.symm.trans hj'
    exact hb'

theorem ProbeCrew.reorder_own (h : ProbeCrew plan watch (some b) e) (hsound : Sound e)
    (ht : t ∈ e.tasks) (hj : t.job = .batch b) (hs : b.session = plan.session) :
    ProbeCrew plan watch (some { b with waiting, running }) (e.reorder t b waiting running) := by
  obtain ⟨others, hp, hcrew⟩ := reorder_crew_own hsound.numbered ht hj hs waiting running
  refine ⟨?_, h.collects⟩
  rw [hcrew]
  exact ((List.perm_append_right_iff _).mp (hp.symm.trans h.crew)).append_right _

theorem ProbeCrew.reorder_stranger (h : ProbeCrew plan watch batch e) (hsound : Sound e)
    (ht : t ∈ e.tasks) (hj : t.job = .batch b) (hs : b.session ≠ plan.session) :
    ProbeCrew plan watch batch (e.reorder t b waiting running) := by
  refine ⟨?_, h.collects⟩
  rw [reorder_crew_stranger hsound.numbered ht hj hs]
  exact h.crew

theorem ProbeCrew.reorder (h : ProbeCrew plan watch batch e) (hsound : Sound e) (ht : t ∈ e.tasks)
    (hj : t.job = .batch b) (hw : waiting.Perm b.waiting) (hr : running.Perm b.running) :
    ∃ batch', ProbeStep plan e.now watch batch [] watch batch' ∧
      ProbeCrew plan watch batch' (e.reorder t b waiting running) := by
  by_cases hs : b.session = plan.session
  · obtain rfl := h.batch_of ht hj hs
    exact ⟨_, .shuffle hw hr, h.reorder_own hsound ht hj hs⟩
  · exact ⟨batch, .rest, h.reorder_stranger hsound ht hj hs⟩

end

theorem Employs.sends (h : Employs e) (hopen : .opening plan ∈ e.crew plan.session) :
    ProbeCrew plan (some (.opening plan)) none e := by
  refine ⟨?_, fun job hj => Option.some.inj hj ▸ .opening⟩
  rw [h.alone plan.session _ hopen rfl]
  exact .refl _

theorem Interleaves.sound {α : Type} {note : Engine σ → Action σ → List α} {new : List α}
    (h : Interleaves C note P e new e') (hsound : Sound e) :
    Sound e' ∧ e.nextSession ≤ e'.nextSession := by
  cases h with
  | act hact =>
    cases hact with
    | act ha _ => exact ⟨hsound.perform C ha, hsound.nextSession_le C ha⟩
  | reorder ht hj => exact ⟨hsound.reorder ht hj, Nat.le_refl _⟩

theorem ProbeCrew.step {new : List Deed} (h : ProbeCrew plan watch batch e) (hsound : Sound e)
    (hs : plan.session < e.nextSession) (hg : plan.strategy = .perProxy)
    (hrun : ∀ e a, P e a → Unstopped plan.session e a)
    (hstep : Interleaves C (deeds C plan.session) P e new e') :
    ∃ watch' batch', ProbeStep plan e.now watch batch new watch' batch' ∧
      ProbeCrew plan watch' batch' e' := by
  cases hstep with
  | act hact =>
    cases hact with
    | act ha hp => exact h.act hsound hs hg C ha (hrun _ _ hp)
  | reorder ht hj hw hr => exact ⟨watch, h.reorder hsound ht hj hw hr⟩

theorem crews_keep {α : Type} {Step : Engine σ → List α → Engine σ → Prop}
    {R : Nat → Option Job → Option ProbeBatch → List α → Option Job → Option ProbeBatch → Prop}
    {I : Engine σ → Option Job → Option ProbeBatch → List (Nat × α) → Prop}
    (hnext : ∀ e new e', Step e new e' → Sound e → Sound e' ∧ e.nextSession ≤ e'.nextSession)
    (hmove : ∀ e new e' watch batch, Step e new e' → Sound e → plan.session < e.nextSession →
      ProbeCrew plan watch batch e → ∃ watch' batch',
        R e.now watch batch new watch' batch' ∧ ProbeCrew plan watch' batch' e')
    (hI : ∀ (e e' : Engine σ) (new : List α) (watch watch' : Option Job)
      (batch batch' : Option ProbeBatch) (D : List (Nat × α)), Sound e → Step e new e' →
      ProbeCrew plan watch batch e → ProbeCrew plan watch' batch' e' →
      R e.now watch batch new watch' batch' → I e watch batch D →
      I e' watch' batch' (D ++ new.map (e.now, ·)))
    (hsound : Sound e) (hs : plan.session < e.nextSession) (hcrew : ProbeCrew plan watch batch e)
    (hstart : I e watch batch []) {D : List (Nat × α)} (h : Course Step e D e') :
    Sound e' ∧ plan.session < e'.nextSession ∧
      ∃ watch batch, ProbeCrew plan watch batch e' ∧ I e' watch batch D :=
  h.keeps (Q := fun D e => Sound e ∧ plan.session < e.nextSession ∧
      ∃ watch batch, ProbeCrew plan watch batch e ∧ I e watch batch D)
    (fun D e new e' hstep hq => by
      obtain ⟨hsound, hs, watch, batch, hcrew, hi⟩ := hq
      obtain ⟨hsound', hle⟩ := hnext e new e' hstep hsound
      obtain ⟨watch', batch', hturn, hcrew'⟩ := hmove e new e' watch batch hstep hsound hs hcrew
      exact ⟨hsound', Nat.lt_of_lt_of_le hs hle, watch', batch', hcrew',
        hI e e' new watch watch' batch batch' D hsound hstep hcrew hcrew' hturn hi⟩)
    ⟨hsound, hs, watch, batch, hcrew, hstart⟩

theorem probes_keep {I : Engine σ → Option Job → Option ProbeBatch → List (Nat × Deed) → Prop}
    (hI : ∀ (e e' : Engine σ) (new : List Deed) (watch watch' : Option Job)
      (batch batch' : Option ProbeBatch) (D : List (Nat × Deed)),
      Sound e → Interleaves C (deeds C plan.session) P e new e' → ProbeCrew plan watch batch e →
      ProbeCrew plan watch' batch' e' →
      ProbeStep plan e.now watch batch new watch' batch' → I e watch batch D →
      I e' watch' batch' (D ++ new.map (e.now, ·)))
    (hg : plan.strategy = .perProxy) (hrun : ∀ e a, P e a → Unstopped plan.session e a)
    (hsound : Sound e) (hopen : .opening plan ∈ e.crew plan.session)
    (hstart : I e (some (.opening plan)) none [])
    {D : List (Nat × Deed)} (h : Course (Interleaves C (deeds C plan.session) P) e D e') :
    ∃ watch batch, ProbeCrew plan watch batch e' ∧ I e' watch batch D := by
  have hend := crews_keep (R := ProbeStep plan) (fun _ _ _ hstep hsound => hstep.sound hsound)
    (fun _ _ _ _ _ hstep hsound hs hcrew => hcrew.step hsound hs hg hrun hstep) hI hsound
    (hsound.employs.crew_lt hopen) (hsound.employs.sends hopen) hstart h
  exact hend.2.2

end Engine

end ProxyPulse
