import ProxyPulse.Proofs.Engine.Overheard
import ProxyPulse.Proofs.Engine.Probing

namespace ProxyPulse.Engine

variable {σ : Type} {C : Core σ} {e e' : Engine σ} {plan : SessionPlan} {watch watch' : Option Job}
  {batch batch' : Option ProbeBatch} {t : Task} {b : ProbeBatch} {s : Nat}
  {P : Engine σ → Action σ → Prop}

def notes (C : Core σ) (s : Nat) (e : Engine σ) (a : Action σ) : List Note :=
  e.noted C.overheard (·.job.owner? = some s) a ++ (e.deeds C s a).map .did

theorem stepBatch_turns (C : Core σ) (e : Engine σ) (b : ProbeBatch) :
    BatchTurn e.now b (stepBatch C.overheard e.withLog b).1.core.2 (jobDeeds C e (.batch b))
      (stepBatch C e b).2 := by
  obtain ⟨said, hlog, hturn⟩ := stepBatch_noting C (fun note => [note]) e.withLog b
  have hsaid : (stepBatch C.overheard e.withLog b).1.core.2 = said :=
    hlog.trans ((List.nil_append _).trans (List.flatMap_singleton' said))
  rw [hsaid]
  exact hturn

inductive ProbeTurn (plan : SessionPlan) (now : Nat) :
    Option Job → Option ProbeBatch → List Note → Option Job → Option ProbeBatch → Prop
  | rest {watch : Option Job} {batch : Option ProbeBatch} :
    ProbeTurn plan now watch batch [] watch batch
  | watch {job : Job} {batch sent : Option ProbeBatch} {deeds : List Deed} {watch' : Option Job} :
    ProbeStep plan now (some job) none deeds watch' sent →
    (job = .opening plan → batch = none) →
    ProbeTurn plan now (some job) batch (deeds.map .did) watch' (sent.or batch)
  | cutOff {job : Job} {batch : Option ProbeBatch} : (job = .opening plan → batch = none) →
    ProbeTurn plan now (some job) batch [.did .cutOff] none batch
  | probe {watch : Option Job} {b : ProbeBatch} {next : Option ProbeBatch} {said : List Note}
    {deeds : List Deed} : BatchTurn now b said deeds next →
    ProbeTurn plan now watch (some b) (said ++ deeds.map .did) (watch.map (Deed.deliverAll deeds))
      next
  | shuffle {watch : Option Job} {b : ProbeBatch} {waiting : List String}
    {running : List (String × Call)} : waiting.Perm b.waiting → running.Perm b.running →
    ProbeTurn plan now watch (some b) [] watch (some { b with waiting, running })

theorem notes_own (ho : t.job.owner? = some s) : e.notes C s (.resume t) =
    (resume C.overheard e.withLog t).core.2 ++ (e.deeds C s (.resume t)).map .did := by
  rw [notes, noted, if_pos ho]

theorem notes_stranger {a : Action σ} (h : ∀ t, a = .resume t → t.job.owner? ≠ some s) :
    e.notes C s a = [] := by
  rw [notes, deeds_stranger h, noted_stranger h]
  rfl

theorem afterSession_core (plan : SessionPlan) (x : Engine σ × SessionMove) :
    (afterSession plan x).1.core = x.1.core := by
  obtain ⟨e, move⟩ := x
  cases move with
  | stop outcome =>
    show (e.finishSession plan outcome).core = e.core
    rcases finishSession_cases e plan outcome with he | ⟨s, _, _, he⟩
    · rw [he]
    · rw [he]
      rfl
  | _ => rfl

theorem stepSession_silent (C : Core σ) (e : Engine σ) {job : Job} (hj : job.Collects plan)
    (hg : plan.strategy = .perProxy) : (stepSession C e job).1.core = e.core := by
  cases hj with
  | opening =>
    rw [stepSession_probes C e hg, openProbes]
    split <;> rfl
  | collecting missing deadline inbox => cases inbox <;> rfl

theorem resume_silent (C : Core σ) (e : Engine σ) (hj : t.job.Collects plan)
    (hg : plan.strategy = .perProxy) : (resume C e t).core = e.core := by
  cases ha : t.isAborted with
  | true =>
    simp only [resume, ha, if_true]
    cases hjob : t.job with
    | polling => rw [hjob] at hj; cases hj
    | _ => rfl
  | false =>
    rw [resume_core C e ha, stepJob_session C _ _ hj.plan, afterSession_core,
      stepSession_silent C _ hj hg]
    rfl

theorem ProbeCrew.batch_turns (h : ProbeCrew plan watch (some b) e) (hsound : Sound e) (C : Core σ)
    (ht : t ∈ e.tasks) (hj : t.job = .batch b) (hs : b.session = plan.session) :
    ∃ watch' batch', ProbeTurn plan e.now watch (some b) (e.notes C plan.session (.resume t))
      watch' batch' ∧ ProbeCrew plan watch' batch' (resume C e t) := by
  obtain ⟨hdeeds, hcrew⟩ := h.batch_crew hsound C ht hj hs
  refine ⟨_, _, ?_, hcrew⟩
  rw [notes_own (by rw [hj]; exact congrArg some hs), hdeeds,
    resume_core _ _ (hsound.batch_lives ht hj), hj]
  exact .probe (stepBatch_turns C (e.without t) b)

theorem ProbeCrew.watch_turns (h : ProbeCrew plan (some t.job) batch e) (hsound : Sound e)
    (hg : plan.strategy = .perProxy) (C : Core σ) (ht : t ∈ e.tasks) :
    ∃ watch' batch', ProbeTurn plan e.now (some t.job) batch (e.notes C plan.session (.resume t))
      watch' batch' ∧ ProbeCrew plan watch' batch' (resume C e t) := by
  have hcollects : t.job.Collects plan := h.collects _ rfl
  have ho := owner_of_plan hcollects.plan
  have hsilent : (resume C.overheard e.withLog t).core.2 = [] := by
    rw [resume_silent _ _ hcollects hg]
    rfl
  rw [notes_own ho, hsilent, List.nil_append]
  cases ha : t.isAborted with
  | true =>
    rw [deeds_aborted ho ha]
    refine ⟨none, batch, .cutOff (h.opens_alone hsound ht), ⟨?_, fun job hj => ?_⟩⟩
    · rw [resume_aborted_crew C ha]
      exact h.left_by_watch hsound ht
    · exact absurd hj (Option.not_mem_none job)
  | false =>
    obtain ⟨sent, hstep, hcrew⟩ := h.watch_step hsound hg C ht ha
    rw [deeds_own ho ha]
    exact ⟨_, _, .watch hstep (h.opens_alone hsound ht), hcrew⟩

theorem ProbeCrew.perform (h : ProbeCrew plan watch batch e) (hsound : Sound e)
    (hs : plan.session < e.nextSession) (hg : plan.strategy = .perProxy) (C : Core σ)
    {a : Action σ} (ha : e.Allows a) :
    ∃ watch' batch', ProbeTurn plan e.now watch batch (e.notes C plan.session a) watch' batch' ∧
      ProbeCrew plan watch' batch' (e.perform C a) := by
  rcases own_or_other a plan.session with ⟨t, rfl, ho⟩ | hother
  · rcases h.who ha ho with rfl | ⟨b, rfl, hj, hb⟩
    · exact h.watch_turns hsound hg C ha
    · exact h.batch_turns hsound C ha hj hb
  · rw [notes_stranger hother]
    exact ⟨watch, batch, .rest, h.stranger hsound hs C ha hother⟩

theorem ProbeCrew.interleave {new : List Note} (h : ProbeCrew plan watch batch e) (hsound : Sound e)
    (hs : plan.session < e.nextSession) (hg : plan.strategy = .perProxy)
    (hstep : Interleaves C (notes C plan.session) P e new e') :
    ∃ watch' batch', ProbeTurn plan e.now watch batch new watch' batch' ∧
      ProbeCrew plan watch' batch' e' := by
  cases hstep with
  | act hact =>
    cases hact with
    | act ha _ => exact h.perform hsound hs hg C ha
  | @reorder t b waiting running ht hj hw hr =>
    by_cases hb : b.session = plan.session
    · obtain rfl := h.batch_of ht hj hb
      exact ⟨_, _, .shuffle hw hr, h.reorder_own hsound ht hj hb⟩
    · exact ⟨_, _, .rest, h.reorder_stranger hsound ht hj hb⟩

end ProxyPulse.Engine
