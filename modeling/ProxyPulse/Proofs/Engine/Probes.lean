import ProxyPulse.Proofs.Engine.Deeds

namespace ProxyPulse

def Answer.delay : Answer Int → Int
  | .ok delay => delay
  | .error _ => 0

def Deed.deliver : Deed → Job → Job
  | .reported proxy answer => Job.deliver (proxy, Answer.delay answer)
  | _ => id

def Deed.deliverAll (deeds : List Deed) (job : Job) : Job :=
  deeds.foldl (fun job deed => deed.deliver job) job

def ProbeBatch.probing (b : ProbeBatch) : List String :=
  b.running.map Prod.fst

inductive BatchStep (b : ProbeBatch) : Option ProbeBatch → List Deed → Prop
  | start {proxy : String} {waiting : List String} (call : Call) : b.hasRoom = true →
    b.waiting = proxy :: waiting →
    BatchStep b (some { b with waiting, running := b.running ++ [(proxy, call)] }) []
  | rest {running : List (String × Call)} : b.hasRoom = false →
    b.probing.Perm (running.map Prod.fst) → BatchStep b (some { b with running }) []
  | report {proxy : String} {answer : Answer Int} {running : List (String × Call)} :
    b.hasRoom = false → b.probing.Perm (proxy :: running.map Prod.fst) →
    BatchStep b (if running.isEmpty && b.waiting.isEmpty then none else some { b with running })
      [.reported proxy answer]

namespace Engine

variable {σ : Type} {C : Core σ} {e : Engine σ} {b : ProbeBatch}

theorem endedProbe_perm (C : Core σ) (e : Engine σ) (running : List (String × Call)) :
    (running.map Prod.fst).Perm
      (((endedProbe C e running).2.1.toList.map Prod.fst) ++
        (endedProbe C e running).2.2.map Prod.fst) := by
  induction running generalizing e with
  | nil => exact .refl _
  | cons probe rest ih =>
    obtain ⟨proxy, call⟩ := probe
    unfold endedProbe
    split
    · exact .refl _
    · next e' call' _ =>
      exact ((ih e').cons proxy).trans List.perm_middle.symm

theorem stepBatch_room (C : Core σ) (e : Engine σ) (h : b.hasRoom = true) :
    ∃ proxy waiting, b.waiting = proxy :: waiting ∧ stepBatch C e b =
      ((e.call C (.probe proxy) (some b.limit)).1, some { b with
        waiting
        running := b.running ++ [(proxy, (e.call C (.probe proxy) (some b.limit)).2)] }) := by
  cases hw : b.waiting with
  | nil =>
    rw [ProbeBatch.hasRoom, hw] at h
    cases h
  | cons proxy waiting =>
    have hlt : b.running.length < b.concurrency := by
      rw [ProbeBatch.hasRoom, hw] at h
      simpa using h
    refine ⟨proxy, waiting, rfl, ?_⟩
    unfold stepBatch
    rw [hw]
    exact if_pos hlt

theorem stepBatch_full (C : Core σ) (e : Engine σ) (h : b.hasRoom = false) :
    stepBatch C e b = stepBatch.settle C b e := by
  unfold stepBatch
  split
  · next proxy waiting hw =>
    refine if_neg fun hlt => ?_
    rw [ProbeBatch.hasRoom, hw] at h
    simp [hlt] at h
  · rfl

theorem stepBatch_steps (C : Core σ) (e : Engine σ) (b : ProbeBatch) :
    BatchStep b (stepBatch C e b).2 (jobDeeds C e (.batch b)) := by
  cases hroom : b.hasRoom with
  | true =>
    obtain ⟨proxy, waiting, hw, hstep⟩ := stepBatch_room C e hroom
    rw [hstep, jobDeeds, if_pos hroom]
    exact .start _ hroom hw
  | false =>
    have hperm := endedProbe_perm C e b.running
    rw [stepBatch_full C e hroom, jobDeeds, hroom, stepBatch.settle]
    rcases hended : endedProbe C e b.running with ⟨e', _ | ⟨proxy, answer⟩, running⟩
    · rw [hended] at hperm
      exact .rest hroom hperm
    · rw [hended] at hperm
      exact .report hroom hperm

theorem stepBatch_crew (C : Core σ) (e : Engine σ) (b : ProbeBatch) :
    (stepBatch C e b).1.crew b.session =
      (e.crew b.session).map (Deed.deliverAll (jobDeeds C e (.batch b))) := by
  cases hroom : b.hasRoom with
  | true =>
    obtain ⟨proxy, waiting, _, hstep⟩ := stepBatch_room C e hroom
    rw [hstep, jobDeeds, if_pos hroom]
    exact (List.map_id _).symm
  | false =>
    have hq := endedProbe_quiet C e b.running
    rw [stepBatch_full C e hroom, jobDeeds, hroom, stepBatch.settle]
    rcases hended : endedProbe C e b.running with ⟨e', _ | ⟨proxy, answer⟩, running⟩
    · rw [hended] at hq
      exact (crew_of_tasks hq.tasks _).trans (List.map_id _).symm
    · rw [hended] at hq
      have hq := (hq.trans (note_quiet (.probe proxy) answer e')).trans
        (learn_quiet _ proxy (Answer.delay answer))
      refine (report_crew _ b.session proxy (Answer.delay answer)).trans ?_
      exact congrArg (List.map (Job.deliver (proxy, Answer.delay answer)))
        (crew_of_tasks hq.tasks _)

end Engine

end ProxyPulse
