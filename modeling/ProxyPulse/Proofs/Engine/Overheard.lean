import ProxyPulse.Proofs.Engine.Probes

/-!
What passes between the engine and the core: what the core is asked to do, and what it says to the
probes that are listened to.
-/

namespace ProxyPulse

inductive Note where
  | asked (operation : Operation)
  | answered (proxy : String) (answer : Option (Answer Int))
  | did (deed : Deed)

namespace Note

def asked? : Note → Option Operation
  | .asked operation => some operation
  | _ => none

def deed? : Note → Option Deed
  | .did deed => some deed
  | _ => none

end Note

variable {σ α : Type}

/-- A core with a log, in which something is noted of what it is asked to do and of what it says to
probes. -/
def Core.noting (C : Core σ) (write : Note → List α) : Core (σ × List α) where
  start now operation s :=
    let (core, latency) := C.start now operation s.1
    ((core, s.2 ++ write (.asked operation)), latency)
  names selectableOnly s := let (core, answer) := C.names selectableOnly s.1; ((core, s.2), answer)
  report group sort s := let (core, answer) := C.report group sort s.1; ((core, s.2), answer)
  trigger group s := let (core, answer) := C.trigger group s.1; ((core, s.2), answer)
  choose group proxy s := let (core, answer) := C.choose group proxy s.1; ((core, s.2), answer)
  probe proxy s :=
    let (core, answer) := C.probe proxy s.1
    ((core, s.2 ++ write (.answered proxy answer)), answer)
  mode s := let (core, answer) := C.mode s.1; ((core, s.2), answer)
  setMode mode s := let (core, answer) := C.setMode mode s.1; ((core, s.2), answer)
  draw s := let (core, jitter) := C.draw s.1; ((core, s.2), jitter)

def Core.overheard (C : Core σ) : Core (σ × List Note) :=
  C.noting fun note => [note]

def Core.traced (C : Core σ) : Core (σ × List Operation) :=
  C.noting fun note => note.asked?.toList

namespace Engine

def withLog (e : Engine σ) : Engine (σ × List α) :=
  { e with core := (e.core, []) }

def withoutLog (e : Engine (σ × List α)) : Engine σ :=
  { e with core := e.core.1 }

def noted (L : Core (σ × List α)) (mine : Task → Prop) [DecidablePred mine] (e : Engine σ) :
    Action σ → List α
  | .resume t => if mine t then (resume L e.withLog t).core.2 else []
  | _ => []

end Engine

inductive Hearing (now : Nat) (proxy : String) (call : Call) :
    List Note → Call ⊕ Answer Int → Prop
  | answered {answer : Answer Int} : call.isAnswered now = true →
    Hearing now proxy call [.answered proxy (some answer)] (.inr answer)
  | unanswered : call.isAnswered now = true → call.isOverdue now = false →
    Hearing now proxy call [.answered proxy none] (.inl { call with answerAt := none })
  | givenUp : call.isAnswered now = true → call.isOverdue now = true →
    Hearing now proxy call [.answered proxy none] (.inr (.error call.timeout))
  | early : call.isAnswered now = false → call.isOverdue now = false →
    Hearing now proxy call [] (.inl call)
  | overdue : call.isAnswered now = false → call.isOverdue now = true →
    Hearing now proxy call [] (.inr (.error call.timeout))

inductive Listens (now : Nat) : List (String × Call) → List Note →
    Option (String × Answer Int) → List (String × Call) → Prop
  | nobody : Listens now [] [] none []
  | ends {proxy : String} {call : Call} {rest : List (String × Call)} {said : List Note}
    {answer : Answer Int} : Hearing now proxy call said (.inr answer) →
    Listens now ((proxy, call) :: rest) said (some (proxy, answer)) rest
  | stays {proxy : String} {call call' : Call} {rest left : List (String × Call)}
    {said later : List Note} {ended : Option (String × Answer Int)} :
    Hearing now proxy call said (.inl call') → Listens now rest later ended left →
    Listens now ((proxy, call) :: rest) (said ++ later) ended ((proxy, call') :: left)

inductive BatchTurn (now : Nat) (b : ProbeBatch) :
    List Note → List Deed → Option ProbeBatch → Prop
  | start {proxy : String} {waiting : List String} (latency : Option Nat) :
    b.running.length < b.concurrency → b.waiting = proxy :: waiting →
    BatchTurn now b [.asked (.probe proxy)] [] (some { b with
      waiting
      running := b.running ++ [(proxy, ⟨now, latency.map (now + ·), some b.limit⟩)] })
  | rest {said : List Note} {running : List (String × Call)} :
    Listens now b.running said none running → BatchTurn now b said [] (some { b with running })
  | report {said : List Note} {proxy : String} {answer : Answer Int}
    {running : List (String × Call)} :
    Listens now b.running said (some (proxy, answer)) running →
    BatchTurn now b said [.reported proxy answer]
      (if running.isEmpty && b.waiting.isEmpty then none else some { b with running })

section

variable {now : Nat} {running left : List (String × Call)} {said : List Note}
  {ended : Option (String × Answer Int)} {proxy : String} {call : Call} {heard : Call ⊕ Answer Int}

theorem Hearing.answers (h : Hearing now proxy call said heard) :
    said.filterMap Note.asked? = [] ∧ said.filterMap Note.deed? = [] := by
  cases h <;> exact ⟨rfl, rfl⟩

theorem Hearing.ends (h : Hearing now proxy call said heard) {other : String} {answer : Answer Int}
    (ha : .answered other (some answer) ∈ said) : other = proxy ∧ heard = .inr answer := by
  cases h with
  | answered =>
    cases List.mem_singleton.mp ha
    exact ⟨rfl, rfl⟩
  | unanswered | givenUp => cases List.mem_singleton.mp ha
  | early | overdue => cases ha

theorem Hearing.stays {call' : Call} (h : Hearing now proxy call said (.inl call')) :
    call'.startedAt = call.startedAt ∧ call'.limit = call.limit ∧
      (call' = call ∨ call'.answerAt = none ∧ call'.isOverdue now = false) := by
  cases h with
  | unanswered _ ho => exact ⟨rfl, rfl, .inr ⟨rfl, ho⟩⟩
  | early => exact ⟨rfl, rfl, .inl rfl⟩

theorem Hearing.fate (h : Hearing now proxy call said heard)
    (hcall : call.isAnswered now = true ∨ call.isOverdue now = false) :
    heard = .inl call ∨ call.isAnswered now = true ∧ ∃ answer, .answered proxy answer ∈ said := by
  cases h with
  | answered ha | unanswered ha | givenUp ha => exact .inr ⟨ha, _, List.mem_cons_self⟩
  | early => exact .inl rfl
  | overdue ha ho => simp [ha, ho] at hcall

theorem Listens.names (h : Listens now running said ended left) :
    (ended.toList.map Prod.fst ++ left.map Prod.fst).Perm (running.map Prod.fst) := by
  induction h with
  | nobody | ends => exact .refl _
  | stays _ _ ih => exact List.perm_middle.trans (ih.cons _)

theorem Listens.answers (h : Listens now running said ended left) :
    said.filterMap Note.asked? = [] ∧ said.filterMap Note.deed? = [] := by
  induction h with
  | nobody => exact ⟨rfl, rfl⟩
  | ends hh => exact hh.answers
  | stays hh _ ih =>
    rw [List.filterMap_append, List.filterMap_append, hh.answers.1, hh.answers.2]
    exact ih

theorem Listens.end_of (h : Listens now running said ended left) {answer : Answer Int}
    (ha : .answered proxy (some answer) ∈ said) : ended = some (proxy, answer) := by
  induction h with
  | nobody => cases ha
  | ends hh =>
    obtain ⟨rfl, heq⟩ := hh.ends ha
    cases heq
    rfl
  | stays hh _ ih =>
    rcases List.mem_append.mp ha with ha | ha
    · cases (hh.ends ha).2
    · exact ih ha

theorem Listens.out_before (h : Listens now running said ended left) {probe : String × Call}
    (hp : probe ∈ left) : ∃ call : Call, (probe.1, call) ∈ running ∧
      probe.2.startedAt = call.startedAt ∧ probe.2.limit = call.limit ∧
      (probe.2 = call ∨ probe.2.answerAt = none ∧ probe.2.isOverdue now = false) := by
  induction h with
  | nobody => cases hp
  | ends => exact ⟨probe.2, List.mem_cons_of_mem _ hp, rfl, rfl, .inl rfl⟩
  | stays hh _ ih =>
    rcases List.mem_cons.mp hp with rfl | hp
    · exact ⟨_, List.mem_cons_self, hh.stays⟩
    · obtain ⟨call, hmem, hcall⟩ := ih hp
      exact ⟨call, List.mem_cons_of_mem _ hmem, hcall⟩

theorem Listens.fate (h : Listens now running said ended left) (hp : (proxy, call) ∈ running)
    (hcall : call.isAnswered now = true ∨ call.isOverdue now = false) :
    (proxy, call) ∈ left ∨ call.isAnswered now = true ∧ ∃ answer, .answered proxy answer ∈ said := by
  induction h with
  | nobody => cases hp
  | ends hh =>
    rcases List.mem_cons.mp hp with heq | hp
    · cases heq
      exact .inr ((hh.fate hcall).resolve_left nofun)
    · exact .inl hp
  | stays hh _ ih =>
    rcases List.mem_cons.mp hp with heq | hp
    · cases heq
      rcases hh.fate hcall with heq | ⟨hdue, answer, hsaid⟩
      · cases heq
        exact .inl List.mem_cons_self
      · exact .inr ⟨hdue, answer, List.mem_append_left _ hsaid⟩
    · rcases ih hp with hleft | ⟨hdue, answer, hsaid⟩
      · exact .inl (List.mem_cons_of_mem _ hleft)
      · exact .inr ⟨hdue, answer, List.mem_append_right _ hsaid⟩

theorem BatchTurn.asks {b : ProbeBatch} {deeds : List Deed} {next : Option ProbeBatch}
    (h : BatchTurn now b said deeds next) :
    said.filterMap Note.asked? ++ (next.elim [] ProbeBatch.waiting).map Operation.probe =
      b.waiting.map Operation.probe := by
  cases h with
  | start latency hlt hw => rw [hw]; rfl
  | rest hl =>
    rw [hl.answers.1]
    rfl
  | @report _ _ _ running hl =>
    rw [hl.answers.1, List.nil_append]
    split
    · next hnone =>
      rw [Bool.and_eq_true, List.isEmpty_iff, List.isEmpty_iff] at hnone
      rw [hnone.2]
      rfl
    · rfl

end

namespace Engine

theorem hear_log {α β : Type} (call : Call)
    (answer : σ × List β → (σ × List β) × Option (Answer α))
    (h : ∀ s, (answer s).1.2 = s.2) (e : Engine (σ × List β)) :
    (e.hear call answer).1.core.2 = e.core.2 := by
  have ha := h e.core
  unfold hear
  split
  · split
    · next he => rw [he] at ha; exact ha
    · next he => rw [he] at ha; exact ha
  · rfl

theorem hear_withLog {α β : Type} (call : Call) {answer : σ → σ × Option (Answer α)}
    {logged : σ × List β → (σ × List β) × Option (Answer α)}
    (h : ∀ core log, logged (core, log) = (((answer core).1, log), (answer core).2))
    (e : Engine σ) :
    e.withLog.hear call logged = ((e.hear call answer).1.withLog, (e.hear call answer).2) := by
  unfold hear
  rw [show e.withLog.now = e.now from rfl, show e.withLog.core = (e.core, []) from rfl, h]
  split
  · rcases answer e.core with ⟨core, _ | a⟩ <;> rfl
  · rfl

theorem note_withLog {α β : Type} (operation : Operation) (answer : Answer α) (e : Engine σ) :
    note operation answer (e.withLog : Engine (σ × List β)) = (note operation answer e).withLog := by
  cases answer <;> rfl

theorem note_core {α : Type} (operation : Operation) (answer : Answer α) (e : Engine σ) :
    (note operation answer e).core = e.core := by
  cases answer <;> rfl

theorem learn_core (e : Engine σ) (proxy : String) (delay : Int) :
    (e.learn proxy delay).core = e.core := by
  unfold learn
  cases Measurement.ofDelay? delay <;> rfl

theorem hear_noting (C : Core σ) (write : Note → List α) (e : Engine (σ × List α)) (call : Call)
    (proxy : String) :
    ∃ e₁ said heard, e.hear call ((C.noting write).probe proxy) = (e₁, heard) ∧
      e.withoutLog.hear call (C.probe proxy) = (e₁.withoutLog, heard) ∧ e₁.now = e.now ∧
      e₁.core.2 = e.core.2 ++ said.flatMap write ∧ Hearing e.now proxy call said heard := by
  have hprobe : (C.noting write).probe proxy e.core = (((C.probe proxy e.core.1).1,
      e.core.2 ++ write (.answered proxy (C.probe proxy e.core.1).2)),
      (C.probe proxy e.core.1).2) := rfl
  have hnow : e.withoutLog.now = e.now := rfl
  have hcore : e.withoutLog.core = e.core.1 := rfl
  have hone (x : Note) : [x].flatMap write = write x := List.flatMap_singleton write x
  unfold hear
  rw [hprobe, hnow, hcore]
  generalize C.probe proxy e.core.1 = answer
  obtain ⟨core, answer⟩ := answer
  cases ha : call.isAnswered e.now with
  | true =>
    cases answer with
    | some answer => exact ⟨_, _, _, rfl, rfl, rfl, by rw [hone], .answered ha⟩
    | none =>
      -- whether it is late does not depend on the answer
      cases ho : call.isOverdue e.now with
      | true =>
        have hlate : ({ call with answerAt := none } : Call).isOverdue e.now = true := ho
        simp only [if_true, hlate]
        exact ⟨_, _, _, rfl, rfl, rfl, by rw [hone], .givenUp ha ho⟩
      | false =>
        have hlate : ({ call with answerAt := none } : Call).isOverdue e.now = false := ho
        simp only [if_true, hlate]
        exact ⟨_, _, _, rfl, rfl, rfl, by rw [hone], .unanswered ha ho⟩
  | false =>
    cases ho : call.isOverdue e.now with
    | true => exact ⟨_, [], _, rfl, rfl, rfl, (List.append_nil _).symm, .overdue ha ho⟩
    | false => exact ⟨_, [], _, rfl, rfl, rfl, (List.append_nil _).symm, .early ha ho⟩

theorem endedProbe_noting (C : Core σ) (write : Note → List α) (e : Engine (σ × List α))
    (running : List (String × Call)) : ∃ said,
    (endedProbe (C.noting write) e running).1.core.2 = e.core.2 ++ said.flatMap write ∧
    Listens e.now running said (endedProbe C e.withoutLog running).2.1
      (endedProbe C e.withoutLog running).2.2 := by
  induction running generalizing e with
  | nil => exact ⟨[], (List.append_nil _).symm, .nobody⟩
  | cons probe rest ih =>
    obtain ⟨proxy, call⟩ := probe
    obtain ⟨e₁, said, heard, hover, hun, hnow, hlog, hh⟩ := hear_noting C write e call proxy
    rw [endedProbe, endedProbe, hover, hun]
    cases heard with
    | inl call' =>
      obtain ⟨later, hlater, hl⟩ := ih e₁
      rw [hnow] at hl
      refine ⟨said ++ later, ?_, .stays hh hl⟩
      rw [List.flatMap_append, ← List.append_assoc, ← hlog]
      exact hlater
    | inr answer => exact ⟨said, hlog, .ends hh⟩

theorem stepBatch_noting (C : Core σ) (write : Note → List α) (e : Engine (σ × List α))
    (b : ProbeBatch) : ∃ said,
    (stepBatch (C.noting write) e b).1.core.2 = e.core.2 ++ said.flatMap write ∧
    BatchTurn e.now b said (jobDeeds C e.withoutLog (.batch b)) (stepBatch C e.withoutLog b).2 := by
  cases hroom : b.hasRoom with
  | true =>
    obtain ⟨proxy, waiting, hw, hnoting⟩ := stepBatch_room (C.noting write) e hroom
    obtain ⟨proxy', waiting', hw', hstep⟩ := stepBatch_room C e.withoutLog hroom
    obtain ⟨rfl, rfl⟩ := List.cons.inj (hw'.symm.trans hw)
    have hlt : b.running.length < b.concurrency := by
      rw [ProbeBatch.hasRoom, Bool.and_eq_true, decide_eq_true_iff] at hroom
      exact hroom.2
    rw [hnoting, hstep, jobDeeds, if_pos hroom]
    refine ⟨[.asked (.probe proxy')], ?_, .start _ hlt hw⟩
    rw [List.flatMap_singleton]
    rfl
  | false =>
    obtain ⟨said, hlog, hlistens⟩ := endedProbe_noting C write e b.running
    have hsaid : (stepBatch.settle (C.noting write) b e).1.core.2 =
        e.core.2 ++ said.flatMap write := by
      rw [stepBatch.settle]
      rcases hended : endedProbe (C.noting write) e b.running with ⟨e', _ | ⟨_, _⟩, _⟩
      · rw [hended] at hlog
        exact hlog
      · rw [hended] at hlog
        dsimp only
        rw [report, learn_core, note_core]
        exact hlog
    refine ⟨said, (congrArg (·.1.core.2) (stepBatch_full _ e hroom)).trans hsaid, ?_⟩
    rw [stepBatch_full C e.withoutLog hroom, jobDeeds, hroom, stepBatch.settle]
    rcases hended : endedProbe C e.withoutLog b.running with ⟨e', _ | ⟨proxy, answer⟩, running⟩
    · rw [hended] at hlistens
      exact .rest hlistens
    · rw [hended] at hlistens
      exact .report hlistens

theorem stepTrigger_log (C : Core σ) (write : Note → List α) (e : Engine (σ × List α))
    (group : String) (limit : Nat) (call : Call) :
    (stepTrigger (C.noting write) e group limit (some call)).1.core.2 = e.core.2 := by
  have hh := hear_log call ((C.noting write).trigger group) (fun _ => rfl) e
  unfold stepTrigger
  dsimp only
  split
  · next he => rw [he] at hh; exact hh
  · next he =>
    rw [he] at hh
    rw [note_core]
    exact hh

theorem noted_stranger {L : Core (σ × List α)} {mine : Task → Prop} [DecidablePred mine]
    {e : Engine σ} {a : Action σ} (h : ∀ t, a = .resume t → ¬ mine t) : e.noted L mine a = [] := by
  cases a with
  | resume t => exact if_neg (h t rfl)
  | _ => rfl

theorem resume_core (C : Core σ) (e : Engine σ) {t : Task} (ha : t.isAborted = false) :
    (resume C e t).core = (stepJob C (e.without t) t.id t.job).1.core := by
  rw [resume_lives C e ha]
  cases (stepJob C (e.without t) t.id t.job).2 <;> rfl

end Engine

end ProxyPulse
