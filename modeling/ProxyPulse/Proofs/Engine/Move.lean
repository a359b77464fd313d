import Mathlib.Logic.Relation
import ProxyPulse.Proofs.Engine.Action
import ProxyPulse.Proofs.Registry

/-!
Every change of the engine is a chain of a few small moves. What holds of the moves holds of every
action, and the marks of the moves say what kind of thing an action may do.
-/

namespace ProxyPulse

def Task.plan? (t : Task) : Option SessionPlan :=
  if t.isAborted then none else t.job.plan?

def Task.Proper (t : Task) : Prop :=
  t.isAborted = true → t.job.plan?.isSome = true

def livePlans (tasks : List Task) : List SessionPlan :=
  tasks.filterMap Task.plan?

/-- What a move is about, if it is about anything that is shown or about sessions. -/
inductive Mark where
  | park
  | write (index : Nat) (name : String)
  | settings
  | resort
  | ask
  | close
  | swap
  | clock

def Measurement.isOfSessions : Measurement → Bool
  | .sessionEnded _ => true
  | .activeSessions _ => true
  | _ => false

namespace Engine

variable {σ : Type}

def books (e : Engine σ) : List Measurement :=
  e.measurements.filter Measurement.isOfSessions

structure Quiet (e e' : Engine σ) : Prop where
  now : e'.now = e.now
  overrides : e'.overrides = e.overrides
  registry : e'.registry = e.registry
  sessions : e'.sessions = e.sessions
  nextSession : e'.nextSession = e.nextSession
  tasks : e'.tasks = e.tasks
  nextTask : e'.nextTask = e.nextTask
  books : e'.books = e.books

def Unwatched (e : Engine σ) (index : Nat) : Prop :=
  ∀ s, e.sessions[index]? = some s → s.id ∉ (livePlans e.tasks).map SessionPlan.session

def Runs (e : Engine σ) (plan : SessionPlan) : Prop :=
  ∃ s, e.sessions[plan.index]? = some s ∧ s.id = plan.session ∧ s.group = plan.group

inductive Move : Option Mark → Engine σ → Engine σ → Prop
  | quiet {e e' : Engine σ} : Quiet e e' → Move none e e'
  | retask {e : Engine σ} (tasks : List Task) (nextTask : Nat) :
    (livePlans tasks).Sublist (livePlans e.tasks) →
    ((∀ t ∈ e.tasks, t.Proper) → ∀ t ∈ tasks, t.Proper) → Move none e { e with tasks, nextTask }
  | park {e : Engine σ} {t : Task} {plan : SessionPlan} : t.plan? = some plan → e.Runs plan →
    plan.session ∉ (livePlans e.tasks).map SessionPlan.session →
    Move (some .park) e { e with tasks := e.tasks ++ [t] }
  | write {e : Engine σ} (w : Registry.Write) : w.isFlag = false →
    Move (some (.write w.index w.name)) e (e.write w.apply)
  | settings {e : Engine σ} {b : Board} (overrides : Overrides) : e.board.Setting b →
    Move (some .settings) e { e with overrides, registry := { e.registry with board := b } }
  | resort {e : Engine σ} (now : Nat) :
    Move (some .resort) e
      { e with registry := { e.registry with board := e.board.serveResorting now } }
  | count {e : Engine σ} : Move (some .ask) e { e with nextSession := e.nextSession + 1 }
  | yield {e : Engine σ} : Move (some .ask) e (e.measure (.sessionEnded .stopped))
  | open {e : Engine σ} {index : Nat} {g : Group} : e.registry.group? index = some g →
    e.Unwatched index →
    Move (some .ask) e
      ({ e with nextSession := e.nextSession + 1 }.openSession index e.nextSession g)
  | close {e : Engine σ} {index : Nat} {s : Session} (outcome : SessionOutcome) :
    e.sessions[index]? = some s → e.Unwatched index →
    Move (some .close) e (e.closeSession index s outcome)
  | swap {e : Engine σ} (names : List String) : (∀ i : Nat, e.sessions[i]? = none) →
    e.registry.names ≠ names →
    Move (some .swap) e { e with registry := (e.registry.replace names).1 }
  | clock {e : Engine σ} {time : Nat} : e.now ≤ time → Move (some .clock) e { e with now := time }

def Moves (P : Mark → Prop) : Engine σ → Engine σ → Prop :=
  Relation.ReflTransGen fun e e' => ∃ m, (∀ x ∈ m, P x) ∧ Move m e e'

variable {P : Mark → Prop} {e e' e'' : Engine σ}

theorem Quiet.refl (e : Engine σ) : Quiet e e :=
  ⟨rfl, rfl, rfl, rfl, rfl, rfl, rfl, rfl⟩

theorem Quiet.trans (h : Quiet e e') (h' : Quiet e' e'') : Quiet e e'' :=
  ⟨h'.now.trans h.now, h'.overrides.trans h.overrides, h'.registry.trans h.registry,
    h'.sessions.trans h.sessions, h'.nextSession.trans h.nextSession, h'.tasks.trans h.tasks,
    h'.nextTask.trans h.nextTask, h'.books.trans h.books⟩

theorem Quiet.board (h : Quiet e e') : e'.board = e.board :=
  congrArg Registry.board h.registry

theorem Moves.trans (h : Moves P e e') (h' : Moves P e' e'') : Moves P e e'' :=
  Relation.ReflTransGen.trans h h'

theorem Moves.refl (P : Mark → Prop) (e : Engine σ) : Moves P e e :=
  Relation.ReflTransGen.refl

theorem Moves.mono {Q : Mark → Prop} (hPQ : ∀ m, P m → Q m) (h : Moves P e e') : Moves Q e e' := by
  induction h with
  | refl => exact .refl Q e
  | tail _ hs ih =>
    obtain ⟨m, hm, hs⟩ := hs
    exact ih.tail ⟨m, fun x hx => hPQ x (hm x hx), hs⟩

theorem Move.plain (h : Move none e e') : Moves P e e' :=
  Relation.ReflTransGen.single ⟨none, fun _ hx => (nomatch hx), h⟩

theorem Move.marked {m : Mark} (h : Move (some m) e e') (hm : P m) : Moves P e e' :=
  Relation.ReflTransGen.single ⟨some m, fun _ hx => Option.some.inj hx ▸ hm, h⟩

theorem Quiet.moves (h : Quiet e e') : Moves P e e' :=
  (Move.quiet h).plain

theorem Moves.now (h : Moves P e e') (hP : ¬ P .clock) : e'.now = e.now := by
  induction h with
  | refl => rfl
  | tail _ hm ih =>
    obtain ⟨m, hm, hs⟩ := hm
    rw [← ih]
    cases hs with
    | quiet hq => exact hq.now
    | clock => exact absurd (hm _ rfl) hP
    | _ => rfl

theorem learn_quiet (e : Engine σ) (proxy : String) (delay : Int) :
    Quiet e (e.learn proxy delay) := by
  unfold learn Measurement.ofDelay?
  cases isKnownDelay delay <;> exact ⟨rfl, rfl, rfl, rfl, rfl, rfl, rfl, rfl⟩

theorem lookUp_quiet (e : Engine σ) (proxy : String) : Quiet e (e.lookUp proxy).1 :=
  ⟨rfl, rfl, rfl, rfl, rfl, rfl, rfl, rfl⟩

theorem evict_quiet (e : Engine σ) : Quiet e e.evict.1 :=
  ⟨rfl, rfl, rfl, rfl, rfl, rfl, rfl, rfl⟩

theorem call_quiet (C : Core σ) (operation : Operation) (limit : Option Nat) (e : Engine σ) :
    Quiet e (e.call C operation limit).1 :=
  ⟨rfl, rfl, rfl, rfl, rfl, rfl, rfl, rfl⟩

theorem note_quiet {α : Type} (operation : Operation) (answer : Answer α) (e : Engine σ) :
    Quiet e (note operation answer e) := by
  cases answer <;> exact ⟨rfl, rfl, rfl, rfl, rfl, rfl, rfl, rfl⟩

theorem hear_quiet {α : Type} (call : Call) (answer : σ → σ × Option (Answer α)) (e : Engine σ) :
    Quiet e (e.hear call answer).1 := by
  unfold hear
  split
  · split <;> exact ⟨rfl, rfl, rfl, rfl, rfl, rfl, rfl, rfl⟩
  · exact .refl e

theorem hear_without {α : Type} (call : Call) (answer : σ → σ × Option (Answer α))
    (e : Engine σ) (t : Task) :
    (e.without t).hear call answer = ((e.hear call answer).1.without t, (e.hear call answer).2) := by
  unfold hear
  rw [show (e.without t).now = e.now from rfl, show (e.without t).core = e.core from rfl]
  split
  · rcases answer e.core with ⟨core, _ | a⟩ <;> rfl
  · rfl

theorem hear_waits {α : Type} {call call' : Call} {answer : σ → σ × Option (Answer α)}
    (h : (e.hear call answer).2 = .inl call') :
    call'.startedAt = call.startedAt ∧ call'.limit = call.limit := by
  unfold hear at h
  split at h
  · split at h
    · cases h
    · dsimp only at h
      split at h
      · cases h
      · cases h
        exact ⟨rfl, rfl⟩
  · split at h
    · cases h
    · cases h
      exact ⟨rfl, rfl⟩

theorem query_quiet (C : Core σ) (group : String) (sort : SortMode) (limit : Nat) (e : Engine σ) :
    Quiet e (e.query C group sort limit).1 := by
  unfold query
  dsimp only
  split <;> exact ⟨rfl, rfl, rfl, rfl, rfl, rfl, rfl, rfl⟩

theorem advanceQuery_quiet (C : Core σ) (q : Query) (e : Engine σ) :
    Quiet e (e.advanceQuery C q).1 := by
  unfold advanceQuery
  split
  · split
    · exact ⟨rfl, rfl, rfl, rfl, rfl, rfl, rfl, rfl⟩
    · exact .refl e
  · next call _ =>
    have hq := hear_quiet call (C.report q.group q.sort) e
    split
    · next he => rw [he] at hq; exact hq
    · next e₁ answer he =>
      rw [he] at hq
      have hr : Quiet e₁ { e₁ with permits := e₁.permits.release } :=
        ⟨rfl, rfl, rfl, rfl, rfl, rfl, rfl, rfl⟩
      exact (hq.trans hr).trans (note_quiet _ answer _)

theorem dropQuery_quiet (q : Query) (e : Engine σ) : Quiet e (e.dropQuery q) :=
  ⟨rfl, rfl, rfl, rfl, rfl, rfl, rfl, rfl⟩

theorem abandonJob_quiet (e : Engine σ) (job : Job) : Quiet e (e.abandonJob job) := by
  unfold abandonJob
  split
  · exact dropQuery_quiet _ e
  · exact .refl e

theorem livePlans_append (ts us : List Task) : livePlans (ts ++ us) = livePlans ts ++ livePlans us :=
  List.filterMap_append

theorem proper_of_not_aborted {t : Task} (h : t.isAborted = false) : t.Proper := by
  intro ha
  rw [h] at ha
  cases ha

theorem not_aborted_of_proper {t : Task} (h : t.Proper) (hp : t.job.plan? = none) :
    t.isAborted = false := by
  cases ha : t.isAborted with
  | false => rfl
  | true =>
    have hsome := h ha
    rw [hp] at hsome
    cases hsome

theorem resume_lives (C : Core σ) (e : Engine σ) {t : Task} (hlive : t.isAborted = false) :
    resume C e t = (stepJob C (e.without t) t.id t.job).1.park t
      (stepJob C (e.without t) t.id t.job).2 := by
  simp only [resume, hlive]
  rfl

theorem proper_append {ts : List Task} (h : ∀ t ∈ ts, t.Proper) {t : Task}
    (ht : t.isAborted = false) : ∀ u ∈ ts ++ [t], u.Proper := by
  intro u hu
  rcases List.mem_append.mp hu with hu | hu
  · exact h u hu
  · rw [List.mem_singleton.mp hu]
    exact proper_of_not_aborted ht

theorem spawn_moves (e : Engine σ) {job : Job} (h : job.plan? = none) : Moves P e (e.spawn job) := by
  refine (Move.retask (e.tasks ++ [{ id := e.nextTask, job }]) (e.nextTask + 1) ?_ ?_).plain
  · simp [livePlans, Task.plan?, h]
  · exact fun hp => proper_append hp rfl

theorem map_moves (e : Engine σ) (f : Task → Task)
    (hf : ∀ t, (f t).plan? = t.plan? ∨ (f t).plan? = none)
    (hp : ∀ t : Task, t.Proper → (f t).Proper) :
    Moves P e { e with tasks := e.tasks.map f } := by
  refine (Move.retask (e.tasks.map f) e.nextTask ?_ fun h t ht => ?_).plain
  · induction e.tasks with
    | nil => exact List.Sublist.refl _
    | cons t rest ih =>
      simp only [livePlans, List.map_cons, List.filterMap_cons] at ih ⊢
      rcases hf t with h | h
      · rw [h]
        split
        · exact ih
        · exact ih.cons_cons _
      · rw [h]
        dsimp only
        split
        · exact ih
        · exact ih.cons _
  · obtain ⟨u, hu, rfl⟩ := List.mem_map.mp ht
    exact hp u (h u hu)

theorem without_moves (e : Engine σ) (t : Task) : Moves P e (e.without t) :=
  (Move.retask (e.tasks.filter (·.id != t.id)) e.nextTask (List.filter_sublist.filterMap _)
    fun h u hu => h u (List.mem_filter.mp hu).1).plain

theorem park_moves (e : Engine σ) (t : Task) {job : Option Job} (h : ∀ j ∈ job, j.plan? = none) :
    Moves P e (e.park t job) := by
  cases job with
  | none => exact .refl P e
  | some job =>
    refine (Move.retask (e.tasks ++ [{ id := t.id, job }]) e.nextTask ?_ ?_).plain
    · simp [livePlans, Task.plan?, h job rfl]
    · exact fun hp => proper_append hp rfl

end Engine

end ProxyPulse
