import ProxyPulse.Proofs.Engine.Schedule

/-!
A run of the engine, with what is noted of it on the way and the moments. A run is prompt when the
clock waits for whatever can go on, and stops at every moment at which something can.
-/

namespace ProxyPulse.Engine

variable {σ : Type} {C : Core σ} {e e' e'' : Engine σ} {P : Engine σ → Action σ → Prop}

inductive Course {α : Type} (Step : Engine σ → List α → Engine σ → Prop) (e : Engine σ) :
    List (Nat × α) → Engine σ → Prop
  | refl : Course Step e [] e
  | step {notes : List (Nat × α)} {e' e'' : Engine σ} {new : List α} : Course Step e notes e' →
    Step e' new e'' → Course Step e (notes ++ new.map (e'.now, ·)) e''

inductive Acts {α : Type} (C : Core σ) (note : Engine σ → Action σ → List α)
    (P : Engine σ → Action σ → Prop) (e : Engine σ) : List α → Engine σ → Prop
  | act {a : Action σ} : e.Allows a → P e a → Acts C note P e (note e a) (e.perform C a)

/-- The clock moves only when nothing can go on, and never past a moment at which something can. -/
def Prompt (e : Engine σ) : Action σ → Prop
  | .wait time => e.isBusy none = false ∧ ∀ next, e.nextMoment? = some next → time ≤ next
  | _ => True

theorem Course.keeps {α : Type} {Step : Engine σ → List α → Engine σ → Prop}
    {Q : List (Nat × α) → Engine σ → Prop} {notes : List (Nat × α)} (h : Course Step e notes e')
    (hQ : ∀ notes e new e', Step e new e' → Q notes e → Q (notes ++ new.map (e.now, ·)) e')
    (hq : Q [] e) : Q notes e' := by
  induction h with
  | refl => exact hq
  | step _ hs ih => exact hQ _ _ _ _ hs ih

theorem Course.mono {α : Type} {Step Step' : Engine σ → List α → Engine σ → Prop}
    (hs : ∀ e new e', Step e new e' → Step' e new e') {notes : List (Nat × α)}
    (h : Course Step e notes e') : Course Step' e notes e' := by
  induction h with
  | refl => exact .refl
  | step _ h ih => exact ih.step (hs _ _ _ h)

theorem Course.trans {α : Type} {Step : Engine σ → List α → Engine σ → Prop}
    {notes notes' : List (Nat × α)} (h : Course Step e notes e') (h' : Course Step e' notes' e'') :
    Course Step e (notes ++ notes') e'' := by
  induction h' with
  | refl => rwa [List.append_nil]
  | step _ hs ih =>
    rw [← List.append_assoc]
    exact ih.step hs

theorem Reaches.course {α : Type} (h : Reaches C e e') (note : Engine σ → Action σ → List α) :
    ∃ notes, Course (Acts C note fun _ _ => True) e notes e' := by
  obtain ⟨calls, hr⟩ := h
  induction hr with
  | refl => exact ⟨[], .refl⟩
  | step _ ha ih =>
    obtain ⟨notes, hc⟩ := ih
    exact ⟨_, hc.step (.act ha trivial)⟩

def next? (e : Engine σ) : Option (Action σ) :=
  if e.isBusy none then (e.tasks.find? e.isReady).map .resume else e.nextMoment?.map .wait

def play {α : Type} (C : Core σ) (note : Engine σ → Action σ → List α) :
    Nat → Engine σ → List (Nat × α) × Engine σ
  | 0, e => ([], e)
  | count + 1, e =>
    match e.next? with
    | none => ([], e)
    | some a =>
      let (notes, e') := play C note count (e.perform C a)
      ((note e a).map (e.now, ·) ++ notes, e')

theorem next?_prompt {a : Action σ} (h : e.next? = some a) : e.Allows a ∧ Prompt e a := by
  unfold next? at h
  split at h
  · obtain ⟨t, ht, rfl⟩ := Option.map_eq_some_iff.mp h
    exact ⟨List.mem_of_find?_eq_some ht, trivial⟩
  · next hbusy =>
    obtain ⟨time, ht, rfl⟩ := Option.map_eq_some_iff.mp h
    refine ⟨nextMoment_le ht, Bool.eq_false_iff.mpr hbusy, fun next hn => ?_⟩
    exact Nat.le_of_eq (Option.some.inj (ht.symm.trans hn))

theorem play_course_of {α : Type} (C : Core σ) (note : Engine σ → Action σ → List α)
    {P : Engine σ → Action σ → Prop} {count : Nat} {e : Engine σ}
    (h : ∀ k < count, ∀ a, (play C note k e).2.next? = some a → P (play C note k e).2 a) :
    Course (Acts C note P) e (play C note count e).1 (play C note count e).2 := by
  induction count generalizing e with
  | zero => exact .refl
  | succ count ih =>
    unfold play
    split
    · exact .refl
    · next a ha =>
      have hfirst := h 0 (Nat.succ_pos _) a ha
      refine (Course.refl.step (.act (next?_prompt ha).1 hfirst)).trans (ih fun k hk b hb => ?_)
      have hnext : (play C note (k + 1) e).2 = (play C note k (e.perform C a)).2 := by
        rw [play, ha]
      exact hnext ▸ h (k + 1) (Nat.succ_lt_succ hk) b (hnext ▸ hb)

theorem play_course {α : Type} (C : Core σ) (note : Engine σ → Action σ → List α) (count : Nat)
    (e : Engine σ) :
    Course (Acts C note Prompt) e (play C note count e).1 (play C note count e).2 :=
  play_course_of C note fun _ _ _ ha => (next?_prompt ha).2

def reorder (e : Engine σ) (t : Task) (b : ProbeBatch) (waiting : List String)
    (running : List (String × Call)) : Engine σ :=
  (e.without t).park t (some (.batch { b with waiting, running }))

/-- What can happen where every probe is a task of its own: an action of a kind, or probes that
wait, or that run, change places, so that they come to their turns in whatever order. -/
inductive Interleaves {α : Type} (C : Core σ) (note : Engine σ → Action σ → List α)
    (P : Engine σ → Action σ → Prop) (e : Engine σ) : List α → Engine σ → Prop
  | act {new : List α} {e' : Engine σ} : Acts C note P e new e' → Interleaves C note P e new e'
  | reorder {t : Task} {b : ProbeBatch} {waiting : List String} {running : List (String × Call)} :
    t ∈ e.tasks → t.job = .batch b → waiting.Perm b.waiting → running.Perm b.running →
    Interleaves C note P e [] (e.reorder t b waiting running)

theorem Acts.reaches {α : Type} {note : Engine σ → Action σ → List α} {notes : List α}
    (h : Acts C note P e notes e') : Reaches C e e' := by
  cases h with
  | act ha _ => exact reaches_perform C ha

theorem Course.reaches {α : Type} {note : Engine σ → Action σ → List α} {notes : List (Nat × α)}
    (h : Course (Acts C note P) e notes e') : Reaches C e e' :=
  h.keeps (Q := fun _ e' => Reaches C e e') (fun _ _ _ _ hs hr => hr.trans hs.reaches)
    (.refl C e)

end ProxyPulse.Engine
