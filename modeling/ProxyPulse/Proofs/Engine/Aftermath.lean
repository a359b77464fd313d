import ProxyPulse.Proofs.Engine.Ledger
import ProxyPulse.Proofs.Engine.Roster
import ProxyPulse.Proofs.Engine.Schedule

/-!
After the coordinator. Its end is the end of every session, but the tasks that it left things to go
on. Loading and naming start nothing; a choice that the core has yet to make may still have the
chosen group tested, once, and of that session only its own end will make an end.
-/

namespace ProxyPulse

def Action.Begins {σ : Type} : Action σ → Prop
  | .request _ | .test _ | .backgroundTest _ | .startCoordinator _ => True
  | _ => False

def Task.post (t : Task) : List Nat :=
  if t.job.isCoordinating then [t.id] else []

theorem Told.post {K : Job → Prop} {t t' : Task} (h : Told K t t') : t'.post = t.post := by
  rw [Task.post, Task.post, h.isCoordinating, h.id]

theorem Task.post_eq_nil {t : Task} (h : t.job.isCoordinating = false) : t.post = [] := by
  rw [Task.post, h]
  rfl

namespace Engine

variable {σ : Type} {C : Core σ} {K : Job → Prop} {e e' : Engine σ} {t : Task}

def choices (e : Engine σ) : List String :=
  e.tasks.flatMap fun t => t.job.choices

def posts (e : Engine σ) : List Nat :=
  e.tasks.flatMap Task.post

/-- What may come of an engine when nothing is begun any more but by its own tasks. -/
abbrev Unattended (C : Core σ) : Engine σ → Engine σ → Prop :=
  RunOf C fun a => ¬ a.Begins

theorem listeners_eq (e : Engine σ) : e.listeners = e.posts.length := by
  unfold listeners posts
  induction e.tasks with
  | nil => rfl
  | cons t rest ih =>
    rw [List.countP_cons, ih, List.flatMap_cons, List.length_append, Nat.add_comm]
    congr 1
    unfold Task.post Job.isCoordinating
    cases t.job <;> rfl

theorem Staffs.posts (h : Staffs K e e') (hK : ∀ job, K job → job.isCoordinating = false) :
    e'.posts = e.posts :=
  h.read (fun _ _ ht => ht.post) fun t ht => Task.post_eq_nil (hK t.job ht)

theorem Staffs.choices (h : Staffs K e e') (hK : ∀ job, K job → job.choices = []) :
    e'.choices = e.choices :=
  h.read (fun _ _ ht => ht.choices) fun t ht => hK t.job ht

theorem Staffs.of_aid (h : Staffs Job.IsAid e e') :
    e'.posts = e.posts ∧ e'.choices = e.choices :=
  ⟨h.posts fun _ hj => (Job.IsErrand.aid hj).ordinary.2, h.choices fun _ hj => hj.choices⟩

theorem aside_posts (C : Core σ) (e : Engine σ) {a : Action σ} (h : a.IsAside) :
    (e.perform C a).posts = e.posts ∧ (e.perform C a).choices = e.choices := by
  by_cases hi : a.Instructs
  · have ht := fun t : Task =>
      t.instruct_told (K := fun _ => True) (fun _ => trivial) (e.told a t.id)
    rw [perform_instructs C e hi]
    exact ⟨map_read ht (fun _ _ h => h.post) e.tasks, map_read ht (fun _ _ h => h.choices) e.tasks⟩
  · obtain ⟨hs, _⟩ : Tends Job.IsAid e [] (e.perform C a) [] :=
      aside_tends C e h hi fun plan _ => .opening plan
    exact hs.of_aid

theorem park_posts (e : Engine σ) (t : Task) (job : Option Job) :
    (e.park t job).posts = e.posts ++ job.elim [] fun job => Task.post { id := t.id, job } :=
  park_read Task.post e t job

theorem park_choices (e : Engine σ) (t : Task) (job : Option Job) :
    (e.park t job).choices = e.choices ++ job.elim [] Job.choices :=
  park_read (fun t => t.job.choices) e t job

theorem not_coordinating (hl : e.listeners = 0) (ht : t ∈ e.tasks) :
    t.job.isCoordinating = false := by
  rw [listeners_eq, List.length_eq_zero_iff, posts, List.flatMap_eq_nil_iff] at hl
  have hp := hl t ht
  unfold Task.post at hp
  split at hp
  · cases hp
  · next h => exact Bool.eq_false_iff.mpr h

theorem Numbered.choices_length (h : Numbered [] e) (ht : t ∈ e.tasks) :
    e.choices.length = t.job.choices.length + (e.without t).choices.length := by
  have hp : e.choices.Perm (t.job.choices ++ (e.without t).choices) :=
    (h.without_perm ht).flatMap_right _
  rw [hp.length_eq, List.length_append]

theorem Numbered.posts_without (h : Numbered [] e) (ht : t ∈ e.tasks)
    (hc : t.job.isCoordinating = false) : (e.without t).posts.length = e.posts.length := by
  have hp : e.posts.Perm (t.post ++ (e.without t).posts) := (h.without_perm ht).flatMap_right _
  rw [hp.length_eq, Task.post_eq_nil hc]
  rfl

theorem takeChoice_done (e : Engine σ) (choice : Choice) (answer : Answer Bool) (id : Nat) :
    (afterRequest id (e.takeChoice choice answer)).2 = none := by
  unfold takeChoice
  split <;> rfl

theorem choiceCalls_spend (C : Core σ) (e : Engine σ) (id : Nat) (choice : Choice) (call : Call) :
    ((stepJob C e id (.choosing choice call)).2.elim [] Job.choices).length +
      (choiceCalls C e choice call).length ≤ (Job.choosing choice call).choices.length := by
  show ((afterRequest id (stepRequest C e (.choosing choice call))).2.elim [] Job.choices).length +
    _ ≤ _
  unfold choiceCalls stepRequest
  dsimp only
  rcases e.hear call (C.choose choice.group choice.proxy) with ⟨e', call' | answer⟩
  · exact Nat.le_refl _
  · dsimp only
    rw [takeChoice_done, Option.elim_none, List.length_nil, Nat.zero_add]
    unfold Job.choices
    dsimp only
    split
    · split
      · rw [List.length_map]
        exact List.length_singleton ▸ Option.length_toList_le
      · exact Nat.le_refl _
    · exact Nat.zero_le _

theorem stepJob_spends (C : Core σ) (e : Engine σ) (id : Nat) {job : Job}
    (h : job.isCoordinating = false) :
    ((stepJob C e id job).2.elim [] Job.choices).length + (jobCalls C e job).length ≤
      job.choices.length := by
  have hn : ∀ next ∈ (stepJob C e id job).2, next.choices.length ≤ job.choices.length :=
    fun _ hn => (stepJob_next C e id h hn).2.1
  cases job with
  | choosing choice call => exact choiceCalls_spend C e id choice call
  | coordinating c => cases h
  | _ =>
    generalize (stepJob C e id _).2 = rest at hn
    cases rest with
    | none => exact Nat.zero_le _
    | some next => exact hn next rfl

theorem resume_spends (C : Core σ) (h : Numbered [] e) (ht : t ∈ e.tasks) (hp : t.Proper)
    (hc : t.job.isCoordinating = false) :
    (resume C e t).posts.length = e.posts.length ∧
      (resume C e t).choices.length + (e.calls C (.resume t)).length ≤ e.choices.length := by
  have hposts := h.posts_without ht hc
  have hchoices := h.choices_length ht
  unfold resume calls
  dsimp only
  split
  · next ha =>
    obtain ⟨hd, _⟩ : Tends Job.IsAid (e.without t) (t.job.queries ++ []) _ [] :=
      abandonJob_tends _ (hp ha)
    rw [hd.of_aid.1, hd.of_aid.2]
    refine ⟨hposts, ?_⟩
    rw [List.length_nil]
    omega
  · have hd : Staffs Job.IsAid (e.without t) (stepJob C (e.without t) t.id t.job).1 :=
      (tends_of_append (stepJob_tends C _ t.id hc fun _ hj => hj.isAid)).staffs
    have hs := stepJob_spends C (e.without t) t.id hc
    rw [park_posts, park_choices, hd.of_aid.1, hd.of_aid.2, List.length_append,
      List.length_append]
    constructor
    · cases hn : (stepJob C (e.without t) t.id t.job).2 with
      | none => exact hposts
      | some next =>
        have hnext := (stepJob_next C (e.without t) t.id hc hn).1
        rw [Option.elim_some, Task.post_eq_nil hnext]
        exact hposts
    · omega

theorem takeBranch_ended (e : Engine σ) (c : Coordinator) (branch : Coordinator.Branch)
    (h : (e.takeBranch c branch).2 = none) : (e.takeBranch c branch).1 = e.stopAll.1 := by
  cases branch with
  | intent =>
    unfold takeBranch at h ⊢
    dsimp only at h ⊢
    split
    · next hi => rw [hi] at h; cases h
    · rfl
  | tick => cases h
  | update =>
    unfold takeBranch at h
    dsimp only at h
    split at h <;> cases h
  | stop => rfl

theorem stepCoordinator_ended (e : Engine σ) (c : Coordinator)
    (h : (e.stepCoordinator c).2 = none) : (e.stepCoordinator c).1 = e.stopAll.1 := by
  unfold stepCoordinator at h ⊢
  split
  · next branch hb =>
    rw [hb] at h
    exact takeBranch_ended e c branch h
  · next hb =>
    rw [hb] at h
    cases h

theorem posts_of_parked (e : Engine σ) (t : Task) (c : Coordinator) :
    (e.park t (some (.coordinating c))).posts ≠ [] := by
  rw [park_posts]
  exact List.append_ne_nil_of_right_ne_nil _ (List.cons_ne_nil _ _)

theorem park_coordinator_ended {x : Engine σ × Option Coordinator}
    (hx : x.2 = none → x.1 = e.stopAll.1)
    (h : (x.1.park t (x.2.map .coordinating)).posts = []) :
    x.1.park t (x.2.map .coordinating) = e.stopAll.1 := by
  obtain ⟨e', _ | c⟩ := x
  · exact hx rfl
  · exact absurd h (posts_of_parked e' t c)

theorem end_stops_all (C : Core σ) (hc : Coherent e) (hn : Numbered [] e) {a : Action σ}
    (ha : e.Allows a) (hon : 0 < e.listeners) (hoff : (e.perform C a).listeners = 0) :
    ∃ e' : Engine σ, e.perform C a = e'.stopAll.1 := by
  rw [listeners_eq] at hon hoff
  have hnil := List.eq_nil_of_length_eq_zero hoff
  by_cases hside : a.IsAside
  · rw [(aside_posts C e hside).1] at hoff
    omega
  · cases a with
    | resume t =>
      cases hj : t.job.isCoordinating with
      | false =>
        have hp := (resume_spends C hn ha (hc.proper t ha) hj).1
        have hoff : (resume C e t).posts.length = 0 := hoff
        omega
      | true =>
        obtain ⟨c, hj⟩ := Job.coordinator_of hj
        have hab : t.isAborted = false := not_aborted_of_proper (hc.proper t ha) (by rw [hj]; rfl)
        have hr : e.perform C (.resume t) = ((e.without t).stepCoordinator c).1.park t
            (((e.without t).stepCoordinator c).2.map .coordinating) := by
          show resume C e t = _
          rw [resume, hab, hj]
          rfl
        rw [hr] at hnil ⊢
        exact ⟨_, park_coordinator_ended (stepCoordinator_ended (e.without t) c) hnil⟩
    | turnTo t c branch =>
      exact ⟨_, park_coordinator_ended (takeBranch_ended (e.without t) c branch) hnil⟩
    | request r =>
      have hs : Staffs Job.IsErrand e (e.spawn (.start r)) := .single (.spawn (.start r))
      have hp := hs.posts fun _ hj => hj.ordinary.2
      have hoff : (e.spawn (.start r)).posts.length = 0 := hoff
      rw [hp] at hoff
      omega
    | startCoordinator takesUpdates =>
      have hnil : (e.tasks ++ [_]).flatMap Task.post = [] := hnil
      rw [List.flatMap_append] at hnil
      cases (List.append_eq_nil_iff.mp hnil).2
    | _ => exact absurd trivial hside

theorem Via.sessions_le {calls : List (TestCall σ)} (h : Via e calls e') :
    e'.sessions.size ≤ e.sessions.size + calls.length := by
  obtain ⟨ended, _, hperm⟩ := h.accounts.ends
  have hl := hperm.length_eq
  have hs : (startedBy calls).length ≤ calls.length := List.length_filterMap_le _ _
  rw [List.length_append, List.length_append, length_running, length_running] at hl
  omega

structure Fades (bound : Nat) (e : Engine σ) : Prop where
  coherent : Coherent e
  numbered : Numbered [] e
  left : e.listeners = 0 ∧ e.sessions.size + e.choices.length ≤ bound

theorem Fades.perform {bound : Nat} (h : Fades bound e) {a : Action σ} (ha : e.Allows a)
    (hb : ¬ a.Begins) : Fades bound (e.perform C a) := by
  have hvia := perform_via C h.coherent ha
  have hsize := hvia.sessions_le
  obtain ⟨hlisten, hbound⟩ := h.left
  rw [listeners_eq] at hlisten
  refine ⟨hvia.moves.coherent h.coherent, h.numbered.perform C h.coherent ha, ?_⟩
  rw [listeners_eq]
  by_cases hside : a.IsAside
  · obtain ⟨hposts, hchoices⟩ := aside_posts C e hside
    have hcalls : e.calls C a = [] := by
      cases a with
      | resume t | turnTo t c branch => cases hside
      | test index | backgroundTest index => exact absurd trivial hb
      | _ => rfl
    rw [hcalls, List.length_nil] at hsize
    rw [hposts, hchoices]
    omega
  · cases a with
    | resume t =>
      have hj := not_coordinating h.left.1 ha
      obtain ⟨hposts, hspent⟩ := resume_spends C h.numbered ha (h.coherent.proper t ha) hj
      have hposts : (e.perform C (.resume t)).posts.length = e.posts.length := hposts
      have hspent : (e.perform C (.resume t)).choices.length +
        (e.calls C (.resume t)).length ≤ e.choices.length := hspent
      omega
    | turnTo t c branch =>
      have hj := not_coordinating h.left.1 ha.1
      rw [ha.2.1] at hj
      cases hj
    | request r | startCoordinator takesUpdates => exact absurd trivial hb
    | _ => exact absurd trivial hside

theorem Unattended.fades {bound : Nat} (h : Unattended C e e') (hf : Fades bound e) :
    Fades bound e' := by
  induction h with
  | refl => exact hf
  | step _ ha hb ih => exact ih.perform ha hb

theorem stopAll_size (e : Engine σ) : e.stopAll.1.sessions.size = 0 := by
  have h : e.stopAll.1.sessions = ∅ :=
    Std.ExtTreeMap.ext_getElem? fun i => (stopAll_sessions e i).trans (by simp)
  rw [h]
  rfl

/-- When the last coordinator ends, no session is left. From then on, unless somebody begins
something anew, there are never more sessions than choices that were under way at that moment, less
those that are so still; so there are none at all where none was. -/
theorem only_choices_outlive_coordinators (C : Core σ) (h : Reachable C e) {a : Action σ}
    (ha : e.Allows a) (hon : 0 < e.listeners) (hoff : (e.perform C a).listeners = 0) :
    (e.perform C a).sessions.size = 0 ∧
    ∀ e', Unattended C (e.perform C a) e' →
      e'.listeners = 0 ∧
      e'.sessions.size + e'.choices.length ≤ (e.perform C a).choices.length ∧
      ((e.perform C a).choices = [] → e'.sessions.size = 0) := by
  obtain ⟨core, config, overrides, calls, hr⟩ := h
  have hc := hr.coherent (new_coherent core config overrides)
  have hn := hr.numbered (new_coherent core config overrides) (new_numbered core config overrides)
  obtain ⟨stopped, hstop⟩ := end_stops_all C hc hn ha hon hoff
  have hnone : (e.perform C a).sessions.size = 0 := by
    rw [hstop]
    exact stopAll_size stopped
  have hf : Fades (e.perform C a).choices.length (e.perform C a) := by
    refine ⟨(perform_moves C hc ha).coherent hc, hn.perform C hc ha, hoff, Nat.le_of_eq ?_⟩
    rw [hnone, Nat.zero_add]
  refine ⟨hnone, fun e' he => ?_⟩
  obtain ⟨hleft, hbound⟩ := (he.fades hf).left
  refine ⟨hleft, hbound, fun hnil => ?_⟩
  rw [hnil, List.length_nil] at hbound
  omega

def nested : Core Unit :=
  { Core.single 0 with
    start := fun _ op s => (s, some (match op with | .choose _ _ => 100 | _ => 0))
    names := fun _ s => (s, some (.ok ["auto", "sub"]))
    report := fun group _ s => (s, some (.ok ⟨group, .selector, "",
      if group = "auto" then [⟨"sub", .group, "", 0⟩] else [⟨"direct", .terminal, "", 0⟩]⟩)) }

def stopping : Engine Unit :=
  let (e, handle) := (refreshed nested () {}).startCoordinator false
  let e := (e.send handle (.select 0 "sub")).1
  (settleAround nested none 10 e).shutdown

def stopper : Task :=
  { id := 1, job := .coordinating { ticker := some ⟨5000, 5000⟩, isStopped := true } }

def chooser : Task :=
  { id := 2, job := .choosing ⟨0, "auto", "sub", true⟩ ⟨0, some 100, some 5000⟩ }

def late : Engine Unit :=
  (({ stopping.perform nested (.resume stopper) with now := 100 }).perform nested (.resume chooser))

theorem stopping_reachable : Reachable nested stopping := by
  refine (refreshed_reachable nested () {}).reaches ?_
  refine .trans (reaches_perform _ (a := .startCoordinator false) trivial) ?_
  refine .trans (reaches_perform _ (a := .send 1 (.select 0 "sub")) trivial) ?_
  refine .trans (settleAround_reaches nested none 10 _) ?_
  exact reaches_perform _ (a := .shutdown) trivial

theorem late_unattended : Unattended nested (stopping.perform nested (.resume stopper)) late := by
  have hnow : (stopping.perform nested (.resume stopper)).now ≤ 100 := by decide
  have hwait : Unattended nested (stopping.perform nested (.resume stopper))
      ((stopping.perform nested (.resume stopper)).perform nested (.wait 100)) :=
    .step .refl hnow nofun
  exact hwait.step (a := .resume chooser) (List.mem_of_getElem? (i := 0) rfl) nofun

/-- A session may start after the coordinator has ended and stopped all of them. -/
theorem session_after_the_end : ∃ (e : Engine Unit) (a : Action Unit) (e' : Engine Unit),
    Reachable nested e ∧ e.Allows a ∧ 0 < e.listeners ∧ (e.perform nested a).listeners = 0 ∧
      (e.perform nested a).sessions.size = 0 ∧ Unattended nested (e.perform nested a) e' ∧
      e'.sessions.size = 1 :=
  ⟨stopping, .resume stopper, late, stopping_reachable, List.mem_of_getElem? (i := 0) rfl,
    by decide, by decide, by decide, late_unattended, by decide⟩

theorem only_choices_outlive_coordinators_late :
    (stopping.perform nested (.resume stopper)).choices = ["sub"] ∧ late.sessions.size = 1 ∧
      late.choices = [] := by
  obtain ⟨_, hlater⟩ := only_choices_outlive_coordinators nested stopping_reachable
    (a := .resume stopper) (List.mem_of_getElem? (i := 0) rfl) (by decide) (by decide)
  obtain ⟨_, hbound, _⟩ := hlater late late_unattended
  have hunderway : (stopping.perform nested (.resume stopper)).choices = ["sub"] := by decide
  have hsize : late.sessions.size = 1 := by decide
  rw [hunderway, hsize, List.length_singleton] at hbound
  exact ⟨hunderway, hsize, List.eq_nil_of_length_eq_zero (by omega)⟩

end Engine

end ProxyPulse
