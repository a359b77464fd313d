import ProxyPulse.Proofs.Engine.Staff

namespace ProxyPulse

def Action.IsAside {σ : Type} : Action σ → Prop
  | .resume _ | .turnTo _ _ _ | .request _ | .startCoordinator _ => False
  | _ => True

def Action.IsTurn {σ : Type} : Action σ → Prop
  | .resume _ | .turnTo _ _ _ => True
  | _ => False

def Action.Instructs {σ : Type} : Action σ → Prop
  | .send _ _ | .sendConfig _ _ | .closeUpdates _ | .dropHandle _ | .shutdown => True
  | _ => False

section

variable {K : Job → Prop} {t t' : Task}

theorem Told.id (h : Told K t t') : t'.id = t.id := by
  cases h <;> rfl

theorem Told.queries (h : Told K t t') : t'.job.queries = t.job.queries := by
  cases h with
  | abort isAborted => rfl
  | report inbox hj | coordinate c hj => rw [hj]; rfl

theorem Told.choices (h : Told K t t') : t'.job.choices = t.job.choices := by
  cases h with
  | abort isAborted => rfl
  | report inbox hj | coordinate c hj => rw [hj]; rfl

theorem Told.isCoordinating (h : Told K t t') :
    t'.job.isCoordinating = t.job.isCoordinating := by
  cases h with
  | abort isAborted => rfl
  | report inbox hj | coordinate c hj => rw [hj]; rfl

theorem Told.job (h : Told K t t') (hp : t.job.plan? = none)
    (hc : t.job.isCoordinating = false) : t'.job = t.job := by
  cases h with
  | abort isAborted => rfl
  | report inbox hj => rw [hj] at hp; cases hp
  | coordinate c hj => rw [hj] at hc; cases hc

def Task.instruct (change : Coordinator → Coordinator) (t : Task) : Task :=
  match t.job with
  | .coordinating c => { t with job := .coordinating (change c) }
  | _ => t

theorem Task.instruct_told (hK : ∀ c, K (.coordinating c)) (change : Coordinator → Coordinator)
    (t : Task) : Told K t (t.instruct change) := by
  unfold Task.instruct
  split
  · next c hj => exact .coordinate _ hj (hK _)
  · exact .refl K t

theorem Task.instruct_id (t : Task) : t.instruct (fun c => c) = t := by
  obtain ⟨id, job, isAborted⟩ := t
  cases job <;> rfl

theorem map_read {α : Type} {f : Task → Task} {g : Task → List α} (hf : ∀ t, Told K t (f t))
    (hg : ∀ t t', Told K t t' → g t' = g t) (tasks : List Task) :
    (tasks.map f).flatMap g = tasks.flatMap g := by
  rw [List.flatMap_map]
  exact List.flatMap_congr fun t _ => hg t _ (hf t)

end

theorem Job.IsErrand.ordinary {job : Job} (h : job.IsErrand) :
    job.queries = [] ∧ job.isCoordinating = false := by
  cases h with
  | aid h => cases h <;> exact ⟨rfl, rfl⟩
  | start r => exact ⟨rfl, rfl⟩

inductive Job.IsNew : Job → Prop
  | errand {job : Job} : job.IsErrand → IsNew job
  | coordinating (c : Coordinator) : IsNew (.coordinating c)

theorem Job.IsNew.queries {job : Job} (h : job.IsNew) : job.queries = [] := by
  cases h with
  | errand h => exact h.ordinary.1
  | coordinating c => rfl

theorem Job.coordinator_of {job : Job} (h : job.isCoordinating = true) :
    ∃ c, job = .coordinating c := by
  cases job with
  | coordinating c => exact ⟨c, rfl⟩
  | _ => cases h

theorem Job.IsAid.choices {job : Job} (h : job.IsAid) : job.choices = [] := by
  cases h <;> rfl

namespace Engine

variable {σ : Type} {K : Job → Prop} {e e' : Engine σ} {t : Task} {aside : List Nat}

structure Numbered (aside : List Nat) (e : Engine σ) : Prop where
  distinct : (aside ++ e.tasks.map Task.id).Nodup
  given : ∀ id ∈ aside ++ e.tasks.map Task.id, id < e.nextTask

theorem map_id_tell {f : Task → Task} (hf : ∀ t, Told K t (f t)) (tasks : List Task) :
    (tasks.map f).map Task.id = tasks.map Task.id := by
  rw [List.map_map]
  exact List.map_congr_left fun t _ => (hf t).id

theorem Turnover.numbered (h : Turnover K e e') (hn : Numbered aside e) : Numbered aside e' := by
  cases h with
  | same ht hi =>
    refine ⟨ht ▸ hn.distinct, fun id hid => ?_⟩
    rw [ht] at hid
    exact hi ▸ hn.given id hid
  | @spawn job hj =>
    have hids : aside ++ (e.spawn job).tasks.map Task.id =
        aside ++ e.tasks.map Task.id ++ [e.nextTask] := by
      simp [Engine.spawn]
    constructor
    · rw [hids]
      refine List.nodup_append.mpr ⟨hn.distinct, List.nodup_singleton _, fun id hid x hx => ?_⟩
      rw [List.mem_singleton.mp hx]
      exact Nat.ne_of_lt (hn.given id hid)
    · intro id hid
      rw [hids] at hid
      show id < e.nextTask + 1
      rcases List.mem_append.mp hid with hid | hid
      · exact Nat.lt_succ_of_lt (hn.given id hid)
      · rw [List.mem_singleton.mp hid]
        exact Nat.lt_succ_self _
  | @tell f hf =>
    constructor
    · show (aside ++ (e.tasks.map f).map Task.id).Nodup
      rw [map_id_tell hf]
      exact hn.distinct
    · show ∀ id ∈ aside ++ (e.tasks.map f).map Task.id, id < e.nextTask
      rw [map_id_tell hf]
      exact hn.given

theorem Staffs.numbered (h : Staffs K e e') (hn : Numbered aside e) : Numbered aside e' := by
  induction h with
  | refl => exact hn
  | tail _ ht ih => exact ht.numbered ih

theorem Staffs.nextTask_le (h : Staffs K e e') : e.nextTask ≤ e'.nextTask := by
  induction h with
  | refl => exact Nat.le_refl _
  | tail _ ht ih =>
    apply Nat.le_trans ih
    cases ht with
    | same ht hn => exact Nat.le_of_eq hn.symm
    | spawn hj => exact Nat.le_succ _
    | tell ht => exact Nat.le_refl _

theorem Staffs.read {α : Type} {f : Task → List α} (h : Staffs K e e')
    (hf : ∀ t t', Told K t t' → f t' = f t) (hK : ∀ t : Task, K t.job → f t = []) :
    e'.tasks.flatMap f = e.tasks.flatMap f := by
  induction h with
  | refl => rfl
  | tail _ ht ih =>
    rw [← ih]
    cases ht with
    | same ht hn => rw [ht]
    | spawn hj => simp [spawn, hK ⟨_, _, false⟩ hj]
    | tell ht => exact map_read ht hf _

theorem Staffs.all {Q : Task → Prop} (h : Staffs K e e')
    (htold : ∀ t t', Told K t t' → Q t → Q t')
    (hnew : ∀ id job, e.nextTask ≤ id → K job → Q { id, job }) (hQ : ∀ t ∈ e.tasks, Q t) :
    ∀ t ∈ e'.tasks, Q t := by
  induction h with
  | refl => exact hQ
  | tail hs ht ih =>
    have hle := Staffs.nextTask_le hs
    cases ht with
    | same ht _ => exact ht ▸ ih
    | spawn hj =>
      intro t ht
      rcases List.mem_append.mp ht with ht | ht
      · exact ih t ht
      · exact List.mem_singleton.mp ht ▸ hnew _ _ hle hj
    | tell hf =>
      intro t ht
      obtain ⟨u, hu, rfl⟩ := List.mem_map.mp ht
      exact htold u _ (hf u) (ih u hu)

theorem Staffs.leaves (h : Staffs K e e') (ht : t ∈ e.tasks) (hp : t.job.plan? = none)
    (hc : t.job.isCoordinating = false) : ∃ u ∈ e'.tasks, u.id = t.id ∧ u.job = t.job := by
  induction h with
  | refl => exact ⟨t, ht, rfl, rfl⟩
  | tail _ hturnover ih =>
    obtain ⟨u, hu, hid, hj⟩ := ih
    cases hturnover with
    | same htasks _ => exact ⟨u, htasks ▸ hu, hid, hj⟩
    | spawn _ => exact ⟨u, List.mem_append_left _ hu, hid, hj⟩
    | @tell f hf =>
      refine ⟨f u, List.mem_map_of_mem hu, (hf u).id.trans hid, ?_⟩
      rw [← hj]
      exact (hf u).job (hj ▸ hp) (hj ▸ hc)

theorem Numbered.mem_eq (h : Numbered [] e) {u : Task} (ht : t ∈ e.tasks) (hu : u ∈ e.tasks)
    (hid : u.id = t.id) : u = t := by
  have hd : (e.tasks.map Task.id).Nodup := h.distinct
  exact List.inj_on_of_nodup_map hd hu ht hid

theorem Numbered.gone {id : Nat} (h : Numbered [id] e) : ∀ u ∈ e.tasks, u.id ≠ id := by
  intro u hu hid
  exact (List.nodup_cons.mp h.distinct).1 (hid ▸ List.mem_map_of_mem hu)

theorem Numbered.split (h : Numbered [] e) (ht : t ∈ e.tasks) :
    ∃ before after, e.tasks = before ++ t :: after ∧ (e.without t).tasks = before ++ after := by
  obtain ⟨before, after, hl⟩ := List.append_of_mem ht
  have hd : (e.tasks.map Task.id).Nodup := h.distinct
  rw [hl, List.map_append, List.map_cons] at hd
  have hnot : t.id ∉ before.map Task.id ++ after.map Task.id :=
    (List.nodup_cons.mp (List.perm_middle.nodup_iff.mp hd)).1
  have hkeep : ∀ x ∈ before ++ after, (x.id != t.id) = true := by
    intro x hx
    have hm : x.id ∈ before.map Task.id ++ after.map Task.id := by
      rw [← List.map_append]
      exact List.mem_map_of_mem hx
    simpa using fun hid : x.id = t.id => hnot (hid ▸ hm)
  refine ⟨before, after, hl, ?_⟩
  show e.tasks.filter (·.id != t.id) = before ++ after
  rw [hl, List.filter_append, List.filter_cons_of_neg (by simp), ← List.filter_append]
  exact List.filter_eq_self.mpr hkeep

theorem Numbered.without_perm (h : Numbered [] e) (ht : t ∈ e.tasks) :
    e.tasks.Perm (t :: (e.without t).tasks) := by
  obtain ⟨before, after, hl, hw⟩ := h.split ht
  rw [hl, hw]
  exact List.perm_middle

theorem Numbered.without (h : Numbered [] e) (ht : t ∈ e.tasks) : Numbered [t.id] (e.without t) := by
  have hp := (h.without_perm ht).map Task.id
  exact ⟨hp.nodup_iff.mp h.distinct, fun id hid => h.given id (hp.mem_iff.mpr hid)⟩

theorem Numbered.park (h : Numbered [t.id] e) (job : Option Job) : Numbered [] (e.park t job) := by
  cases job with
  | none =>
    exact ⟨(List.nodup_cons.mp h.distinct).2, fun id hid => h.given id (List.mem_cons_of_mem _ hid)⟩
  | some job =>
    have hp : ((e.park t (some job)).tasks.map Task.id).Perm ([t.id] ++ e.tasks.map Task.id) := by
      show ((e.tasks ++ [({ id := t.id, job } : Task)]).map Task.id).Perm _
      rw [List.map_append]
      exact List.perm_append_comm
    exact ⟨hp.nodup_iff.mpr h.distinct, fun id hid => h.given id (hp.mem_iff.mp hid)⟩

theorem mem_park (e : Engine σ) (t : Task) (job : Job) :
    ({ id := t.id, job } : Task) ∈ (e.park t (some job)).tasks :=
  List.mem_append_right _ (List.mem_singleton_self _)

theorem park_tasks (e : Engine σ) (t : Task) (job : Option Job) :
    (e.park t job).tasks = e.tasks ++ job.toList.map ({ id := t.id, job := · }) := by
  cases job with
  | none => exact (List.append_nil _).symm
  | some job => rfl

theorem park_read {α : Type} (f : Task → List α) (e : Engine σ) (t : Task) (job : Option Job) :
    (e.park t job).tasks.flatMap f =
      e.tasks.flatMap f ++ job.elim [] fun job => f { id := t.id, job } := by
  cases job with
  | none => simp [park]
  | some job => simp [park]

def told (e : Engine σ) (a : Action σ) (id : Nat) (c : Coordinator) : Coordinator :=
  match a with
  | .send handle intent =>
    if id = handle ∧ (e.coordinator? handle).isSome then { c with intents := c.intents ++ [intent] }
    else c
  | .sendConfig handle next =>
    if id = handle ∧ (e.coordinator? handle).any Coordinator.takesUpdates then
      { c with updates := c.updates ++ [next] }
    else c
  | .closeUpdates handle => if id = handle then { c with takesUpdates := false } else c
  | .dropHandle handle => if id = handle then { c with isHeld := false } else c
  | .shutdown => { c with isStopped := true }
  | _ => c

def instruct (e : Engine σ) (change : Nat → Coordinator → Coordinator) : Engine σ :=
  { e with tasks := e.tasks.map fun t => t.instruct (change t.id) }

theorem changeCoordinator_eq (e : Engine σ) (handle : Nat) (change : Coordinator → Coordinator) :
    e.changeCoordinator handle change =
      e.instruct fun id c => if id = handle then change c else c := by
  unfold changeCoordinator instruct
  congr 2
  funext t
  obtain ⟨id, job, isAborted⟩ := t
  cases job with
  | coordinating c =>
    dsimp only [Task.instruct]
    split <;> rfl
  | _ => rfl

theorem instruct_id (e : Engine σ) : (e.instruct fun _ c => c) = e := by
  have ht : (fun t : Task => t.instruct fun c => c) = id := funext Task.instruct_id
  rw [instruct, ht, List.map_id]

theorem perform_instructs (C : Core σ) (e : Engine σ) {a : Action σ} (h : a.Instructs) :
    e.perform C a = e.instruct (e.told a) := by
  cases a with
  | send handle intent =>
    unfold perform send told
    dsimp only
    split
    · next hs => simp only [changeCoordinator_eq, hs, and_true]
    · next hs => simp only [hs, and_false, if_false, instruct_id, Bool.false_eq_true]
  | sendConfig handle next =>
    unfold perform sendConfig told
    dsimp only
    split
    · next hs => simp only [changeCoordinator_eq, hs, and_true]
    · next hs => simp only [hs, and_false, if_false, instruct_id, Bool.false_eq_true]
  | closeUpdates handle => exact changeCoordinator_eq e handle _
  | dropHandle handle => exact changeCoordinator_eq e handle _
  | shutdown => rfl
  | _ => cases h

theorem instruct_tends (hK : ∀ c, K (.coordinating c)) (e : Engine σ)
    (change : Nat → Coordinator → Coordinator) {hand : List Query} :
    Tends K e hand (e.instruct change) hand :=
  tell_tends e fun t => t.instruct_told hK (change t.id)

theorem aside_tends (C : Core σ) (e : Engine σ) {a : Action σ} (h : a.IsAside)
    (hi : ¬ a.Instructs)
    (hK : ∀ plan : SessionPlan, e.nextSession ≤ plan.session → K (.opening plan))
    {hand : List Query} : Tends K e hand (e.perform C a) hand := by
  cases a with
  | resume t | turnTo t c branch | request r | startCoordinator takesUpdates => cases h
  | takeResorts | serveResorts | wait time | changeCore core | sortByDelay on | configure next =>
    exact tends_same rfl rfl rfl
  | test index => exact requestTest_tends e index hK
  | backgroundTest index => exact requestBackgroundTest_tends e index hK
  | stop index => exact stopSession_tends e index _
  | stopAll => exact stopSessions_tends _ _ e
  | sweepSessions => exact stopSessions_tends _ _ e
  | send handle intent | sendConfig handle next | closeUpdates handle | dropHandle handle
  | shutdown => exact absurd trivial hi
  | remember proxy delay | lookUp proxy | evict => exact tends_same rfl rfl rfl

structure Turns (e : Engine σ) (t : Task) (e' : Engine σ) (job : Option Job) : Prop where
  mem : t ∈ e.tasks
  tends : Tends Job.IsErrand (e.without t) t.job.queries e' (job.elim [] Job.queries)

theorem resume_turns (C : Core σ) (ht : t ∈ e.tasks) (hp : t.Proper) :
    ∃ e' job, resume C e t = e'.park t job ∧ Turns e t e' job := by
  unfold resume
  dsimp only
  split
  · next ha =>
    have hd : Tends Job.IsErrand (e.without t) t.job.queries _ [] :=
      tends_of_append (abandonJob_tends _ (hp ha))
    exact ⟨_, none, rfl, ht, hd⟩
  · refine ⟨_, _, rfl, ht, ?_⟩
    cases hc : t.job.isCoordinating with
    | false =>
      exact tends_of_append (stepJob_tends C _ t.id hc fun _ hj => .aid hj.isAid)
    | true =>
      obtain ⟨c, hj⟩ := Job.coordinator_of hc
      rw [hj]
      have hs : Tends Job.IsErrand (e.without t) [] _ [] :=
        stepCoordinator_tends (e.without t) (fun plan _ => .aid (.opening plan)) .start c
      show Tends _ _ [] ((e.without t).stepCoordinator c).1
        ((((e.without t).stepCoordinator c).2.map Job.coordinating).elim [] Job.queries)
      cases ((e.without t).stepCoordinator c).2 <;> exact hs

theorem turnTo_turns (ht : t ∈ e.tasks) {c : Coordinator} (hj : t.job = .coordinating c)
    (branch : Coordinator.Branch) :
    ∃ e' job, e.turnTo t c branch = e'.park t job ∧ Turns e t e' job := by
  refine ⟨_, _, rfl, ht, ?_⟩
  rw [hj]
  have hs : Tends Job.IsErrand (e.without t) [] _ [] :=
    takeBranch_tends (e.without t) (fun plan _ => .aid (.opening plan)) .start c branch
  show Tends _ _ [] _ ((((e.without t).takeBranch c branch).2.map Job.coordinating).elim []
    Job.queries)
  cases ((e.without t).takeBranch c branch).2 <;> exact hs

theorem perform_tends (C : Core σ) (e : Engine σ) {a : Action σ} (h : ¬ a.IsTurn)
    (hK : ∀ plan : SessionPlan, e.nextSession ≤ plan.session → K (.opening plan))
    (hR : ∀ r, K (.start r)) (hC : ∀ c, K (.coordinating c)) :
    Tends K e [] (e.perform C a) [] := by
  by_cases hside : a.IsAside
  · by_cases hi : a.Instructs
    · rw [perform_instructs C e hi]
      exact instruct_tends hC e _
    · exact aside_tends C e hside hi hK
  · cases a with
    | resume t | turnTo t c branch => exact absurd trivial h
    | request r => exact spawn_tends e (hR r)
    | startCoordinator takesUpdates => exact spawn_tends e (hC _)
    | _ => exact absurd trivial hside

theorem perform_new (C : Core σ) (e : Engine σ) {a : Action σ} (h : ¬ a.IsTurn) :
    Tends Job.IsNew e [] (e.perform C a) [] :=
  perform_tends C e h (fun plan _ => .errand (.aid (.opening plan)))
    (fun r => .errand (.start r)) .coordinating

theorem perform_turns (C : Core σ) (hc : Coherent e) {a : Action σ} (ha : e.Allows a) :
    Tends Job.IsNew e [] (e.perform C a) [] ∨
      ∃ t e' job, e.perform C a = e'.park t job ∧ Turns e t e' job := by
  by_cases ht : a.IsTurn
  · cases a with
    | resume t => exact .inr ⟨t, resume_turns C ha (hc.proper t ha)⟩
    | turnTo t c branch => exact .inr ⟨t, turnTo_turns ha.1 ha.2.1 branch⟩
    | _ => cases ht
  · exact .inl (perform_new C e ht)

theorem Turns.numbered {job : Option Job} (h : Turns e t e' job) (hn : Numbered [] e) :
    Numbered [] (e'.park t job) :=
  (h.tends.staffs.numbered (hn.without h.mem)).park job

theorem Numbered.perform (h : Numbered [] e) (C : Core σ) (hc : Coherent e) {a : Action σ}
    (ha : e.Allows a) : Numbered [] (e.perform C a) := by
  rcases perform_turns C hc ha with hd | ⟨t, e', job, he, ht⟩
  · exact hd.staffs.numbered h
  · rw [he]
    exact ht.numbered h

theorem perform_nextTask (C : Core σ) (hc : Coherent e) {a : Action σ} (ha : e.Allows a) :
    e.nextTask ≤ (e.perform C a).nextTask := by
  rcases perform_turns C hc ha with hd | ⟨t, e', job, he, ht⟩
  · exact hd.staffs.nextTask_le
  · have hpark : (e'.park t job).nextTask = e'.nextTask := by
      cases job <;> rfl
    rw [he, hpark]
    exact ht.tends.staffs.nextTask_le (e := e.without t)

theorem stepJob_staffs (C : Core σ) (e : Engine σ) (id : Nat) (job : Job) :
    Staffs Job.IsErrand e (stepJob C e id job).1 := by
  cases hc : job.isCoordinating with
  | false =>
    have ht : Tends Job.IsErrand e (job.queries ++ []) _ _ :=
      stepJob_tends C e id hc fun _ hj => .aid hj.isAid
    exact ht.staffs
  | true =>
    obtain ⟨c, rfl⟩ := Job.coordinator_of hc
    have ht : Tends Job.IsErrand e [] _ [] :=
      stepCoordinator_tends e (fun plan _ => .aid (.opening plan)) .start c
    exact ht.staffs

theorem park_all {Q : Task → Prop} (h : ∀ u ∈ e.tasks, Q u) {job : Option Job}
    (hj : ∀ next ∈ job, Q { id := t.id, job := next }) : ∀ u ∈ (e.park t job).tasks, Q u := by
  cases job with
  | none => exact h
  | some next =>
    intro u hu
    rcases List.mem_append.mp hu with hu | hu
    · exact h u hu
    · exact List.mem_singleton.mp hu ▸ hj next rfl

theorem perform_all (C : Core σ) {a : Action σ} (ha : e.Allows a)
    {Q : Task → Prop} (htold : ∀ t t', Told Job.IsNew t t' → Q t → Q t')
    (hnew : ∀ id job, e.nextTask ≤ id → job.IsNew → Q { id, job })
    (hstep : ∀ t ∈ e.tasks, Q t → ∀ next ∈ (stepJob C (e.without t) t.id t.job).2,
      Q { id := t.id, job := next })
    (hQ : ∀ t ∈ e.tasks, Q t) : ∀ t ∈ (e.perform C a).tasks, Q t := by
  have hleft (t : Task) : ∀ u ∈ (e.without t).tasks, Q u :=
    fun u hu => hQ u (List.mem_filter.mp hu).1
  have hturn {t : Task} {e' : Engine σ} (hs : Staffs Job.IsErrand (e.without t) e') :
      ∀ u ∈ e'.tasks, Q u :=
    hs.all (fun t t' ht => htold t t' (ht.mono fun _ => .errand))
      (fun id job hle hj => hnew id job hle (.errand hj)) (hleft t)
  by_cases ht : a.IsTurn
  · cases a with
    | resume t =>
      show ∀ u ∈ (resume C e t).tasks, Q u
      unfold resume
      dsimp only
      split
      · rw [(abandonJob_quiet _ _).tasks]
        exact hleft t
      · exact park_all (hturn (stepJob_staffs C _ t.id t.job)) (hstep t ha (hQ t ha))
    | turnTo t c branch =>
      have hs : Tends Job.IsErrand (e.without t) [] _ [] :=
        takeBranch_tends (e.without t) (fun plan _ => .aid (.opening plan)) .start c branch
      refine park_all (hturn hs.staffs) fun next hn => ?_
      obtain ⟨c', _, rfl⟩ := Option.map_eq_some_iff.mp hn
      have htold' := htold t _ (.coordinate c' ha.2.1 (.coordinating c')) (hQ t ha.1)
      exact htold _ _ (.abort false) htold'
    | _ => cases ht
  · exact (perform_new C e ht).staffs.all htold hnew hQ

theorem perform_leaves (C : Core σ) (hc : Coherent e) (hn : Numbered [] e) {a : Action σ}
    (ha : e.Allows a) (ht : t ∈ e.tasks) (hp : t.job.plan? = none)
    (hj : t.job.isCoordinating = false) (hother : ∀ u, a = .resume u → u.id ≠ t.id) :
    ∃ u ∈ (e.perform C a).tasks, u.id = t.id ∧ u.job = t.job := by
  have hturn {u : Task} {e' : Engine σ} {job : Option Job} (h : Turns e u e' job)
      (hne : u.id ≠ t.id) : ∃ v ∈ (e'.park u job).tasks, v.id = t.id ∧ v.job = t.job := by
    have hleft : t ∈ (e.without u).tasks :=
      List.mem_filter.mpr ⟨ht, bne_iff_ne.mpr (Ne.symm hne)⟩
    obtain ⟨v, hv, hkept⟩ := h.tends.staffs.leaves hleft hp hj
    exact ⟨v, park_tasks e' u job ▸ List.mem_append_left _ hv, hkept⟩
  by_cases hside : a.IsTurn
  · cases a with
    | resume u =>
      obtain ⟨e', job, he, h⟩ := resume_turns C ha (hc.proper u ha)
      show ∃ v ∈ (resume C e u).tasks, _
      rw [he]
      exact hturn h (hother u rfl)
    | turnTo u c branch =>
      obtain ⟨e', job, he, h⟩ := turnTo_turns ha.1 ha.2.1 branch
      show ∃ v ∈ (e.turnTo u c branch).tasks, _
      rw [he]
      refine hturn h fun hid => ?_
      rw [← hn.mem_eq ht ha.1 hid, ha.2.1] at hj
      cases hj
    | _ => cases hside
  · exact (perform_new C e hside).staffs.leaves ht hp hj

section

variable {C : Core σ} {n : Nat} {F : Job → Prop}
  (hF : ∀ job, F job → job.plan? = none ∧ job.isCoordinating = false)
  (hstep : ∀ (e : Engine σ) (job next : Job), F job → next ∈ (stepJob C e n job).2 → F next)

include hF hstep

theorem perform_within {a : Action σ} (ha : e.Allows a) (hid : n < e.nextTask)
    (h : ∀ t ∈ e.tasks, t.id = n → F t.job) :
    ∀ t ∈ (e.perform C a).tasks, t.id = n → F t.job := by
  apply perform_all C ha (Q := fun t => t.id = n → F t.job)
  · intro t t' ht hw hid'
    have hjob := hw (ht.id.symm.trans hid')
    rw [ht.job (hF _ hjob).1 (hF _ hjob).2]
    exact hjob
  · intro id job hle _ hn
    have hn : id = n := hn
    omega
  · intro t _ hw next hnext hid'
    have hid' : t.id = n := hid'
    rw [hid'] at hnext
    exact hstep _ _ _ (hw hid') hnext
  · exact h

theorem Run.within {calls : List (TestCall σ)} (h : Run C e calls e') (hc : Coherent e)
    (hid : n < e.nextTask) (hw : ∀ t ∈ e.tasks, t.id = n → F t.job) :
    ∀ t ∈ e'.tasks, t.id = n → F t.job := by
  refine (h.keeps (Q := fun e => n < e.nextTask ∧ ∀ t ∈ e.tasks, t.id = n → F t.job) ?_ hc
    ⟨hid, hw⟩).2
  rintro e a hc ha ⟨hid, hw⟩
  exact ⟨Nat.lt_of_lt_of_le hid (perform_nextTask C hc ha),
    perform_within hF hstep ha hid hw⟩

end

theorem new_numbered (core : σ) (config : Config) (overrides : Overrides) :
    Numbered [] (Engine.new core config overrides) :=
  ⟨List.nodup_nil, nofun⟩

theorem Run.numbered {C : Core σ} {calls : List (TestCall σ)} (h : Run C e calls e')
    (hc : Coherent e) (hn : Numbered [] e) : Numbered [] e' :=
  h.keeps (fun _ _ hc ha hn => hn.perform C hc ha) hc hn

theorem Reachable.numbered {C : Core σ} (h : Reachable C e) : Numbered [] e := by
  obtain ⟨core, config, overrides, calls, hr⟩ := h
  exact hr.numbered (new_coherent core config overrides) (new_numbered core config overrides)

end Engine

end ProxyPulse
