import ProxyPulse.Proofs.Engine.Roster
import ProxyPulse.Proofs.Proxy

namespace ProxyPulse

def Action.Sets {σ : Type} : Action σ → Prop
  | .sortByDelay _ | .configure _ => True
  | _ => False

def Task.coordinator (t : Task) : List (Nat × Coordinator) :=
  match t.job with
  | .coordinating c => [(t.id, c)]
  | _ => []

theorem Task.coordinator_eq_nil {t : Task} (h : t.job.isCoordinating = false) :
    t.coordinator = [] := by
  unfold coordinator
  split
  · next c hj =>
    rw [hj] at h
    cases h
  · rfl

def Coordinator.Ticks (c : Coordinator) : Prop :=
  ∀ k ∈ c.ticker, 0 < k.period

def Coordinator.backlog (c : Coordinator) (now : Nat) : Nat :=
  2 * c.updates.length + c.intents.length +
    match c.ticker with
    | none => 2
    | some k => if k.due ≤ now then 1 else 0

theorem Told.coordinator {K : Job → Prop} {t t' : Task} (h : Told K t t')
    (hK : ∀ job, K job → job.isCoordinating = false) : t'.coordinator = t.coordinator := by
  cases h with
  | abort isAborted => rfl
  | report inbox hj => rw [Task.coordinator, Task.coordinator, hj]
  | coordinate c hj hc => cases hK _ hc

namespace Engine

variable {σ : Type} {C : Core σ} {K : Job → Prop} {P : Mark → Prop} {e e' : Engine σ} {t : Task}

def coordinators (e : Engine σ) : List (Nat × Coordinator) :=
  e.tasks.flatMap Task.coordinator

theorem mem_coordinators {id : Nat} {c : Coordinator} :
    (id, c) ∈ e.coordinators ↔ ∃ t ∈ e.tasks, t.id = id ∧ t.job = .coordinating c := by
  simp only [coordinators, List.mem_flatMap]
  refine exists_congr fun t => and_congr_right fun _ => ?_
  unfold Task.coordinator
  split
  · next c' hj => simp [hj, eq_comm]
  · next hj =>
    simp only [List.not_mem_nil, false_iff]
    exact fun h => hj c h.2

theorem Staffs.coordinators (h : Staffs K e e') (hK : ∀ job, K job → job.isCoordinating = false) :
    e'.coordinators = e.coordinators :=
  h.read (fun _ _ ht => ht.coordinator hK) fun t ht => Task.coordinator_eq_nil (hK t.job ht)

theorem instruct_coordinators (e : Engine σ) (change : Nat → Coordinator → Coordinator) :
    (e.instruct change).coordinators = e.coordinators.map fun p => (p.1, change p.1 p.2) := by
  rw [coordinators, coordinators, instruct, List.flatMap_map, List.map_flatMap]
  refine List.flatMap_congr fun t _ => ?_
  obtain ⟨id, job, isAborted⟩ := t
  cases job <;> rfl

theorem startCoordinator_coordinators (e : Engine σ) (takesUpdates : Bool) :
    (e.startCoordinator takesUpdates).1.coordinators =
      e.coordinators ++ [(e.nextTask, ({ takesUpdates := takesUpdates } : Coordinator))] :=
  List.flatMap_append

theorem park_coordinators (e : Engine σ) (t : Task) (c : Option Coordinator) :
    (e.park t (c.map .coordinating)).coordinators =
      e.coordinators ++ c.toList.map fun c => (t.id, c) := by
  have hp := park_read Task.coordinator e t (c.map .coordinating)
  cases c <;> exact hp

theorem Numbered.coordinators_without (h : Numbered [] e) (ht : t ∈ e.tasks)
    (hj : t.job.isCoordinating = false) : (e.without t).coordinators = e.coordinators := by
  obtain ⟨before, after, hl, hw⟩ := h.split ht
  rw [coordinators, coordinators, hw, hl, List.flatMap_append, List.flatMap_append,
    List.flatMap_cons, Task.coordinator_eq_nil hj, List.nil_append]

theorem without_coordinators_subset (e : Engine σ) (t : Task) :
    (e.without t).coordinators ⊆ e.coordinators := by
  intro p hp
  obtain ⟨u, hu, hp⟩ := List.mem_flatMap.mp hp
  exact List.mem_flatMap.mpr ⟨u, (List.mem_filter.mp hu).1, hp⟩

theorem Numbered.coordinator?_iff (h : Numbered [] e) {id : Nat} {c : Coordinator} :
    e.coordinator? id = some c ↔ (id, c) ∈ e.coordinators := by
  rw [mem_coordinators]
  unfold coordinator?
  constructor
  · intro hc
    obtain ⟨t, ht, hj⟩ := Option.bind_eq_some_iff.mp hc
    refine ⟨t, List.mem_of_find?_eq_some ht, by simpa using List.find?_some ht, ?_⟩
    split at hj
    · next c' hc' => rw [hc', Option.some.inj hj]
    · cases hj
  · rintro ⟨t, ht, rfl, hj⟩
    have hf : e.tasks.find? (·.id == t.id) = some t :=
      find?_eq_some_of_unique ht (by simp) fun u hu hid => h.mem_eq ht hu (by simpa using hid)
    rw [hf, Option.bind_some, hj]

theorem applyConfig_config (e : Engine σ) (next : Config) :
    (e.applyConfig next).config = e.overrides.apply next :=
  e.board.configure_config (e.overrides.apply next)

theorem setSortByDelay_config (e : Engine σ) (on : Bool) :
    (e.setSortByDelay on).config =
      { e.config with view := { e.config.view with sortByDelay := on } } :=
  e.board.setSortByDelay_config on

theorem Moves.settings (h : Moves P e e') (hP : ¬ P .settings) :
    e'.config = e.config ∧ e'.overrides = e.overrides := by
  induction h with
  | refl => exact ⟨rfl, rfl⟩
  | @tail e₁ e₂ _ hm ih =>
    obtain ⟨m, hm, hs⟩ := hm
    have hone : e₂.config = e₁.config ∧ e₂.overrides = e₁.overrides := by
      cases hs with
      | quiet hq => exact ⟨congrArg Board.config hq.board, hq.overrides⟩
      | write w hw => exact ⟨w.config_apply e₁.registry, rfl⟩
      | settings => exact absurd (hm _ rfl) hP
      | resort now => exact ⟨e₁.board.serveResorting_config now, rfl⟩
      | @«open» _ index g hg hu =>
        exact ⟨Registry.Write.config_apply e₁.registry (.setTesting index g.name true), rfl⟩
      | @close _ index s outcome hs hu =>
        exact ⟨Registry.Write.config_apply e₁.registry (.setTesting index s.group false), rfl⟩
      | swap names hs hn => exact ⟨e₁.registry.replace_config names, rfl⟩
      | retask | park | count | yield | clock => exact ⟨rfl, rfl⟩
    exact ⟨hone.1.trans ih.1, hone.2.trans ih.2⟩

theorem stopAll_settings (e : Engine σ) :
    e.stopAll.1.config = e.config ∧ e.stopAll.1.overrides = e.overrides :=
  (stopSessions_moves (P := (· = .close)) rfl _ _ e).settings Mark.noConfusion

theorem sweep_settings (e : Engine σ) :
    e.sweep.config = e.config ∧ e.sweep.overrides = e.overrides :=
  (sweep_moves (P := (· = .close)) e rfl).settings Mark.noConfusion

theorem dispatch_settings (e : Engine σ) {intent : Intent}
    (h : ∀ on, intent ≠ .sortByDelay on) :
    (e.dispatch intent).config = e.config ∧ (e.dispatch intent).overrides = e.overrides := by
  cases intent with
  | sortByDelay on => exact absurd rfl (h on)
  | test index =>
    exact (requestTest_moves (P := (· = .ask)) rfl e index).settings Mark.noConfusion
  | stop index =>
    exact (stopSession_moves (P := (· = .close)) rfl e index _).settings Mark.noConfusion
  | stopAll => exact stopAll_settings e
  | reloadAll | reload | select | setMode | refresh => exact ⟨rfl, rfl⟩

def branchToggles (c : Coordinator) : Coordinator.Branch → List Bool
  | .intent =>
    match c.intents with
    | .sortByDelay on :: _ => [on]
    | _ => []
  | _ => []

def toggles (e : Engine σ) : Action σ → List Bool
  | .sortByDelay on => [on]
  | .resume t =>
    match t.job with
    | .coordinating c => if t.isAborted then [] else (c.branch? e.now).elim [] (branchToggles c)
    | _ => []
  | .turnTo _ c branch => branchToggles c branch
  | _ => []

def branchUpdates (c : Coordinator) : Coordinator.Branch → List Config
  | .update => c.updates.head?.toList
  | _ => []

def taken (e : Engine σ) : Action σ → List Config
  | .configure next => [next]
  | .resume t =>
    match t.job with
    | .coordinating c => if t.isAborted then [] else (c.branch? e.now).elim [] (branchUpdates c)
    | _ => []
  | .turnTo _ c branch => branchUpdates c branch
  | _ => []

inductive Retunes (e : Engine σ) (c : Coordinator) (x : Engine σ × Option Coordinator) :
    List Bool → List Config → Prop
  | keep : x.1.config = e.config → x.1.overrides = e.overrides →
    (∀ c' ∈ x.2, c'.updates = c.updates ∧ c'.takesUpdates = c.takesUpdates) → Retunes e c x [] []
  | toggle (on : Bool) :
    x.1.config = { e.config with view := { e.config.view with sortByDelay := on } } →
    x.1.overrides = { e.overrides with sortByDelay := some on } →
    (∀ c' ∈ x.2, c'.updates = c.updates ∧ c'.takesUpdates = c.takesUpdates) →
    Retunes e c x [on] []
  | take {next : Config} {rest : List Config} : c.updates = next :: rest →
    x.1.config = e.overrides.apply next → x.1.overrides = e.overrides →
    (∀ c' ∈ x.2, c'.updates = rest ∧ c'.takesUpdates = c.takesUpdates) →
    Retunes e c x [] [next]

theorem takeBranch_retunes (e : Engine σ) (c : Coordinator) (branch : Coordinator.Branch) :
    Retunes e c (e.takeBranch c branch) (branchToggles c branch) (branchUpdates c branch) := by
  cases branch with
  | intent =>
    unfold takeBranch branchToggles
    dsimp only
    cases hi : c.intents with
    | nil =>
      obtain ⟨hc, ho⟩ := stopAll_settings e
      exact .keep hc ho nofun
    | cons intent rest =>
      by_cases hs : ∃ on, intent = .sortByDelay on
      · obtain ⟨on, rfl⟩ := hs
        exact .toggle on (setSortByDelay_config e on) rfl (by rintro _ ⟨⟩; exact ⟨rfl, rfl⟩)
      · obtain ⟨hc, ho⟩ := dispatch_settings e fun on he => hs ⟨on, he⟩
        have hnil : (match intent :: rest with
            | .sortByDelay on :: _ => [on]
            | _ => []) = ([] : List Bool) := by
          cases intent with
          | sortByDelay on => exact absurd ⟨on, rfl⟩ hs
          | _ => rfl
        rw [hnil]
        exact .keep hc ho (by rintro _ ⟨⟩; exact ⟨rfl, rfl⟩)
  | tick =>
    obtain ⟨hc, ho⟩ := sweep_settings e
    exact .keep hc ho (by rintro _ ⟨⟩; exact ⟨rfl, rfl⟩)
  | update =>
    unfold takeBranch branchToggles branchUpdates
    dsimp only
    split
    · next next rest hu =>
      rw [hu]
      exact .take hu (applyConfig_config e next) rfl (by rintro _ ⟨⟩; exact ⟨rfl, rfl⟩)
    · next hu =>
      rw [hu]
      exact .keep rfl rfl (by rintro _ ⟨⟩; exact ⟨rfl, rfl⟩)
  | stop =>
    obtain ⟨hc, ho⟩ := stopAll_settings e
    exact .keep hc ho nofun

theorem stepCoordinator_retunes (e : Engine σ) (c : Coordinator) :
    Retunes e c (e.stepCoordinator c) ((c.branch? e.now).elim [] (branchToggles c))
      ((c.branch? e.now).elim [] (branchUpdates c)) := by
  unfold stepCoordinator
  cases c.branch? e.now with
  | none => exact .keep rfl rfl (by rintro _ ⟨⟩; exact ⟨rfl, rfl⟩)
  | some branch => exact takeBranch_retunes e c branch

theorem May.of_settings {job : Job} (h : May job .settings) : job.isCoordinating = true := by
  cases h
  rfl

theorem aside_settings (C : Core σ) (e : Engine σ) {a : Action σ} (h : a.IsAside)
    (hi : ¬ a.Instructs) (hs : ¬ a.Sets) :
    (e.perform C a).config = e.config ∧ (e.perform C a).overrides = e.overrides := by
  have hask : ¬ (Mark.settings = Mark.ask) := Mark.noConfusion
  have hclose : ¬ (Mark.settings = Mark.close) := Mark.noConfusion
  cases a with
  | resume t | turnTo t c branch | request r | startCoordinator takesUpdates => cases h
  | send handle intent | sendConfig handle next | closeUpdates handle | dropHandle handle
  | shutdown => exact absurd trivial hi
  | sortByDelay on | configure next => exact absurd trivial hs
  | takeResorts => exact ⟨e.board.takeRequests_config e.now, rfl⟩
  | serveResorts => exact ⟨e.board.serveResorting_config e.now, rfl⟩
  | test index => exact (requestTest_moves (P := (· = .ask)) rfl e index).settings hask
  | backgroundTest index =>
    exact (requestBackgroundTest_moves (P := (· = .ask)) rfl e index).settings hask
  | stop index => exact (stopSession_moves (P := (· = .close)) rfl e index _).settings hclose
  | stopAll => exact stopAll_settings e
  | sweepSessions => exact (stopSessions_moves (P := (· = .close)) rfl _ _ e).settings hclose
  | wait time | changeCore core | remember proxy delay | lookUp proxy | evict => exact ⟨rfl, rfl⟩

theorem Numbered.resume_coordinators (h : Numbered [] e) (C : Core σ) (ht : t ∈ e.tasks)
    (hp : t.Proper) (hj : t.job.isCoordinating = false) :
    (resume C e t).coordinators = e.coordinators := by
  have hw := h.coordinators_without ht hj
  unfold resume
  dsimp only
  split
  · next ha =>
    obtain ⟨hd, _⟩ : Tends Job.IsAid (e.without t) (t.job.queries ++ []) _ [] :=
      abandonJob_tends _ (hp ha)
    exact (hd.coordinators fun _ hj => (Job.IsErrand.aid hj).ordinary.2).trans hw
  · have hd : Staffs Job.IsAid (e.without t) (stepJob C (e.without t) t.id t.job).1 :=
      (tends_of_append (stepJob_tends C _ t.id hj fun _ hj => hj.isAid)).staffs
    rw [coordinators, park_read, ← coordinators,
      hd.coordinators fun _ hj => (Job.IsErrand.aid hj).ordinary.2, hw]
    cases hn : (stepJob C (e.without t) t.id t.job).2 with
    | none => exact List.append_nil _
    | some next =>
      rw [Option.elim_some, Task.coordinator_eq_nil (stepJob_next C (e.without t) t.id hj hn).1,
        List.append_nil]

inductive Coordinates (e : Engine σ) (c : Coordinator) : Engine σ × Option Coordinator → Prop
  | start : c.ticker = none →
    Coordinates e c
      (e, some { c with ticker := some (e.newTicker e.config.scheduler.cleanupInterval) })
  | idle : Coordinates e c (e, some c)
  | branch {branch : Coordinator.Branch} : c.ticker.isSome → c.canTake e.now branch →
    Coordinates e c (e.takeBranch c branch)

theorem stepCoordinator_coordinates (e : Engine σ) (c : Coordinator) :
    Coordinates e c (e.stepCoordinator c) := by
  unfold stepCoordinator Coordinator.branch?
  cases hk : c.ticker with
  | none => exact .start hk
  | some k =>
    have hs : c.ticker.isSome := by rw [hk]; rfl
    simp only [Option.isNone_some, Bool.false_eq_true, if_false]
    split
    · next branch hb => exact .branch hs (List.find?_some hb)
    · have hc : ({ c with ticker := some k } : Coordinator) = c := by rw [← hk]
      rw [Option.some_or, hc]
      exact .idle

theorem Coordinates.staffs {c : Coordinator} {x : Engine σ × Option Coordinator}
    (h : Coordinates e c x) : Staffs Job.IsErrand e x.1 := by
  cases h with
  | start | idle => exact .refl
  | @branch branch =>
    obtain ⟨hs, _⟩ : Tends Job.IsErrand e [] (e.takeBranch c branch).1 [] :=
      takeBranch_tends e (fun plan _ => .aid (.opening plan)) .start c branch
    exact hs

theorem Coordinates.moves {c : Coordinator} {x : Engine σ × Option Coordinator}
    (h : Coordinates e c x) : Moves (May (.coordinating c)) e x.1 := by
  cases h with
  | start | idle => exact .refl _ e
  | branch => exact takeBranch_moves e .settings .ask .close c _

theorem Coordinates.coordinators {c : Coordinator} {x : Engine σ × Option Coordinator}
    (h : Coordinates (e.without t) c x) :
    (x.1.park t (x.2.map .coordinating)).coordinators =
      (e.without t).coordinators ++ x.2.toList.map fun c => (t.id, c) := by
  rw [park_coordinators, h.staffs.coordinators fun _ hj => hj.ordinary.2]

inductive Bears (C : Core σ) (e : Engine σ) (a : Action σ) : Prop
  | told : a.Instructs → e.perform C a = e.instruct (e.told a) → Bears C e a
  | started (takesUpdates : Bool) : a = .startCoordinator takesUpdates → Bears C e a
  | turn {t : Task} {c : Coordinator} {x : Engine σ × Option Coordinator} : t ∈ e.tasks →
    t.job = .coordinating c → Coordinates (e.without t) c x →
    Retunes (e.without t) c x (e.toggles a) (e.taken a) →
    e.perform C a = x.1.park t (x.2.map .coordinating) → Bears C e a
  | aside : (e.perform C a).coordinators = e.coordinators →
    (¬ a.Sets → (e.perform C a).config = e.config ∧ (e.perform C a).overrides = e.overrides ∧
      e.toggles a = [] ∧ e.taken a = []) →
    Bears C e a

theorem perform_bears (C : Core σ) (hc : Coherent e) (hn : Numbered [] e) {a : Action σ}
    (ha : e.Allows a) : Bears C e a := by
  by_cases hside : a.IsAside
  · by_cases hi : a.Instructs
    · exact .told hi (perform_instructs C e hi)
    · obtain ⟨hs, _⟩ : Tends Job.IsAid e [] (e.perform C a) [] :=
      aside_tends C e hside hi fun plan _ => .opening plan
      refine .aside (hs.coordinators fun _ hj => (Job.IsErrand.aid hj).ordinary.2) fun hset => ?_
      obtain ⟨hconfig, hoverrides⟩ := aside_settings C e hside hi hset
      refine ⟨hconfig, hoverrides, ?_⟩
      cases a with
      | resume t | turnTo t c branch => cases hside
      | sortByDelay on | configure next => exact absurd trivial hset
      | _ => exact ⟨rfl, rfl⟩
  · cases a with
    | resume t =>
      cases hj : t.job.isCoordinating with
      | false =>
        have hset : ¬ May t.job .settings := by
          intro hm
          rw [hm.of_settings] at hj
          cases hj
        obtain ⟨hconfig, hoverrides⟩ := (resume_moves C hc ha).settings hset
        refine .aside (hn.resume_coordinators C ha (hc.proper t ha) hj) fun _ =>
          ⟨hconfig, hoverrides, ?_⟩
        dsimp only [toggles, taken]
        split
        · next c hjob =>
          rw [hjob] at hj
          cases hj
        · exact ⟨rfl, rfl⟩
      | true =>
        obtain ⟨c, hj⟩ := Job.coordinator_of hj
        have hab : t.isAborted = false := not_aborted_of_proper (hc.proper t ha) (by rw [hj]; rfl)
        have hs := stepCoordinator_retunes (e.without t) c
        refine .turn ha hj (stepCoordinator_coordinates (e.without t) c) ?_ ?_
        · rw [toggles, taken, hj, hab]
          exact hs
        · show resume C e t = _
          rw [resume, hab, hj]
          rfl
    | turnTo t c branch =>
      exact .turn ha.1 ha.2.1 (.branch ha.2.2.1 ha.2.2.2)
        (takeBranch_retunes (e.without t) c branch) rfl
    | request r =>
      have hs : Staffs Job.IsErrand e (e.spawn (.start r)) := .single (.spawn (.start r))
      exact .aside (hs.coordinators fun _ hj => hj.ordinary.2) fun _ => ⟨rfl, rfl, rfl, rfl⟩
    | startCoordinator takesUpdates => exact .started takesUpdates rfl
    | _ => exact absurd trivial hside

theorem Bears.each {a : Action σ} (h : Bears C e a) (Q Q' : Coordinator → Prop)
    (hold : ∀ p ∈ e.coordinators, Q p.2) (hkeep : ∀ c, Q c → Q' c)
    (htold : ∀ id c, Q c → Q' (e.told a id c)) (hnew : ∀ takesUpdates, Q' { takesUpdates })
    (hturn : ∀ (t : Task) (c : Coordinator) (x : Engine σ × Option Coordinator), t ∈ e.tasks →
      Coordinates (e.without t) c x → Retunes (e.without t) c x (e.toggles a) (e.taken a) →
      e.perform C a = x.1.park t (x.2.map .coordinating) → Q c → ∀ c' ∈ x.2, Q' c') :
    ∀ p ∈ (e.perform C a).coordinators, Q' p.2 := by
  intro p hp
  cases h with
  | told hi he =>
    rw [he, instruct_coordinators] at hp
    obtain ⟨q, hq, rfl⟩ := List.mem_map.mp hp
    exact htold q.1 q.2 (hold q hq)
  | started takesUpdates he =>
    subst he
    change p ∈ (e.startCoordinator takesUpdates).1.coordinators at hp
    rw [startCoordinator_coordinators] at hp
    rcases List.mem_append.mp hp with hp | hp
    · exact hkeep p.2 (hold p hp)
    · rw [List.mem_singleton.mp hp]
      exact hnew takesUpdates
  | @turn t c x ht hj hx hs he =>
    rw [he, hx.coordinators] at hp
    rcases List.mem_append.mp hp with hp | hp
    · exact hkeep p.2 (hold p (without_coordinators_subset e t hp))
    · obtain ⟨c', hc', rfl⟩ := List.mem_map.mp hp
      have hown := hold (t.id, c) (mem_coordinators.mpr ⟨t, ht, rfl, hj⟩)
      exact hturn t c x ht hx hs he hown c' (Option.mem_toList.mp hc')
  | aside hcs _ => exact hkeep p.2 (hold p (hcs ▸ hp))

theorem newTicker_ticks (e : Engine σ) (span : Nat) : 0 < (e.newTicker span).period :=
  Nat.lt_of_lt_of_le Nat.one_pos (Nat.le_max_right span 1)

theorem told_ticker (e : Engine σ) (a : Action σ) (id : Nat) (c : Coordinator) :
    (e.told a id c).ticker = c.ticker := by
  unfold told
  split <;> first | rfl | (split <;> rfl)

theorem Coordinates.ticks {c : Coordinator} {x : Engine σ × Option Coordinator}
    (h : Coordinates e c x) (hc : c.Ticks) : ∀ c' ∈ x.2, c'.Ticks := by
  cases h with
  | start hk =>
    rintro _ ⟨⟩ k hk
    obtain rfl := Option.some.inj hk
    exact newTicker_ticks e _
  | idle =>
    rintro _ ⟨⟩
    exact hc
  | @branch branch =>
    cases branch with
    | intent =>
      unfold takeBranch
      dsimp only
      split
      · rintro _ ⟨⟩
        exact hc
      · exact nofun
    | tick =>
      rintro _ ⟨⟩ k hk
      obtain ⟨k₀, hk₀, rfl⟩ := Option.map_eq_some_iff.mp hk
      exact hc k₀ hk₀
    | update =>
      unfold takeBranch
      dsimp only
      split
      · rintro _ ⟨⟩ k hk
        obtain rfl := Option.some.inj hk
        exact newTicker_ticks _ _
      · rintro _ ⟨⟩
        exact hc
    | stop => exact nofun

def Ticking (e : Engine σ) : Prop :=
  ∀ p ∈ e.coordinators, p.2.Ticks

theorem Ticking.perform (h : Ticking e) {a : Action σ} (hb : Bears C e a) :
    Ticking (e.perform C a) := by
  refine hb.each Coordinator.Ticks _ h (fun _ hc => hc) (fun id c hc => ?_) (fun _ => nofun)
    fun _ _ _ _ hx _ _ hc => hx.ticks hc
  unfold Coordinator.Ticks
  rw [told_ticker]
  exact hc

theorem Run.ticking {calls : List (TestCall σ)} (h : Run C e calls e') (hc : Coherent e)
    (hn : Numbered [] e) (ht : Ticking e) : Ticking e' := by
  induction h with
  | refl => exact ht
  | step hr ha ih => exact ih.perform (perform_bears C (hr.coherent hc) (hr.numbered hc hn) ha)

theorem isReady_coordinating {t : Task} {c : Coordinator} (hj : t.job = .coordinating c)
    (ha : t.isAborted = false) : e.isReady t = c.waits.any e.isOver := by
  rw [isReady, hj, ha, Bool.false_or]
  rfl

theorem clock_of_quiet {c : Coordinator} (h : c.waits.any e.isOver = false) :
    ∃ k, c.ticker = some k ∧ e.now < k.due := by
  unfold Coordinator.waits at h
  split at h
  · cases h
  · next k hk =>
    split at h
    · cases h
    · exact ⟨k, hk, by simpa [isOver] using h⟩

theorem nothing_waits {c : Coordinator} (h : c.waits.any e.isOver = false) :
    c.updates = [] ∧ c.intents = [] := by
  unfold Coordinator.waits at h
  split at h
  · cases h
  · split at h
    · cases h
    · next hidle =>
      simp only [Bool.or_eq_true, Bool.not_eq_true', List.isEmpty_eq_false_iff, not_or,
        not_not] at hidle
      exact ⟨hidle.1.2, hidle.1.1.1⟩

theorem branch_of_ready {c : Coordinator} (h : c.waits.any e.isOver = true) :
    c.ticker = none ∨ ∃ branch, c.branch? e.now = some branch := by
  unfold Coordinator.waits at h
  split at h
  · next hk => exact .inl hk
  · next k hk =>
    refine .inr (Option.isSome_iff_exists.mp ?_)
    rw [Coordinator.branch?, hk, Option.isNone_some, if_neg Bool.false_ne_true, List.find?_isSome]
    split at h
    · next hany =>
      simp only [Bool.or_eq_true] at hany
      rcases hany with ((hi | hi) | hu) | hs
      · exact ⟨.intent, by decide, by simp [Coordinator.canTake, hi]⟩
      · exact ⟨.intent, by decide, by simp [Coordinator.canTake, hi]⟩
      · exact ⟨.update, by decide, hu⟩
      · exact ⟨.stop, by decide, hs⟩
    · refine ⟨.tick, by decide, ?_⟩
      simpa [Coordinator.canTake, hk, isOver] using h

theorem takeBranch_backlog {c c' : Coordinator} {branch : Coordinator.Branch}
    (hb : c.canTake e.now branch) (hs : c.ticker.isSome) (hp : c.Ticks)
    (h : (e.takeBranch c branch).2 = some c') : c'.backlog e.now < c.backlog e.now := by
  obtain ⟨k, hk⟩ := Option.isSome_iff_exists.mp hs
  unfold takeBranch at h
  cases branch with
  | intent =>
    dsimp only at h
    split at h
    · next intent rest hi =>
      cases h
      simp only [Coordinator.backlog, hi, List.length_cons]
      omega
    · cases h
  | tick =>
    cases h
    have hdue : k.due ≤ e.now := by simpa [Coordinator.canTake, hk] using hb
    have hpos := hp k hk
    simp only [Coordinator.backlog, hk, Option.map_some, if_pos hdue]
    split <;> omega
  | update =>
    dsimp only at h
    split at h
    · next next rest hu =>
      cases h
      have hle : ((e.applyConfig next).newTicker next.scheduler.cleanupInterval).due ≤ e.now :=
        Nat.le_refl _
      simp only [Coordinator.backlog, hu, List.length_cons, if_pos hle]
      omega
    · next hu => simp [Coordinator.canTake, hu] at hb
  | stop => cases h

theorem stepCoordinator_backlog {c c' : Coordinator} (hr : c.waits.any e.isOver = true)
    (hp : c.Ticks) (h : (e.stepCoordinator c).2 = some c') :
    c'.backlog e.now < c.backlog e.now := by
  unfold stepCoordinator at h
  cases hk : c.ticker with
  | none =>
    have hb : c.branch? e.now = none := by rw [Coordinator.branch?, hk]; rfl
    rw [hb, hk] at h
    cases h
    simp [Coordinator.backlog, hk, newTicker]
  | some k =>
    rcases branch_of_ready hr with hn | ⟨branch, hb⟩
    · rw [hk] at hn
      cases hn
    · rw [hb] at h
      rw [Coordinator.branch?, hk, Option.isNone_some, if_neg Bool.false_ne_true] at hb
      exact takeBranch_backlog (List.find?_some hb) (by rw [hk]; rfl) hp h

theorem Numbered.readyTask? (h : Numbered [] e) {t : Task} (ht : t ∈ e.tasks)
    (hr : e.isReady t = true) : e.readyTask? t.id = some t := by
  refine find?_eq_some_of_unique ht (by simpa using hr) fun u hu hready => ?_
  rw [Bool.and_eq_true, beq_iff_eq] at hready
  exact h.mem_eq ht hu hready.1

theorem coordinator_settles (C : Core σ) (hc : Coherent e) (hn : Numbered [] e) (hp : Ticking e)
    {id : Nat} {c : Coordinator} (hm : (id, c) ∈ e.coordinators) :
    ∃ fuel, ∀ u ∈ (turn C id fuel e).tasks, u.id = id →
      (turn C id fuel e).isReady u = false := by
  -- the clock stands still, so that every turn leaves less to do
  generalize hb : c.backlog e.now = bound
  induction bound using Nat.strongRecOn generalizing e c with
  | ind bound ih =>
    obtain ⟨t, htask, rfl, hj⟩ := mem_coordinators.mp hm
    have ha : t.isAborted = false := not_aborted_of_proper (hc.proper t htask) (by rw [hj]; rfl)
    cases hr : e.isReady t with
    | false =>
      refine ⟨0, fun u hu hid => ?_⟩
      rw [hn.mem_eq htask hu hid]
      exact hr
    | true =>
      have hturn : ∀ fuel, turn C t.id (fuel + 1) e =
          turn C t.id fuel (resume C e t) := fun fuel => by
        rw [turn, hn.readyTask? htask hr]
      have hx := stepCoordinator_coordinates (e.without t) c
      have hres : resume C e t = ((e.without t).stepCoordinator c).1.park t
          (((e.without t).stepCoordinator c).2.map .coordinating) := by
        rw [resume, ha, hj]
        rfl
      cases hleft : ((e.without t).stepCoordinator c).2 with
      | none =>
        have hnum : Numbered [t.id] ((e.without t).stepCoordinator c).1 :=
          hx.staffs.numbered (hn.without htask)
        refine ⟨1, fun u hu hid => ?_⟩
        rw [hturn, hres, hleft] at hu
        exact absurd hid (hnum.gone u hu)
      | some c' =>
        have hnow : (resume C e t).now = e.now := by
          rw [hres, hleft]
          exact hx.moves.now (by rintro ⟨⟩)
        have hmem : (t.id, c') ∈ (resume C e t).coordinators := by
          rw [hres, hx.coordinators, hleft]
          exact List.mem_append_right _ (List.mem_singleton_self _)
        have hless : c'.backlog (resume C e t).now < bound := by
          rw [isReady_coordinating hj ha] at hr
          rw [hnow, ← hb]
          exact stepCoordinator_backlog (e := e.without t) hr (hp _ hm) hleft
        obtain ⟨fuel, hfuel⟩ := ih _ hless
          ((perform_moves C hc (a := .resume t) htask).coherent hc)
          (hn.perform C hc (a := .resume t) htask)
          (hp.perform (perform_bears C hc hn (a := .resume t) htask)) hmem rfl
        refine ⟨fuel + 1, ?_⟩
        rw [hturn]
        exact hfuel

end Engine

end ProxyPulse
