import ProxyPulse.Proofs.Engine.Ownership
import ProxyPulse.Proofs.Registry.Replacement

namespace ProxyPulse.Engine

variable {σ : Type} {P : Mark → Prop} {e e' e'' : Engine σ} {names : List String}

structure Untouched (e e' : Engine σ) : Prop where
  registry : e'.registry = e.registry
  sessions : e'.sessions = e.sessions
  cache : e'.cache = e.cache

structure Retracked (names : List String) (e e' : Engine σ) : Prop where
  tracked : e'.registry.names = names
  idle : e'.sessions = ∅
  records : ∀ i, i ∈ e'.board.records ↔ i < names.length
  shown : ∀ (i : Nat) (x : Record), e'.board.records[i]? = some x →
    x.index = i ∧ names[i]? = some x.group.name ∧ x.testing = false
  cache : ∀ (proxy : String) (d : CachedDelay),
    e'.cache[proxy]? = some d ↔ e.cache[proxy]? = some d ∧ e'.registry.Lists proxy

theorem Untouched.refl (e : Engine σ) : Untouched e e :=
  ⟨rfl, rfl, rfl⟩

theorem Untouched.trans (h : Untouched e e') (h' : Untouched e' e'') : Untouched e e'' :=
  ⟨h'.registry.trans h.registry, h'.sessions.trans h.sessions, h'.cache.trans h.cache⟩

theorem Untouched.before (h : Untouched e e') (h' : Retracked names e' e'') :
    Retracked names e e'' :=
  ⟨h'.tracked, h'.idle, h'.records, h'.shown, h.cache ▸ h'.cache⟩

theorem Untouched.after (h : Untouched e' e'') (h' : Retracked names e e') :
    Retracked names e e'' := by
  obtain ⟨hregistry, hsessions, hcache⟩ := h
  have hboard : e''.board = e'.board := congrArg Registry.board hregistry
  constructor
  case tracked => exact hregistry ▸ h'.tracked
  case idle => exact hsessions ▸ h'.idle
  case records => exact hboard ▸ h'.records
  case shown => exact hboard ▸ h'.shown
  case cache => exact hregistry ▸ hcache ▸ h'.cache

theorem stopSession_cache (e : Engine σ) (index : Nat) (outcome : SessionOutcome) :
    (e.stopSession index outcome).1.cache = e.cache := by
  unfold stopSession
  split <;> rfl

theorem stopAll_cache (e : Engine σ) : e.stopAll.1.cache = e.cache :=
  stopSessions_keep cache stopSession_cache e.sessions.keys .stopped e

theorem stopAll_coherent (h : Coherent e) : Coherent e.stopAll.1 :=
  (stopSessions_moves (P := fun _ => True) trivial e.sessions.keys .stopped e).coherent h

theorem applyNames_coherent (h : Coherent e) (names : List String) :
    Coherent (e.applyNames names).1 :=
  (applyNames_moves (P := fun _ => True) e trivial trivial names).coherent h

theorem getElem?_keep (cache : DelayCache) (listed : Std.ExtTreeSet String) (proxy : String)
    (d : CachedDelay) :
    (cache.keep listed.toList)[proxy]? = some d ↔ cache[proxy]? = some d ∧ proxy ∈ listed := by
  rw [DelayCache.keep, Std.ExtTreeMap.getElem?_filter', Option.filter_eq_some_iff,
    List.contains_iff_mem, Std.ExtTreeSet.mem_toList]

theorem Coherent.idle (h : Coherent e) (hs : e.sessions = ∅) {i : Nat} {x : Record}
    (hx : e.board.records[i]? = some x) : x.testing = false := by
  refine Bool.eq_false_iff.mpr fun ht => ?_
  have hi := (h.testing_iff i).mp ⟨x, hx, ht⟩
  rw [hs] at hi
  exact Std.ExtTreeMap.not_mem_empty hi

theorem applyNames_retracked (h : Coherent e) (hn : e.registry.names ≠ names) :
    Retracked names e (e.applyNames names).1 := by
  have hcoh := applyNames_coherent h names
  -- the names are swapped in what the end of all sessions leaves
  have ha := (stopAll_coherent h).aligned
  rw [applyNames_of_ne e hn] at hcoh ⊢
  have hnames := Registry.replace_names e.stopAll.1.registry names
  have hidle : e.stopAll.1.sessions = ∅ :=
    Std.ExtTreeMap.ext_getElem? fun i => (stopAll_sessions e i).trans rfl
  constructor
  case tracked => exact hnames
  case idle => exact hidle
  case records => exact Registry.replace_mem_iff ha names
  case shown =>
    intro i x hx
    exact ⟨hcoh.indexed i x hx, hnames ▸ hcoh.aligned.name hx, hcoh.idle hidle hx⟩
  case cache =>
    intro proxy d
    rw [getElem?_keep, stopAll_cache, Registry.replace_referenced_iff ha]

theorem hear_untouched {α : Type} (call : Call) (answer : σ → σ × Option (Answer α))
    (e : Engine σ) : Untouched e (e.hear call answer).1 := by
  unfold hear
  split
  · split <;> exact ⟨rfl, rfl, rfl⟩
  · exact .refl e

theorem startLoad_untouched (C : Core σ) (e : Engine σ) (index : Nat) :
    Untouched e (startLoad C e index).1 := by
  unfold startLoad
  split
  · exact .refl e
  · unfold query
    dsimp only
    split <;> exact ⟨rfl, rfl, rfl⟩

theorem startLoads_untouched (C : Core σ) (e : Engine σ) (indices : List Nat) :
    Untouched e (startLoads C e indices).1 := by
  induction indices generalizing e with
  | nil => exact .refl e
  | cons i rest ih => exact (startLoad_untouched C e i).trans (ih _)

theorem takeNames_untouched (C : Core σ) (e : Engine σ) {attempt : Option Attempt}
    (h : attempt.isSome → names ≠ []) :
    Untouched (e.applyNames names).1 (takeNames C e attempt (.ok names)).1 := by
  cases attempt with
  | some attempt =>
    cases names with
    | nil => exact absurd rfl (h rfl)
    | cons name rest => exact startLoads_untouched C _ _
  | none =>
    simp only [takeNames]
    split
    · exact startLoads_untouched C _ _
    · exact .refl _

theorem afterRequest_untouched (id : Nat) (x : Engine σ × RequestMove) :
    Untouched x.1 (afterRequest id x).1 := by
  obtain ⟨e, move⟩ := x
  cases move <;> exact ⟨rfl, rfl, rfl⟩

theorem park_untouched (e : Engine σ) (t : Task) (job : Option Job) :
    Untouched e (e.park t job) := by
  cases job <;> exact ⟨rfl, rfl, rfl⟩

theorem resume_names_untouched (C : Core σ) (h : Coherent e) {t : Task} (ht : t ∈ e.tasks)
    {attempt : Option Attempt} {selectableOnly : Bool} {call : Call}
    (hj : t.job = .naming attempt selectableOnly call)
    (he : (e.without t).hear call (C.names selectableOnly) = (e', .inr (.ok names)))
    (hs : attempt.isSome → names ≠ []) :
    Untouched e e' ∧ Untouched (e'.applyNames names).1 (resume C e t) := by
  have hheard := hear_untouched call (C.names selectableOnly) (e.without t)
  rw [he] at hheard
  have hw : Untouched e (e.without t) := ⟨rfl, rfl, rfl⟩
  refine ⟨hw.trans hheard, ?_⟩
  -- only a task of a session is told to go, so this one takes the names
  have ha := not_aborted_of_proper (h.proper t ht) (by rw [hj]; rfl)
  have hstep : stepRequest C (e.without t) (.naming attempt selectableOnly call) =
      takeNames C e' attempt (.ok names) := by
    simp only [stepRequest, he, note]
  rw [resume_lives C e ha, hj]
  refine (takeNames_untouched C e' hs).trans ?_
  rw [← hstep]
  exact (afterRequest_untouched t.id _).trans (park_untouched _ t _)

/-- What is left of a session shows nothing and counts nothing, now and later. -/
def Silenced (C : Core σ) (session : Nat) (e : Engine σ) : Prop :=
  ∀ later e', Run C e later e' →
    ∀ t ∈ e'.tasks, t.job.owner? = some session → Mute e' (resume C e' t)

theorem Coherent.silenced (h : Coherent e) (hidle : e.sessions = ∅) (C : Core σ) {s : Nat}
    (hs : s < e.nextSession) : Silenced C s e := by
  intro later e' hr t ht ho
  have hgone : e.Gone s := fun i x hx => by
    rw [hidle] at hx
    simp at hx
  exact resume_gone C (hr.coherent h) (hr.gone h hs hgone) ht ho

theorem Moves.silenced (hm : Moves P e e') (h : Coherent e) (hidle : e'.sessions = ∅) (C : Core σ)
    {s : Nat} (hs : s < e.nextSession) : Silenced C s e' :=
  (hm.coherent h).silenced hidle C (Nat.lt_of_lt_of_le hs (hm.follows h).next)

/-- Names that are tracked already change nothing. Other names put an end to all sessions, take the
place of those before and keep the delays of the members that are shown then, all in the step that
brings them; and what is left of a session from before shows nothing any more. -/
theorem retracking_is_all_or_nothing {C : Core σ} {core : σ} {config : Config}
    {overrides : Overrides} {calls : List (TestCall σ)}
    (h : Run C (Engine.new core config overrides) calls e) (names : List String) :
    (e.registry.names = names → e.applyNames names = (e, false)) ∧
    (e.registry.names ≠ names →
      (e.applyNames names).2 = true ∧ Retracked names e (e.applyNames names).1 ∧
        ∀ c ∈ calls, ∀ s, c.answer = .started s → Silenced C s (e.applyNames names).1) ∧
    ∀ t ∈ e.tasks, ∀ attempt selectableOnly call e',
      t.job = .naming attempt selectableOnly call →
      (e.without t).hear call (C.names selectableOnly) = (e', .inr (.ok names)) →
      (attempt.isSome → names ≠ []) →
        (e.registry.names = names → Untouched e (resume C e t)) ∧
        (e.registry.names ≠ names → Retracked names e (resume C e t) ∧
          ∀ c ∈ calls, ∀ s, c.answer = .started s → Silenced C s (resume C e t)) := by
  have hcoh := h.coherent (new_coherent core config overrides)
  have hused := h.history.used
  refine ⟨applyNames_of_eq e, fun hn => ?_, ?_⟩
  · have hretracked := applyNames_retracked hcoh hn
    have hmoves := applyNames_moves (P := fun _ => True) e trivial trivial names
    refine ⟨by rw [applyNames_of_ne e hn], hretracked, fun c hc s hs => ?_⟩
    exact hmoves.silenced hcoh hretracked.idle C (hused c hc s hs)
  · intro t ht attempt selectableOnly call e' hj he hs
    obtain ⟨hheard, htaken⟩ := resume_names_untouched C hcoh ht hj he hs
    have hnames := congrArg Registry.names hheard.registry
    refine ⟨fun hn => ?_, fun hn => ?_⟩
    · rw [applyNames_of_eq e' (hnames.trans hn)] at htaken
      exact hheard.trans htaken
    · have hmoves := (without_moves (P := fun _ => True) e t).trans (hear_moves _ call _ he)
      have hother := applyNames_retracked (hmoves.coherent hcoh) (hnames ▸ hn)
      have hretracked := hheard.before (htaken.after hother)
      refine ⟨hretracked, fun c hc s hs => ?_⟩
      exact (resume_moves C hcoh ht).silenced hcoh hretracked.idle C (hused c hc s hs)

def listing : Core (List String) :=
  { Core.single 0 with
    names := fun _ s => (s, some (.ok s))
    report := fun group _ s =>
      (s, some (.ok ⟨group, .selector, "", [⟨group ++ "-1", .terminal, "", 10⟩]⟩)) }

def relisted : Engine (List String) :=
  let e := ((refreshed listing ["a", "b"] {}).requestTest 1).1
  let e := { e with cache := (e.cache.record e.now "a-1" 10).record e.now "b-1" 20 }
  let (e, id) := { e with core := ["b", "c"] }.request .refresh
  resume listing e { id, job := .start .refresh }

theorem relisted_reachable : Reachable listing relisted := by
  refine (refreshed_reachable listing ["a", "b"] {}).reaches ?_
  refine .trans (reaches_perform _ (a := .test 1) trivial) ?_
  refine .trans (reaches_perform _ (a := .remember "a-1" 10) trivial) ?_
  refine .trans (reaches_perform _ (a := .remember "b-1" 20) trivial) ?_
  refine .trans (reaches_perform _ (a := .changeCore ["b", "c"]) trivial) ?_
  refine .trans (reaches_perform _ (a := .request .refresh) trivial) ?_
  refine reaches_perform _ (a := .resume _) ?_
  exact List.mem_append_right _ (List.mem_singleton_self _)

theorem retracking_is_all_or_nothing_relisted :
    let t : Task := { id := 2, job := .naming none false ⟨0, some 0, some 5000⟩ }
    relisted.sessions.size = 1 ∧ Retracked ["b", "c"] relisted (resume listing relisted t) ∧
      (resume listing relisted t).cache.keys = ["b-1"] ∧
      Silenced listing 1 (resume listing relisted t) := by
  intro t
  obtain ⟨core, config, overrides, calls, hr⟩ := relisted_reachable
  obtain ⟨_, _, hstep⟩ := retracking_is_all_or_nothing hr ["b", "c"]
  have ht : t ∈ relisted.tasks := List.mem_of_getElem? (i := 1) rfl
  obtain ⟨_, hother⟩ := hstep t ht none false _ _ rfl rfl nofun
  obtain ⟨hretracked, hsilenced⟩ := hother (by decide)
  have hid : relisted.sessions[1]?.map Session.id = some 1 := by decide
  obtain ⟨c, hc, hs⟩ := hr.history.started_of hid
  exact ⟨by decide, hretracked, by decide +kernel, hsilenced c hc 1 hs⟩

end ProxyPulse.Engine
