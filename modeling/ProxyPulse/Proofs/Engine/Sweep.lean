import ProxyPulse.Config.Validation
import ProxyPulse.Proofs.Engine.Coordinators

namespace ProxyPulse

def Config.SweepsAs (c c' : Config) : Prop :=
  c.scheduler.cleanupTimeout = c'.scheduler.cleanupTimeout ∧
    c.scheduler.cleanupInterval = c'.scheduler.cleanupInterval

theorem Config.IsValid.ne_zero {c : Config} (h : c.IsValid) {field : String} {value : Nat}
    (hm : (field, value) ∈ c.positiveFields) : value ≠ 0 := by
  intro hz
  have hf : ConfigFault.zero field ∈ c.faults := by
    simp only [faults, List.mem_append, List.mem_filterMap]
    refine .inl (.inl (.inl (.inl (.inl (.inl ⟨_, hm, ?_⟩)))))
    rw [if_pos hz]
  rw [h] at hf
  cases hf

theorem Config.IsValid.sweeps {c : Config} (h : c.IsValid) :
    0 < c.scheduler.cleanupTimeout ∧ 0 < c.scheduler.cleanupInterval := by
  have hi : c.scheduler.cleanupIntervalSecs ≠ 0 :=
    h.ne_zero (List.mem_cons_of_mem _ List.mem_cons_self)
  have ht : c.scheduler.inProgressTimeoutSecs < c.scheduler.cleanupTimeoutSecs := by
    apply Nat.lt_of_not_le
    intro hle
    simp [IsValid, faults, hle] at h
  unfold Scheduler.cleanupTimeout Scheduler.cleanupInterval
  omega

def Action.Retains {σ : Type} (config : Config) : Action σ → Prop
  | .configure next | .sendConfig _ next => next.SweepsAs config
  | _ => True

namespace Engine

variable {σ : Type} {C : Core σ} {config : Config} {e e' : Engine σ}

abbrev Steady (C : Core σ) (config : Config) : Engine σ → Engine σ → Prop :=
  RunOf C (·.Retains config)

def Spares (e e' : Engine σ) (index : Nat) (s : Session) : Prop :=
  e'.sessions[index]? = some s ∧ ∀ t ∈ e.tasks, t.job.session? = some s.id → t ∈ e'.tasks

theorem stopSession_spares (h : Coherent e) {index i : Nat} (outcome : SessionOutcome)
    {s : Session} (hs : e.sessions[i]? = some s) (hi : index ≠ i) :
    Spares e (e.stopSession index outcome).1 i s := by
  refine ⟨?_, fun t ht hj => ?_⟩
  · rw [stopSession_sessions, if_neg hi]
    exact hs
  · unfold stopSession
    split
    · exact ht
    · next x hx =>
      have hne : t.job.session? ≠ some x.id := by
        rw [hj]
        exact fun hid => hi (h.distinct index i x s hx hs (Option.some.inj hid).symm)
      exact List.mem_map.mpr ⟨t, ht, if_neg hne⟩

theorem stopSessions_spares (h : Coherent e) {indices : List Nat} (outcome : SessionOutcome)
    {i : Nat} {s : Session} (hs : e.sessions[i]? = some s) (hi : i ∉ indices) :
    Spares e (e.stopSessions indices outcome).1 i s := by
  rw [stopSessions_fst]
  induction indices generalizing e with
  | nil => exact ⟨hs, fun t ht _ => ht⟩
  | cons index rest ih =>
    rw [List.mem_cons, not_or] at hi
    obtain ⟨hne, hrest⟩ := hi
    have hone := stopSession_spares h outcome hs (Ne.symm hne)
    have hc := (stopSession_moves (P := (· = .close)) rfl e index outcome).coherent h
    obtain ⟨hsession, htasks⟩ := ih hc hone.1 hrest
    exact ⟨hsession, fun t ht hj => htasks t (hone.2 t ht hj) hj⟩

theorem mem_old_keys {i : Nat} {f : Nat → Session → Bool} :
    i ∈ (e.sessions.filter f).keys ↔ ∃ s, e.sessions[i]? = some s ∧ f i s = true := by
  rw [Std.ExtTreeMap.mem_keys, Std.ExtTreeMap.mem_iff_isSome_getElem?]
  simp [Option.any_eq_true]

theorem sweepSessions_young {i : Nat} {s : Session}
    (hs : e.sweepSessions.1.sessions[i]? = some s) :
    e.now - s.startedAt < e.config.scheduler.cleanupTimeout := by
  unfold sweepSessions at hs
  rw [stopSessions_sessions] at hs
  split at hs
  · cases hs
  · next hold =>
    apply Nat.lt_of_not_le
    intro hle
    exact hold (mem_old_keys.mpr ⟨s, hs, decide_eq_true hle⟩)

theorem sweepSessions_spares (h : Coherent e) {i : Nat} {s : Session}
    (hs : e.sessions[i]? = some s)
    (hy : e.now - s.startedAt < e.config.scheduler.cleanupTimeout) :
    Spares e e.sweepSessions.1 i s := by
  apply stopSessions_spares h _ hs
  intro hold
  obtain ⟨x, hx, hle⟩ := mem_old_keys.mp hold
  rw [Option.some.inj (hx.symm.trans hs), decide_eq_true_eq] at hle
  omega

variable {timeout interval : Nat}

structure Covers (timeout interval : Nat) (e : Engine σ) (k : Ticker) : Prop where
  period : k.period = interval
  due : k.due ≤ e.now + interval
  young : k.due ≤ e.now ∨
    ∀ (i : Nat) (s : Session), e.sessions[i]? = some s → k.due < s.startedAt + timeout + interval

theorem Covers.follows {k : Ticker} (h : Covers timeout interval e k) (ht : 0 < timeout)
    (hf : Follows e e') : Covers timeout interval e' k := by
  have hnow := hf.now
  have hdue := h.due
  refine ⟨h.period, by omega, ?_⟩
  rcases h.young with hd | hy
  · exact .inl (by omega)
  · refine .inr fun i s hs => ?_
    rcases hf.entries i s hs with hs | ⟨_, hstart⟩
    · exact hy i s hs
    · omega

theorem Covers.park {k : Ticker} (h : Covers timeout interval e k) (t : Task) (job : Option Job) :
    Covers timeout interval (e.park t job) k := by
  cases job <;> exact ⟨h.period, h.due, h.young⟩

theorem covers_new (hi : 0 < interval) (hf : Follows e e') :
    Covers timeout interval e' (e.newTicker interval) := by
  have hnow := hf.now
  unfold newTicker
  exact ⟨by dsimp only; omega, by dsimp only; omega, .inl hnow⟩

theorem covers_swept (hc : e.config.scheduler.cleanupTimeout = timeout) :
    Covers timeout interval e.sweep ⟨e.now + interval, interval⟩ := by
  have hnow : e.sweep.now = e.now := (sweep_moves (P := (· = .close)) e rfl).now Mark.noConfusion
  refine ⟨rfl, Nat.le_of_eq (by rw [hnow]), .inr fun i s hs => ?_⟩
  have hy : e.now - s.startedAt < timeout := hc ▸ sweepSessions_young hs
  dsimp only
  omega

structure Punctual (config : Config) (e : Engine σ) : Prop where
  settings : e.config.SweepsAs config
  updates : ∀ p ∈ e.coordinators, ∀ next ∈ p.2.updates, next.SweepsAs config
  clocks : ∀ p ∈ e.coordinators, ∀ k ∈ p.2.ticker,
    Covers config.scheduler.cleanupTimeout config.scheduler.cleanupInterval e k

theorem told_updates {a : Action σ} (ha : a.Retains config) {id : Nat} {c : Coordinator}
    {next : Config} (h : next ∈ (e.told a id c).updates) :
    next ∈ c.updates ∨ next.SweepsAs config := by
  cases a with
  | sendConfig handle sent =>
    unfold told at h
    dsimp only at h
    split at h
    · rcases List.mem_append.mp h with h | h
      · exact .inl h
      · exact .inr (List.mem_singleton.mp h ▸ ha)
    · exact .inl h
  | send handle intent =>
    unfold told at h
    dsimp only at h
    split at h <;> exact .inl h
  | closeUpdates handle | dropHandle handle =>
    unfold told at h
    dsimp only at h
    split at h <;> exact .inl h
  | _ => exact .inl h

theorem Retunes.sweepsAs {c : Coordinator} {x : Engine σ × Option Coordinator}
    {toggles : List Bool} {taken : List Config} (h : Retunes e c x toggles taken)
    (hs : e.config.SweepsAs config)
    (hu : ∀ next ∈ c.updates, next.SweepsAs config) :
    x.1.config.SweepsAs config ∧ ∀ c' ∈ x.2, ∀ next ∈ c'.updates, next.SweepsAs config := by
  cases h with
  | keep hc ho hk =>
    refine ⟨hc ▸ hs, fun c' hc' => ?_⟩
    rw [(hk c' hc').1]
    exact hu
  | toggle on hc ho hk =>
    refine ⟨?_, fun c' hc' => ?_⟩
    · rw [hc]
      exact hs
    · rw [(hk c' hc').1]
      exact hu
  | take hq hc ho hk =>
    rw [hq] at hu
    refine ⟨?_, fun c' hc' => ?_⟩
    · have hnext : _ := hu _ List.mem_cons_self
      rw [hc]
      exact hnext
    · rw [(hk c' hc').1]
      exact fun next hn => hu next (List.mem_cons_of_mem _ hn)

theorem Coordinates.covers {c : Coordinator} {x : Engine σ × Option Coordinator}
    (h : Coordinates e c x) (ht : 0 < timeout) (hi : 0 < interval) (hf : Follows e x.1)
    (hs : e.config.scheduler.cleanupTimeout = timeout ∧
      e.config.scheduler.cleanupInterval = interval)
    (hu : ∀ next ∈ c.updates, next.scheduler.cleanupInterval = interval)
    (hk : ∀ k ∈ c.ticker, Covers timeout interval e k) :
    ∀ c' ∈ x.2, ∀ k ∈ c'.ticker, Covers timeout interval x.1 k := by
  cases h with
  | start =>
    rintro _ ⟨⟩ k hnew
    obtain rfl := Option.some.inj hnew
    rw [hs.2]
    exact covers_new hi hf
  | idle =>
    rintro _ ⟨⟩
    exact hk
  | @branch branch =>
    cases branch with
    | intent =>
      unfold takeBranch at hf ⊢
      dsimp only at hf ⊢
      split at hf
      · rintro _ ⟨⟩ k hold
        exact (hk k hold).follows ht hf
      · exact nofun
    | tick =>
      rintro _ ⟨⟩ k hserved
      obtain ⟨k₀, hk₀, rfl⟩ := Option.map_eq_some_iff.mp hserved
      rw [(hk k₀ hk₀).period]
      exact covers_swept hs.1
    | update =>
      unfold takeBranch
      dsimp only
      split
      · next next rest hq =>
        rintro _ ⟨⟩ k hnew
        obtain rfl := Option.some.inj hnew
        rw [hu next (hq ▸ List.mem_cons_self)]
        exact covers_new hi (.refl _)
      · rintro _ ⟨⟩
        exact hk
    | stop => exact nofun

theorem Bears.sweepsAs {a : Action σ} (hb : Bears C e a) (h : Punctual config e)
    (hr : a.Retains config) : (e.perform C a).config.SweepsAs config := by
  cases hb with
  | told hi he =>
    rw [he]
    exact h.settings
  | started takesUpdates he =>
    subst he
    exact h.settings
  | @turn t c x hm hj hx hs he =>
    have hu := h.updates _ (mem_coordinators.mpr ⟨t, hm, rfl, hj⟩)
    have hconfig : (e.perform C a).config = x.1.config := by
      rw [he]
      cases x.2 <;> rfl
    rw [hconfig]
    exact (hs.sweepsAs h.settings hu).1
  | aside hcs hset =>
    by_cases hs : a.Sets
    · cases a with
      | sortByDelay on =>
        change (e.setSortByDelay on).config.SweepsAs config
        rw [setSortByDelay_config]
        exact h.settings
      | configure next =>
        change (e.applyConfig next).config.SweepsAs config
        rw [applyConfig_config]
        exact hr
      | _ => cases hs
    · rw [(hset hs).1]
      exact h.settings

theorem Punctual.perform (h : Punctual config e) (ht : 0 < config.scheduler.cleanupTimeout)
    (hi : 0 < config.scheduler.cleanupInterval) (C : Core σ) (he : Coherent e)
    (hn : Numbered [] e) {a : Action σ} (ha : e.Allows a) (hr : a.Retains config) :
    Punctual config (e.perform C a) := by
  have hf := (perform_moves C he ha).follows he
  have hb := perform_bears C he hn ha
  constructor
  case settings => exact hb.sweepsAs h hr
  case updates =>
    refine hb.each (fun c => ∀ next ∈ c.updates, next.SweepsAs config) _ h.updates (fun _ hu => hu)
      (fun id c hu next hnext => ?_) (fun _ => nofun)
      fun t c x _ _ hs _ hu => (hs.sweepsAs h.settings hu).2
    rcases told_updates hr hnext with hold | hnew
    · exact hu next hold
    · exact hnew
  case clocks =>
    refine hb.each
      (fun c => (∀ next ∈ c.updates, next.SweepsAs config) ∧ ∀ k ∈ c.ticker,
        Covers config.scheduler.cleanupTimeout config.scheduler.cleanupInterval e k)
      (fun c => ∀ k ∈ c.ticker, Covers config.scheduler.cleanupTimeout
        config.scheduler.cleanupInterval (e.perform C a) k)
      (fun p hp => ⟨h.updates p hp, h.clocks p hp⟩) (fun c hk k hc => ?_)
      (fun id c hk k hc => ?_) (fun _ => nofun) fun t c x _ hx _ hp hk c' hc' k hc => ?_
    · exact (hk.2 k hc).follows ht hf
    · rw [told_ticker] at hc
      exact (hk.2 k hc).follows ht hf
    · have hw : Follows (e.without t) x.1 :=
        hx.moves.follows ((without_moves (P := fun _ => True) e t).coherent he)
      have hbefore : ∀ k ∈ c.ticker, Covers config.scheduler.cleanupTimeout
          config.scheduler.cleanupInterval (e.without t) k := fun k hc =>
        ⟨(hk.2 k hc).period, (hk.2 k hc).due, (hk.2 k hc).young⟩
      rw [hp]
      exact (hx.covers ht hi hw h.settings (fun next hn => (hk.1 next hn).2) hbefore c' hc' k hc).park
        t _

theorem new_punctual (core : σ) (config : Config) (overrides : Overrides) :
    Punctual config (Engine.new core config overrides) :=
  ⟨⟨rfl, rfl⟩, nofun, nofun⟩

theorem Steady.punctual (h : Steady C config e e') (hp : Punctual config e)
    (ht : 0 < config.scheduler.cleanupTimeout) (hi : 0 < config.scheduler.cleanupInterval)
    (hc : Coherent e) (hn : Numbered [] e) : Punctual config e' := by
  induction h with
  | refl => exact hp
  | step h ha hr ih =>
    obtain ⟨calls, hrun⟩ := h.reaches
    exact ih.perform ht hi C (hrun.coherent hc) (hrun.numbered hc hn) ha hr

theorem turnTo_tick_spares (hc : Coherent e) (hn : Numbered [] e) {t : Task} {c : Coordinator}
    (ht : t ∈ e.tasks) (hj : t.job = .coordinating c) {i : Nat} {s : Session}
    (hs : e.sessions[i]? = some s)
    (hy : e.now - s.startedAt < e.config.scheduler.cleanupTimeout) :
    Spares e (e.turnTo t c .tick) i s := by
  have hw : Coherent (e.without t) := (without_moves (P := fun _ => True) e t).coherent hc
  obtain ⟨hsession, htasks⟩ := sweepSessions_spares hw hs hy
  refine ⟨hsession, fun u hu hju => List.mem_append_left _ (htasks u ?_ hju)⟩
  refine List.mem_filter.mpr ⟨hu, ?_⟩
  rw [bne_iff_ne]
  intro hid
  rw [hn.mem_eq ht hu hid, hj] at hju
  cases hju

/-- While the settings of the sweep stay as they are, every coordinator settles at every moment, and
once it has, no session has outlived the timeout by a whole interval; and no sweep, of a coordinator
or of anybody, touches a session that is younger than the timeout. -/
theorem sessions_are_swept_in_time {core : σ} {overrides : Overrides} (hv : config.IsValid)
    (h : Steady C config (Engine.new core config overrides) e) :
    (∀ t ∈ e.tasks, t.job.isCoordinating = true →
      (∃ fuel, ∀ u ∈ (turn C t.id fuel e).tasks, u.id = t.id →
        (turn C t.id fuel e).isReady u = false) ∧
      (e.isReady t = false → ∀ (i : Nat) (s : Session), e.sessions[i]? = some s →
        e.now - s.startedAt <
          config.scheduler.cleanupTimeout + config.scheduler.cleanupInterval)) ∧
    ∀ (i : Nat) (s : Session), e.sessions[i]? = some s →
      e.now - s.startedAt < config.scheduler.cleanupTimeout →
        Spares e (e.perform C .sweepSessions) i s ∧
        ∀ t c, e.Allows (.turnTo t c .tick) → Spares e (e.perform C (.turnTo t c .tick)) i s := by
  obtain ⟨ht, hi⟩ := hv.sweeps
  obtain ⟨calls, hrun⟩ := h.reaches
  have hcnew := new_coherent core config overrides
  have hnnew := new_numbered core config overrides
  have hc := hrun.coherent hcnew
  have hn := hrun.numbered hcnew hnnew
  have hp := h.punctual (new_punctual core config overrides) ht hi hcnew hnnew
  have hticks := hrun.ticking hcnew hnnew nofun
  refine ⟨fun t htask hj => ?_, fun i s hs hy => ?_⟩
  · obtain ⟨c, hj⟩ := Job.coordinator_of hj
    have hm : (t.id, c) ∈ e.coordinators := mem_coordinators.mpr ⟨t, htask, rfl, hj⟩
    refine ⟨coordinator_settles C hc hn hticks hm, fun hr i s hs => ?_⟩
    have ha : t.isAborted = false := not_aborted_of_proper (hc.proper t htask) (by rw [hj]; rfl)
    rw [isReady_coordinating hj ha] at hr
    obtain ⟨k, hk, hdue⟩ := clock_of_quiet hr
    rcases (hp.clocks _ hm k hk).young with hover | hyoung
    · omega
    · have := hyoung i s hs
      omega
  · rw [← hp.settings.1] at hy
    exact ⟨sweepSessions_spares hc hs hy,
      fun t c ha => turnTo_tick_spares hc hn ha.1 ha.2.1 hs hy⟩

def lagging : Engine Unit :=
  let C := Core.single 0
  let e := turn C 0 9 ((Engine.new () {} {}).request .refresh).1
  let e := turn C 1 9 (e.startCoordinator false).1
  let e := ({ e with now := 1 }.requestTest 0).1
  let e := turn C 1 9 { e with now := 90000 }
  { e with now := 94999 }

theorem lagging_steady : Steady (Core.single 0) {} (Engine.new () {} {}) lagging := by
  have h : Steady (Core.single 0) {} (Engine.new () {} {}) (Engine.new () {} {}) := .refl
  have hturn (t : Task) : (Action.resume t : Action Unit).Retains {} := trivial
  have h := (h.step (a := .request .refresh) trivial trivial).turn hturn 0 9
  have h := (h.step (a := .startCoordinator false) trivial trivial).turn hturn 1 9
  have h := h.step (a := .wait 1) (by decide +kernel : _ ≤ 1) trivial
  have h := h.step (a := .test 0) trivial trivial
  have h := (h.step (a := .wait 90000) (by decide +kernel : _ ≤ 90000) trivial).turn hturn 1 9
  exact h.step (a := .wait 94999) (by decide +kernel : _ ≤ 94999) trivial

theorem sessions_are_swept_in_time_lagging :
    lagging.sessions[0]? = some ⟨1, "auto", 1⟩ ∧ lagging.now - 1 = 94998 ∧
      lagging.now - 1 < 90000 + 5000 := by
  have hv : Config.IsValid {} := by decide +kernel
  have hquiet : ∃ t ∈ lagging.tasks, t.job.isCoordinating = true ∧ lagging.isReady t = false := by
    decide +kernel
  have hs : lagging.sessions[0]? = some ⟨1, "auto", 1⟩ := by decide +kernel
  obtain ⟨t, ht, hj, hr⟩ := hquiet
  have h := sessions_are_swept_in_time hv lagging_steady
  exact ⟨hs, by decide +kernel, (h.1 t ht hj).2 hr 0 _ hs⟩

end Engine

end ProxyPulse
