import ProxyPulse.Engine.Run
import ProxyPulse.Proofs.Backoff
import ProxyPulse.Proofs.Budget
import ProxyPulse.Proofs.Config.Writable
import ProxyPulse.Proofs.Engine.Probing

namespace ProxyPulse

def longestSpan : Nat :=
  1000 * (Nat.pow 2 64 - 1) + 999

structure SessionPlan.Follows (plan : SessionPlan) (settings : Config) : Prop where
  config : plan.config = settings
  budget : plan.budget = Budget.forGroupSize settings.scheduler.tiers plan.members.length

theorem Config.timeouts_le {c : Config} (h : ∀ n ∈ c.words, n < Nat.pow 2 64) :
    c.runtime.probeTimeout + c.runtime.requestTimeout ≤ longestSpan := by
  have hrequest : c.runtime.requestTimeout < Nat.pow 2 64 := h _ (by simp [words])
  have hprobe : c.runtime.probeTimeout < Nat.pow 2 64 := h _ (by simp [words])
  rw [longestSpan]
  generalize Nat.pow 2 64 = limit at hrequest hprobe ⊢
  omega

theorem Config.Faultless.pollInterval {c : Config} (h : c.Faultless) :
    1 ≤ c.scheduler.pollInterval ∧ c.scheduler.pollInterval ≤ maxPollInterval := by
  have hpositive : 0 < c.scheduler.pollIntervalMs :=
    h.positive ("scheduler.poll_interval_ms", _) (by simp [Config.positiveFields])
  exact ⟨Nat.le_min.mpr ⟨hpositive, by decide⟩, Nat.min_le_right _ _⟩

theorem Config.Faultless.reloadConcurrency {c : Config} (h : c.Faultless) :
    1 ≤ c.scheduler.reloadConcurrency :=
  h.positive ("scheduler.reload_concurrency", _) (by simp [Config.positiveFields])

theorem Backoff.attempts_stay_small (base : Nat) (acts : List Backoff.Act) (draw : Nat) :
    let b := acts.foldl Backoff.perform ⟨base, maxAttemptPause, 0⟩
    b.attempts ≤ Backoff.word ∧ (b.next draw).1 ≤ 5500 * Backoff.millisecond := by
  intro b
  have hb : b = ⟨base, maxAttemptPause, min (taken acts) word⟩ := foldl_perform base _ acts
  have hcap : b.pause (b.attempts + 1) ≤ maxAttemptPause := by
    rw [hb]
    exact Nat.min_le_right _ _
  have hjitter := (next_bounds b draw).2
  refine ⟨by rw [hb]; exact Nat.min_le_right _ _, ?_⟩
  rw [maxAttemptPause] at hcap
  omega

namespace Engine

variable {σ : Type} {C : Core σ} {e : Engine σ} {plan : SessionPlan} {settings : Config}

theorem build?_isSome_iff (core : σ) (c : Config) (o : Overrides) :
    (build? core c o).isSome ↔ c.scheduler.reloadConcurrency ≤ maxConcurrency := by
  unfold build?
  split
  · next h => exact iff_of_false Bool.noConfusion (Nat.not_le.mpr h)
  · next h => exact iff_of_true rfl (Nat.le_of_not_lt h)

theorem openSession_follows (e : Engine σ) (index session : Nat) (g : Group) :
    ∃ plan : SessionPlan, plan.session = session ∧ plan.members = g.members.map Proxy.name ∧
      plan.Follows e.config ∧ (e.openSession index session g).tasks =
        e.tasks ++ [{ id := e.nextTask, job := .opening plan }] := by
  have hconfig : (e.write (·.setTesting index g.name true)).config = e.config :=
    Registry.Write.config_apply e.registry (.setTesting index g.name true)
  refine ⟨_, rfl, rfl, ⟨hconfig, ?_⟩, rfl⟩
  rw [List.length_map]
  exact congrArg (Budget.forGroupSize ·.scheduler.tiers _) hconfig

theorem tick_goes_on (C : Core σ) (e : Engine σ) (plan : SessionPlan) (p : Polling) :
    (tick C e plan p).2 ≠ .breakOff := by
  unfold tick
  split
  · nofun
  · split <;> nofun

theorem poll_goes_on (C : Core σ) (e : Engine σ) (plan : SessionPlan) (p : Polling)
    (query : Query) : (poll C e plan p query).2 ≠ .breakOff := by
  have hafter (e : Engine σ) (found : Option DelayTable) : e.afterPoll plan p found ≠ .breakOff := by
    unfold afterPoll
    dsimp only
    split
    · nofun
    · split <;> nofun
  unfold poll
  split
  · nofun
  · exact hafter _ none
  · exact hafter _ _

theorem collect_goes_on (e : Engine σ) (plan : SessionPlan) (missing deadline : Nat)
    (inbox : List (String × Int)) : (e.collect plan missing deadline inbox).2 ≠ .breakOff := by
  unfold collect
  split
  · dsimp only
    split <;> nofun
  · dsimp only
    split
    · nofun
    · split <;> nofun

theorem openPolling_goes_on (e : Engine σ) (h : plan.pollInterval ≠ 0) :
    (e.openPolling plan).2 ≠ .breakOff := by
  have h : plan.config.scheduler.pollInterval ≠ 0 := h
  unfold openPolling
  dsimp only
  rw [if_neg h]
  split <;> nofun

theorem openProbes_breakOff_iff (e : Engine σ) (plan : SessionPlan) :
    (e.openProbes plan).2 = .breakOff ↔ maxConcurrency < plan.budget.concurrency := by
  unfold openProbes
  split
  · next h => exact iff_of_true rfl h
  · next h => exact iff_of_false (by nofun) h

theorem stepSession_breakOff_iff (h : plan.pollInterval ≠ 0) (C : Core σ) (e : Engine σ) {job : Job}
    (hplan : job.plan? = some plan) :
    (stepSession C e job).2 = .breakOff ↔
      job = .opening plan ∧ plan.strategy = .perProxy ∧
        maxConcurrency < plan.budget.concurrency := by
  cases job with
  | opening plan' =>
    obtain rfl := Option.some.inj hplan
    cases hg : plan'.strategy with
    | group =>
      rw [stepSession_polls C e hg]
      exact iff_of_false (openPolling_goes_on e h) (by simp)
    | perProxy =>
      rw [stepSession_probes C e hg, openProbes_breakOff_iff]
      simp
  | ticking plan' p => exact iff_of_false (tick_goes_on C e plan' p) (by simp)
  | polling plan' p query => exact iff_of_false (poll_goes_on C e plan' p query) (by simp)
  | collecting plan' missing deadline inbox =>
    exact iff_of_false (collect_goes_on e plan' missing deadline inbox) (by simp)
  | _ => cases hplan

/-- Under valid settings every pool has a permit to give. Between two polls there is a millisecond at
least and a minute at most. A session waits an hour at most, so its deadline is a moment if there is an
hour left when it starts; what a probe and a request may take together is a span of time; and the pauses
of a prefetch stay short. An engine comes to be unless its pool for queries is too large. A session
follows the settings in use, and it never breaks off, unless as it opens, for want of a pool that is
large enough for its probes; no session does if no row of the table asks for too many. -/
theorem only_pools_outgrow_valid_settings {c : Config} (hvalid : c.IsValid)
    (hwords : ∀ n ∈ c.words, n < Nat.pow 2 64) (o : Overrides) :
    let budget := Budget.forGroupSize c.scheduler.tiers
    (1 ≤ c.scheduler.reloadConcurrency ∧ ∀ core : σ,
      ((build? core c o).isSome ↔ c.scheduler.reloadConcurrency ≤ maxConcurrency) ∧
      ∀ e ∈ build? core c o, e.config = o.apply c ∧
        e.permits.free = c.scheduler.reloadConcurrency) ∧
    (1 ≤ c.scheduler.pollInterval ∧ c.scheduler.pollInterval ≤ maxPollInterval) ∧
    (∀ size, 1 ≤ (budget size).concurrency ∧
      ∀ start last, start + maxTierWait ≤ last → start + (budget size).maxWait ≤ last) ∧
    c.runtime.probeTimeout + c.runtime.requestTimeout ≤ longestSpan ∧
    (∀ (acts : List Backoff.Act) (draw : Nat),
      let b := acts.foldl Backoff.perform
        ⟨c.scheduler.prefetchBaseDelay * Backoff.millisecond, maxAttemptPause, 0⟩
      b.attempts ≤ Backoff.word ∧ (b.next draw).1 ≤ 5500 * Backoff.millisecond) ∧
    (∀ (e : Engine σ) (index session : Nat) (g : Group), e.config = o.apply c →
      ∃ plan : SessionPlan, plan.session = session ∧ plan.members = g.members.map Proxy.name ∧
        plan.Follows (o.apply c) ∧ (e.openSession index session g).tasks =
          e.tasks ++ [{ id := e.nextTask, job := .opening plan }]) ∧
    (∀ plan : SessionPlan, plan.Follows (o.apply c) →
      ∀ (C : Core σ) (e : Engine σ) (job : Job), job.plan? = some plan →
        ((stepSession C e job).2 = .breakOff ↔
          job = .opening plan ∧ c.scheduler.strategy = .perProxy ∧
            maxConcurrency < (budget plan.members.length).concurrency)) ∧
    ((∀ size, (budget size).concurrency ≤ maxConcurrency) ↔
      ∀ row ∈ c.scheduler.tiers, row.concurrency ≤ maxConcurrency) := by
  intro budget
  have h := Config.isValid_iff.mp hvalid
  refine ⟨⟨h.reloadConcurrency, fun core => ⟨build?_isSome_iff core c o, fun e he => ?_⟩⟩,
    h.pollInterval, ?_, Config.timeouts_le hwords,
    fun acts draw => Backoff.attempts_stay_small _ acts draw,
    fun e index session g he => he ▸ openSession_follows e index session g,
    fun plan hplan C e job hjob => ?_,
    Budget.forall_forGroupSize_iff h (P := (·.concurrency ≤ maxConcurrency))⟩
  · obtain rfl := Option.some.inj ((Option.ite_none_left_eq_some.mp he).2)
    exact ⟨rfl, Nat.max_eq_left h.reloadConcurrency⟩
  · intro size
    obtain ⟨row, hserves, hbudget⟩ := Budget.serves_of_valid h size
    obtain ⟨hconcurrency, hwait⟩ := h.rows row hserves.mem
    rw [show budget size = ⟨row.concurrency, row.maxWait⟩ from hbudget]
    exact ⟨hconcurrency, fun start last hlast =>
      Nat.le_trans (Nat.add_le_add_left hwait start) hlast⟩
  · have hinterval : plan.pollInterval ≠ 0 := by
      rw [SessionPlan.pollInterval, hplan.config]
      exact Nat.ne_of_gt h.pollInterval.1
    have hbreak := stepSession_breakOff_iff hinterval C e hjob
    rw [hplan.budget, SessionPlan.strategy, hplan.config] at hbreak
    exact hbreak

def pooled (concurrency : Nat) : Config :=
  { scheduler := {
      strategy := .perProxy
      reloadConcurrency := concurrency
      tiers := [⟨10, concurrency, 5000⟩] } }

def pooledPlan (concurrency : Nat) : SessionPlan where
  session := 1
  index := 0
  group := "auto"
  members := ["direct", "reject"]
  budget := Budget.forGroupSize (pooled concurrency).scheduler.tiers 2
  config := pooled concurrency

theorem only_pools_outgrow_valid_settings_crowded :
    let least := pooled (maxConcurrency + 1)
    least.IsValid ∧ (∀ n ∈ least.words, n < Nat.pow 2 64) ∧ (build? () least {}).isNone ∧
      ∀ (C : Core Unit) (e : Engine Unit),
        (stepSession C e (.opening (pooledPlan (maxConcurrency + 1)))).2 = .breakOff := by
  intro least
  have hvalid : least.IsValid := by decide
  have hwords : ∀ n ∈ least.words, n < Nat.pow 2 64 := by decide
  obtain ⟨⟨-, hbuild⟩, -, -, -, -, -, hsession, -⟩ :=
    only_pools_outgrow_valid_settings (σ := Unit) hvalid hwords {}
  have hnone : ¬ (build? () least {}).isSome := mt (hbuild ()).1.mp (by decide)
  refine ⟨hvalid, hwords, by simpa using hnone, fun C e => ?_⟩
  exact (hsession (pooledPlan _) ⟨rfl, rfl⟩ C e _ rfl).mpr ⟨rfl, rfl, by decide⟩

theorem valid_settings_outgrow_pools :
    (pooled (maxConcurrency + 1)).IsValid ∧ (pooled maxConcurrency).IsValid ∧
      (build? () (pooled (maxConcurrency + 1)) {}).isNone ∧
      (build? () (pooled maxConcurrency) {}).isSome ∧
      ∀ (C : Core Unit) (e : Engine Unit),
        (stepSession C e (.opening (pooledPlan (maxConcurrency + 1)))).2 = .breakOff ∧
        (stepSession C e (.opening (pooledPlan maxConcurrency))).2 ≠ .breakOff :=
  ⟨by decide, by decide, rfl, rfl, fun _ _ => ⟨rfl, nofun⟩⟩

end Engine

end ProxyPulse
