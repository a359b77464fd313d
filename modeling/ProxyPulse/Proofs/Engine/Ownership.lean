import ProxyPulse.Proofs.Engine.History

namespace ProxyPulse

def Job.owner? : Job → Option Nat
  | .batch probes => some probes.session
  | .triggering session _ _ _ => session
  | job => job.session?

namespace Engine

variable {σ : Type} {P : Mark → Prop} {e e' : Engine σ}

structure Mute (e e' : Engine σ) : Prop where
  registry : e'.registry = e.registry
  sessions : e'.sessions = e.sessions
  books : e'.books = e.books

theorem Moves.unmarked (h : Moves P e e') (hP : ∀ m, ¬ P m) : Mute e e' := by
  induction h with
  | refl => exact ⟨rfl, rfl, rfl⟩
  | tail _ hm ih =>
    obtain ⟨m, hmark, hm⟩ := hm
    obtain ⟨hregistry, hsessions, hbooks⟩ := ih
    cases hm with
    | quiet hq =>
      exact ⟨hq.registry.trans hregistry, hq.sessions.trans hsessions, hq.books.trans hbooks⟩
    | retask => exact ⟨hregistry, hsessions, hbooks⟩
    | _ => exact absurd (hmark _ rfl) (hP _)

theorem owner_of_plan {job : Job} {plan : SessionPlan} (h : job.plan? = some plan) :
    job.owner? = some plan.session := by
  cases job with
  | opening p | ticking p polling | polling p polling query | collecting p missing deadline inbox =>
    cases h
    rfl
  | _ => cases h

theorem May.not_of_owner {job : Job} (hp : job.plan? = none) {s : Nat}
    (ho : job.owner? = some s) (m : Mark) : ¬ May job m := by
  intro hm
  cases job with
  | batch b =>
    cases hm with
    | «show» h | finish h | park h => cases h
  | triggering session group limit call =>
    cases hm with
    | «show» h | finish h | park h => cases h
  | opening | ticking | polling | collecting => cases hp
  | _ => cases ho

theorem resume_mute (C : Core σ) (h : Coherent e) {t : Task} (ht : t ∈ e.tasks) {s : Nat}
    (ho : t.job.owner? = some s) :
    (∃ plan : SessionPlan, plan.session = s ∧ e.Runs plan) ∨ Mute e (resume C e t) := by
  cases hp : t.job.plan? with
  | none => exact .inr ((resume_moves C h ht).unmarked (May.not_of_owner hp ho))
  | some plan =>
    cases ha : t.isAborted with
    | true =>
      have hq := abandonJob_quiet (e.without t) t.job
      simp only [resume, ha, if_true]
      exact .inr ⟨hq.registry, hq.sessions, hq.books⟩
    | false =>
      have hplan : t.plan? = some plan := by
        rw [Task.plan?, ha]
        exact hp
      have hs := Option.some.inj ((owner_of_plan hp).symm.trans ho)
      exact .inl ⟨plan, hs, h.watched plan (List.mem_filterMap.mpr ⟨t, ht, hplan⟩)⟩

theorem resume_owned (C : Core σ) (h : Coherent e) {t : Task} (ht : t ∈ e.tasks) {s : Nat}
    (ho : t.job.owner? = some s) :
    (∃ plan : SessionPlan, plan.session = s ∧ e.Runs plan) ∨
      (resume C e t).registry = e.registry ∧ (resume C e t).sessions = e.sessions := by
  rcases resume_mute C h ht ho with hr | hm
  · exact .inl hr
  · exact .inr ⟨hm.registry, hm.sessions⟩

def Gone (e : Engine σ) (session : Nat) : Prop :=
  ∀ (i : Nat) (x : Session), e.sessions[i]? = some x → x.id ≠ session

theorem gone_of_isEmpty (h : e.sessions.isEmpty = true) (session : Nat) : e.Gone session := by
  intro i x hx
  rw [Std.ExtTreeMap.isEmpty_iff.mp h] at hx
  simp at hx

theorem Run.gone {C : Core σ} {later : List (TestCall σ)} (hr : Run C e later e') (h : Coherent e)
    {s : Nat} (hs : s < e.nextSession) (hgone : e.Gone s) : e'.Gone s := by
  intro i x hx
  rcases (hr.follows h).entries i x hx with hx | ⟨hid, _⟩
  · exact hgone i x hx
  · omega

theorem resume_gone (C : Core σ) (h : Coherent e) {s : Nat} (hgone : e.Gone s) {t : Task}
    (ht : t ∈ e.tasks) (ho : t.job.owner? = some s) : Mute e (resume C e t) := by
  rcases resume_mute C h ht ho with ⟨plan, hplan, x, hx, hid, _⟩ | hm
  · exact absurd (hid.trans hplan) (hgone _ x hx)
  · exact hm

theorem learn_cache (e : Engine σ) (proxy : String) (delay : Int) :
    (e.learn proxy delay).cache = e.cache.record e.now proxy delay := by
  unfold learn
  cases Measurement.ofDelay? delay <;> rfl

theorem stepBatch_cache (C : Core σ) (e : Engine σ) {b : ProbeBatch} (hroom : b.hasRoom = false)
    {e₁ : Engine σ} {proxy : String} {delay : Int} {rest : List (String × Call)}
    (hended : endedProbe C e b.running = (e₁, some (proxy, .ok delay), rest)) :
    (stepBatch C e b).1.cache = e₁.cache.record e₁.now proxy delay := by
  have hsettle : (stepBatch.settle C b e).1.cache = e₁.cache.record e₁.now proxy delay := by
    unfold stepBatch.settle
    rw [hended]
    exact learn_cache e₁ proxy delay
  unfold stepBatch
  split
  · next waiting hw =>
    split
    · next hlt => simp [ProbeBatch.hasRoom, hw, hlt] at hroom
    · exact hsettle
  · exact hsettle

theorem resume_batch_cache (C : Core σ) (e : Engine σ) {t : Task} (ha : t.isAborted = false)
    {b : ProbeBatch} (hj : t.job = .batch b) :
    (resume C e t).cache = (stepBatch C (e.without t) b).1.cache := by
  rw [resume_lives C e ha, hj]
  simp only [stepJob]
  cases (stepBatch C (e.without t) b).2 <;> rfl

theorem batch_remembers (C : Core σ) (h : Coherent e) {t : Task} (ht : t ∈ e.tasks)
    {b : ProbeBatch} (hj : t.job = .batch b) (hroom : b.hasRoom = false) {e₁ : Engine σ}
    {proxy : String} {delay : Int} {rest : List (String × Call)}
    (hended : endedProbe C (e.without t) b.running = (e₁, some (proxy, .ok delay), rest))
    (hd : 0 < delay) : (resume C e t).cache[proxy]? = some ⟨delay, e.now⟩ := by
  have ha := not_aborted_of_proper (h.proper t ht) (by rw [hj]; rfl)
  have hnow : e₁.now = e.now := by
    have hq := endedProbe_quiet C (e.without t) b.running
    rw [hended] at hq
    exact hq.now
  rw [resume_batch_cache C e ha hj, stepBatch_cache C _ hroom hended, hnow, DelayCache.record,
    isKnownDelay, if_pos (decide_eq_true hd)]
  exact Std.ExtTreeMap.getElem?_insert_self

theorem History.index_eq {calls : List (TestCall σ)} (hh : History calls e) {c : TestCall σ}
    (hc : c ∈ calls) {i : Nat} {x : Session} (hs : c.answer = .started x.id)
    (hx : e.sessions[i]? = some x) : c.index = i := by
  obtain ⟨d, hd, hid, hi, _⟩ := hh.entries i x hx
  rw [hh.unique hc hd hs hid]
  exact hi

/-- What comes of a session is shown only while it stands in the table; what comes later is lost, but
for the delays that probes find, which are remembered. -/
theorem late_results_are_lost {C : Core σ} {core : σ} {config : Config} {overrides : Overrides}
    {calls : List (TestCall σ)} (h : Run C (Engine.new core config overrides) calls e)
    {c : TestCall σ} (hc : c ∈ calls) {s : Nat} (hs : c.answer = .started s) :
    (∀ t ∈ e.tasks, t.job.owner? = some s → ∀ j : Nat,
      (resume C e t).board.records[j]? ≠ e.board.records[j]? →
        ∃ x, e.sessions[c.index]? = some x ∧ x.id = s) ∧
    ((∀ (i : Nat) (x : Session), e.sessions[i]? = some x → x.id ≠ s) →
      ∀ later e', Run C e later e' →
        (∀ (i : Nat) (x : Session), e'.sessions[i]? = some x → x.id ≠ s) ∧
        ∀ t ∈ e'.tasks, t.job.owner? = some s →
          (resume C e' t).registry = e'.registry ∧ (resume C e' t).sessions = e'.sessions) ∧
    ∀ t ∈ e.tasks, ∀ b, t.job = .batch b → b.session = s → b.hasRoom = false →
      ∀ e₁ proxy delay rest,
        endedProbe C (e.without t) b.running = (e₁, some (proxy, .ok delay), rest) →
          0 < delay → (resume C e t).cache[proxy]? = some ⟨delay, e.now⟩ := by
  have hcoh := h.coherent (new_coherent core config overrides)
  have hh := h.history
  refine ⟨fun t ht ho j hj => ?_, fun hgone later e' hr => ?_, ?_⟩
  · rcases resume_owned C hcoh ht ho with ⟨plan, hplan, x, hx, hid, _⟩ | ⟨hregistry, _⟩
    · have hxs : x.id = s := hid.trans hplan
      rw [hh.index_eq hc (hxs.symm ▸ hs) hx]
      exact ⟨x, hx, hxs⟩
    · rw [board, hregistry] at hj
      exact absurd rfl hj
  · have hgone' : ∀ (i : Nat) (x : Session), e'.sessions[i]? = some x → x.id ≠ s := by
      intro i x hx
      -- an entry of later is one of before, or has an id that was not given out yet
      rcases (hr.follows hcoh).entries i x hx with hx | ⟨hid, _⟩
      · exact hgone i x hx
      · have hused := hh.used c hc s hs
        omega
    refine ⟨hgone', fun t ht ho => ?_⟩
    rcases resume_owned C (hr.coherent hcoh) ht ho with ⟨plan, hplan, x, hx, hid, _⟩ | hsame
    · exact absurd (hid.trans hplan) (hgone' _ x hx)
    · exact hsame
  · intro t ht b hj _ hroom e₁ proxy delay rest hended hd
    exact batch_remembers C hcoh ht hj hroom hended hd

def stoppedSingle : Engine Unit :=
  { halted (Core.single 5) (single 5 .perProxy) with now := 20 }

def lateProbes : ProbeBatch where
  session := 1
  limit := 10000
  concurrency := 8
  waiting := []
  running := [("direct", ⟨10, some 15, some 10000⟩)]

theorem stoppedSingle_reaches :
    Reaches (Core.single 5) (single 5 .perProxy) stoppedSingle :=
  (halted_reaches _ _).trans (wait_reaches _ (by decide))

theorem late_results_are_lost_single :
    let t : Task := { id := 2, job := .batch lateProbes }
    (resume (Core.single 5) stoppedSingle t).registry = stoppedSingle.registry ∧
      (resume (Core.single 5) stoppedSingle t).cache["direct"]? = some ⟨5, 20⟩ := by
  intro t
  obtain ⟨core, config, overrides, before, hr⟩ := single_reachable 5 .perProxy
  obtain ⟨after, hr'⟩ := stoppedSingle_reaches
  have hid : (single 5 .perProxy).sessions[0]?.map Session.id = some 1 := by decide
  obtain ⟨c, hc, hs⟩ := hr.history.started_of hid
  obtain ⟨_, hlost, hremembered⟩ :=
    late_results_are_lost (hr.trans hr') (List.mem_append_left after hc) hs
  have ht : t ∈ stoppedSingle.tasks := List.mem_of_getElem? (i := 1) rfl
  have hgone : stoppedSingle.Gone 1 := gone_of_isEmpty (by decide) 1
  obtain ⟨_, hsame⟩ := hlost hgone [] _ .refl
  exact ⟨(hsame t ht rfl).1, hremembered t ht _ rfl rfl rfl _ _ _ _ rfl (by decide)⟩

end Engine

end ProxyPulse
