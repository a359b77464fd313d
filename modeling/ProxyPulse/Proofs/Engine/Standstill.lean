import ProxyPulse.Proofs.Engine.Concurrency
import ProxyPulse.Proofs.Engine.Outstanding

namespace ProxyPulse

def Limited (queries : List Query) : Prop :=
  ∀ q ∈ queries, ∀ call, q.stage = .inr call → ∃ limit, call.limit = some limit

theorem limited_nil : Limited [] :=
  nofun

theorem limited_singleton {q : Query} :
    Limited [q] ↔ ∀ call, q.stage = .inr call → ∃ limit, call.limit = some limit :=
  List.forall_mem_singleton

theorem limited_append {queries queries' : List Query} :
    Limited (queries ++ queries') ↔ Limited queries ∧ Limited queries' :=
  List.forall_mem_append

theorem filterMap_query?_cons (load : Load) (loads : List Load) :
    (load :: loads).filterMap Load.query? = load.query?.toList ++ loads.filterMap Load.query? := by
  cases load <;> rfl

namespace Engine

variable {σ : Type} {C : Core σ} {e : Engine σ} {t : Task} {q : Query} {loads : List Load}

theorem query_limited (C : Core σ) (group : String) (sort : SortMode) (limit : Nat) (e : Engine σ) :
    Limited [(e.query C group sort limit).2] := by
  rw [limited_singleton]
  intro call hcall
  unfold query at hcall
  dsimp only at hcall
  split at hcall
  · cases hcall
  · cases hcall
    exact ⟨limit, rfl⟩

theorem advanceQuery_limited (C : Core σ) (e : Engine σ) (h : Limited [q]) :
    Limited (e.advanceQuery C q).2.getLeft?.toList := by
  rw [limited_singleton] at h
  unfold advanceQuery
  split
  · split
    · refine limited_singleton.mpr ?_
      rintro call ⟨⟩
      exact ⟨q.limit, rfl⟩
    · exact limited_singleton.mpr h
  · next call hstage =>
    obtain ⟨limit, hlimit⟩ := h call hstage
    split
    · next he =>
      refine limited_singleton.mpr ?_
      rintro call' ⟨⟩
      exact ⟨limit, (hear_waits (congrArg Prod.snd he)).2.trans hlimit⟩
    · exact limited_nil

theorem startLoad_limited (C : Core σ) (e : Engine σ) (index : Nat) :
    Limited (startLoad C e index).2.query?.toList := by
  unfold startLoad
  split
  · exact limited_nil
  · exact query_limited C _ _ _ e

theorem startLoads_limited (C : Core σ) (e : Engine σ) (indices : List Nat) :
    Limited ((startLoads C e indices).2.filterMap Load.query?) := by
  induction indices generalizing e with
  | nil => exact limited_nil
  | cons index rest ih =>
    have hcons : (startLoads C e (index :: rest)).2 =
        (startLoad C e index).2 :: (startLoads C (startLoad C e index).1 rest).2 := rfl
    rw [hcons, filterMap_query?_cons]
    exact limited_append.mpr ⟨startLoad_limited C e index, ih _⟩

theorem stepLoad_limited (C : Core σ) (e : Engine σ) (index : Nat) (h : Limited [q]) :
    Limited (stepLoad C e index q).2.query?.toList := by
  have hquery := advanceQuery_limited C e h
  unfold stepLoad
  split
  · next he => rw [he] at hquery; exact hquery
  · exact limited_nil
  · exact limited_nil

theorem stepLoads_limited (C : Core σ) (e : Engine σ) (h : Limited (loads.filterMap Load.query?)) :
    Limited ((stepLoads C e loads).2.filterMap Load.query?) := by
  have hturn := stepLoads_turn C e loads
  generalize stepLoads C e loads = x at hturn
  cases hturn with
  | none => exact h
  | one =>
    rw [List.filterMap_append] at h ⊢
    obtain ⟨hbefore, hrest⟩ := limited_append.mp h
    obtain ⟨hquery, hafter⟩ := limited_append.mp (show Limited ([_] ++ _) from hrest)
    refine limited_append.mpr ⟨hbefore, ?_⟩
    rw [filterMap_query?_cons]
    exact limited_append.mpr ⟨stepLoad_limited C e _ hquery, hafter⟩

theorem loadMove_limited (goal : LoadGoal) (h : Limited (loads.filterMap Load.query?)) :
    Limited (RequestMove.queries (loadMove goal loads)) := by
  unfold loadMove
  split
  · exact limited_nil
  · exact h

theorem load_limited (C : Core σ) (e : Engine σ) (goal : LoadGoal) (indices : List Nat) :
    Limited (RequestMove.queries (load C e goal indices).2) :=
  loadMove_limited goal (startLoads_limited C e indices)

theorem takeNames_limited (C : Core σ) (e : Engine σ) (attempt : Option Attempt)
    (answer : Answer (List String)) :
    Limited (RequestMove.queries (takeNames C e attempt answer).2) := by
  have hretry (attempt : Attempt) : Limited (RequestMove.queries (retry C e attempt).2) := by
    unfold retry
    split <;> exact limited_nil
  unfold takeNames
  split
  · exact hretry _
  · exact hretry _
  · exact load_limited C _ _ _
  · exact limited_nil
  · dsimp only
    split
    · exact load_limited C _ _ _
    · exact limited_nil

theorem startRequest_limited (C : Core σ) (e : Engine σ) (r : Request) :
    Limited (RequestMove.queries (startRequest C e r).2) := by
  cases r with
  | reload index => exact load_limited C e .one [index]
  | reloadAll => exact load_limited C e .all _
  | select index proxy =>
    unfold startRequest startChoice
    dsimp only
    split <;> exact limited_nil
  | current =>
    unfold startRequest
    dsimp only
    split <;> exact limited_nil
  | _ => exact limited_nil

theorem stepRequest_limited (C : Core σ) (e : Engine σ) {job : Job} (h : Limited job.queries) :
    Limited (RequestMove.queries (stepRequest C e job).2) := by
  cases job with
  | start r => exact startRequest_limited C e r
  | loading goal loads => exact loadMove_limited goal (stepLoads_limited C e h)
  | naming attempt selectableOnly call =>
    unfold stepRequest
    dsimp only
    split
    · exact limited_nil
    · exact takeNames_limited C _ attempt _
  | walking current trail limit call =>
    unfold stepRequest
    dsimp only
    split
    · exact limited_nil
    · unfold takeStep
      split <;> exact limited_nil
  | choosing choice call =>
    unfold stepRequest
    dsimp only
    split
    · exact limited_nil
    · unfold takeChoice
      split <;> exact limited_nil
  | pausing | settingMode | probing | readingMode =>
    unfold stepRequest
    dsimp only
    split <;> exact limited_nil
  | _ => exact h

theorem stepSession_limited (C : Core σ) (e : Engine σ) {job : Job} (h : Limited job.queries) :
    Limited (SessionMove.queries (stepSession C e job).2) := by
  cases job with
  | opening plan =>
    unfold stepSession
    dsimp only
    split
    · unfold openPolling
      dsimp only
      split
      · exact limited_nil
      · split <;> exact limited_nil
    · unfold openProbes
      split <;> exact limited_nil
  | ticking plan p =>
    unfold stepSession tick
    dsimp only
    split
    · exact query_limited C _ _ _ e
    · split <;> exact limited_nil
  | polling plan p query =>
    have hquery := advanceQuery_limited C e h
    unfold stepSession poll
    dsimp only
    split
    · next he => rw [he] at hquery; exact hquery
    · rw [afterPoll_queries]
      exact limited_nil
    · rw [afterPoll_queries]
      exact limited_nil
  | collecting plan missing deadline inbox =>
    unfold stepSession collect
    dsimp only
    split
    · split <;> exact limited_nil
    · split
      · exact limited_nil
      · split <;> exact limited_nil
  | _ => exact h

theorem stepJob_limited (C : Core σ) (e : Engine σ) (id : Nat) {job next : Job}
    (h : Limited job.queries) (hn : next ∈ (stepJob C e id job).2) : Limited next.queries := by
  cases hp : job.plan? with
  | some plan =>
    have hmove := stepSession_limited C e h
    rw [stepJob_session C e id hp, afterSession_rest] at hn
    generalize (stepSession C e job).2 = move at hn hmove
    cases move with
    | wait job' => exact Option.some.inj hn ▸ hmove
    | stop | breakOff => cases hn
  | none =>
    have hrequest (hn : next ∈ (afterRequest id (stepRequest C e job)).2) : Limited next.queries := by
      have hmove := stepRequest_limited C e h
      rwa [afterRequest_wait hn] at hmove
    cases job with
    | opening | ticking | polling | collecting => cases hp
    | batch b =>
      obtain ⟨b', -, rfl⟩ := Option.map_eq_some_iff.mp hn
      exact limited_nil
    | triggering =>
      obtain ⟨call, -, rfl⟩ := Option.map_eq_some_iff.mp hn
      exact limited_nil
    | coordinating =>
      obtain ⟨c, -, rfl⟩ := Option.map_eq_some_iff.mp hn
      exact limited_nil
    | _ => exact hrequest hn

theorem perform_limited (C : Core σ) {a : Action σ} (ha : e.Allows a)
    (h : ∀ t ∈ e.tasks, Limited t.job.queries) :
    ∀ t ∈ (e.perform C a).tasks, Limited t.job.queries := by
  apply perform_all C ha (Q := fun t => Limited t.job.queries)
  · intro t t' ht hq
    rwa [ht.queries]
  · intro id job _ hj
    rw [hj.queries]
    exact limited_nil
  · intro t _ hq next hnext
    exact stepJob_limited C _ _ hq hnext
  · exact h

theorem Reachable.limited (h : Reachable C e) : ∀ t ∈ e.tasks, Limited t.job.queries := by
  obtain ⟨core, config, overrides, calls, hr⟩ := h
  have hnew : (Engine.new core config overrides).tasks = [] := rfl
  refine hr.keeps (Q := fun e => ∀ t ∈ e.tasks, Limited t.job.queries)
    (fun _ _ _ ha h => perform_limited C ha h) (new_coherent core config overrides) ?_
  intro t ht
  rw [hnew] at ht
  cases ht

theorem Reachable.supplied (h : Reachable C e) : ∃ total, 0 < total ∧ Supplied total e := by
  obtain ⟨core, config, overrides, calls, hr⟩ := h
  exact ⟨_, Nat.lt_of_lt_of_le Nat.zero_lt_one (Nat.le_max_right _ _),
    hr.supplied (new_coherent core config overrides) (new_supplied core config overrides)⟩

/-- Nothing can go on, and nothing will. -/
def AtStandstill (e : Engine σ) : Prop :=
  e.isBusy none = false ∧ e.nextMoment? = none

theorem AtStandstill.prompt (h : e.AtStandstill) (time : Nat) : Prompt e (.wait time) :=
  ⟨h.1, fun next hn => by rw [h.2] at hn; cases hn⟩

theorem AtStandstill.no_moment (h : e.AtStandstill) (ht : t ∈ e.tasks) {moment : Nat} :
    .moment moment ∉ t.job.waits := by
  intro hw
  exact absurd ((h.prompt (moment + 1)).le_moment ht hw) (Nat.not_succ_le_self moment)

theorem AtStandstill.no_limit (h : e.AtStandstill) (ht : t ∈ e.tasks) {call : Call}
    (hw : .answer call ∈ t.job.waits) : call.limit = none := by
  cases hlimit : call.limit with
  | none => rfl
  | some limit =>
    obtain ⟨moment, hwake, -⟩ := Call.wakeAt_le hlimit
    have hp := h.prompt (moment + 1)
    have hover := hp.not_over ht hw
    rw [isOver, Bool.or_eq_false_iff] at hover
    have hle := hp.le_wake ht hw hwake (Call.wakeAt_later hover.1 hover.2 hwake)
    exact absurd hle (Nat.not_succ_le_self moment)

theorem Reachable.not_atStandstill (hr : Reachable C e) (ht : t ∈ e.tasks)
    (hq : q ∈ t.job.queries) : ¬ e.AtStandstill := by
  intro hstill
  have hidle : ∀ t ∈ e.tasks, e.isReady t = false := fun t ht => (hstill.prompt 0).not_ready ht
  have hanswered : ∀ t ∈ e.tasks, ∀ q ∈ t.job.queries, q.isCalling = false := by
    intro t ht q hq
    cases hstage : q.stage with
    | inl ticket => rw [Query.isCalling, hstage]; rfl
    | inr call =>
      obtain ⟨limit, hlimit⟩ := hr.limited t ht q hq call hstage
      have hwait : .answer call ∈ t.job.waits := by
        have hw := mem_waits_of_query hq
        rwa [Query.wait, hstage] at hw
      rw [hstill.no_limit ht hwait] at hlimit
      cases hlimit
  obtain ⟨total, hpos, hs⟩ := hr.supplied
  have hcalls : e.queries.countP Query.isCalling = 0 := by
    rw [List.countP_eq_zero]
    intro q hq
    obtain ⟨t, ht, hq⟩ := List.mem_flatMap.mp hq
    rw [hanswered t ht q hq]
    exact Bool.false_ne_true
  have hgranted : e.permits.granted = [] := by
    refine List.eq_nil_iff_forall_not_mem.mpr fun ticket hg => ?_
    obtain ⟨t, ht, -, hready⟩ := hs.granted hg
    rw [hidle t ht] at hready
    cases hready
  cases hstage : q.stage with
  | inr call =>
    have hcalling := hanswered t ht q hq
    rw [Query.isCalling, hstage] at hcalling
    cases hcalling
  | inl ticket =>
    -- it queues, so no permit is free; but nobody has one
    have hplaced : ticket ∈ e.permits.queue := by
      have hticket : ticket ∈ e.queries.filterMap Query.ticket? :=
        List.mem_filterMap.mpr ⟨q, List.mem_flatMap.mpr ⟨t, ht, hq⟩, by rw [Query.ticket?, hstage]; rfl⟩
      have hmem := hs.serves.placed.mem_iff.mp hticket
      rwa [hgranted, List.append_nil] at hmem
    have hfree := hs.serves.busy (List.ne_nil_of_mem hplaced)
    have hsum := hs.serves.sum
    rw [hfree, hgranted, hcalls] at hsum
    exact absurd hsum (Nat.ne_of_lt hpos)

end Engine

end ProxyPulse
