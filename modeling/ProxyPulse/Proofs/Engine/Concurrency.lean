import ProxyPulse.Proofs.Engine.Roster
import ProxyPulse.Proofs.Engine.Schedule

namespace ProxyPulse.Engine

variable {σ : Type} {C : Core σ} {e e' : Engine σ} {t : Task} {total : Nat}

def queries (e : Engine σ) : List Query :=
  e.tasks.flatMap fun t => t.job.queries

def outstanding (e : Engine σ) : Nat :=
  e.queries.countP Query.isCalling

structure Supplied (total : Nat) (e : Engine σ) : Prop where
  numbered : Numbered [] e
  serves : e.permits.Serves total e.queries

theorem Staffs.queries {K : Job → Prop} (h : Staffs K e e') (hK : ∀ job, K job → job.queries = []) :
    e'.queries = e.queries :=
  h.read (fun _ _ ht => ht.queries) fun t ht => hK t.job ht

theorem park_queries (e : Engine σ) (t : Task) (job : Option Job) :
    (e.park t job).queries = e.queries ++ job.elim [] Job.queries :=
  park_read (fun t => t.job.queries) e t job

theorem park_permits (e : Engine σ) (t : Task) (job : Option Job) :
    (e.park t job).permits = e.permits := by
  cases job <;> rfl

theorem Numbered.queries_perm (h : Numbered [] e) (ht : t ∈ e.tasks) :
    e.queries.Perm (t.job.queries ++ (e.without t).queries) :=
  (h.without_perm ht).flatMap_right _

theorem Supplied.turn (h : Supplied total e) {job : Option Job} (ht : Turns e t e' job) :
    Supplied total (e'.park t job) := by
  refine ⟨ht.numbered h.numbered, ?_⟩
  have hs : (e.without t).permits.Serves total (t.job.queries ++ (e.without t).queries) :=
    h.serves.perm (h.numbered.queries_perm ht.mem).symm
  have hs' := ht.tends.serves total _ hs
  rw [park_permits, park_queries, ht.tends.staffs.queries fun _ hj => hj.ordinary.1]
  exact hs'.perm List.perm_append_comm

theorem Supplied.perform (h : Supplied total e) (hc : Coherent e) {a : Action σ}
    (ha : e.Allows a) : Supplied total (e.perform C a) := by
  rcases perform_turns C hc ha with hd | ⟨t, e', job, he, ht⟩
  · refine ⟨hd.staffs.numbered h.numbered, ?_⟩
    rw [hd.staffs.queries fun _ hj => hj.queries]
    exact hd.serves total e.queries h.serves
  · rw [he]
    exact h.turn ht

theorem new_supplied (core : σ) (config : Config) (overrides : Overrides) :
    Supplied (max (overrides.apply config).scheduler.reloadConcurrency 1)
      (Engine.new core config overrides) :=
  ⟨new_numbered core config overrides, Permits.new_serves _⟩

theorem Run.supplied {calls : List (TestCall σ)} (h : Run C e calls e') (hc : Coherent e)
    (hs : Supplied total e) : Supplied total e' :=
  h.keeps (fun _ _ hc ha hs => hs.perform hc ha) hc hs

theorem mem_waits_of_query {job : Job} {q : Query} (h : q ∈ job.queries) : q.wait ∈ job.waits := by
  cases job with
  | loading goal loads =>
    obtain ⟨load, hl, hq⟩ := List.mem_filterMap.mp h
    cases load with
    | done ok => cases hq
    | asking index query =>
      cases hq
      exact List.mem_flatMap.mpr ⟨_, hl, List.mem_cons_self⟩
  | polling plan p query =>
    cases List.mem_singleton.mp h
    exact List.mem_cons_self
  | _ => cases h

theorem Supplied.granted (h : Supplied total e) {ticket : Nat} (hg : ticket ∈ e.permits.granted) :
    ∃ t ∈ e.tasks, (∃ q ∈ t.job.queries, q.stage = .inl ticket) ∧ e.isReady t = true := by
  have hm := h.serves.placed.mem_iff.mpr (List.mem_append_right _ hg)
  obtain ⟨q, hq, htick⟩ := List.mem_filterMap.mp hm
  obtain ⟨t, ht, hq⟩ := List.mem_flatMap.mp hq
  have hs : q.stage = .inl ticket := by
    rcases hst : q.stage with x | call
    · rw [Query.ticket?, hst] at htick
      exact congrArg _ (Option.some.inj htick)
    · rw [Query.ticket?, hst] at htick
      cases htick
  refine ⟨t, ht, ⟨q, hq, hs⟩, ?_⟩
  have hover : e.isOver q.wait = true := by
    rw [Query.wait, hs]
    exact List.contains_iff_mem.mpr hg
  rw [isReady, Bool.or_eq_true]
  exact .inr (List.any_eq_true.mpr ⟨q.wait, mem_waits_of_query hq, hover⟩)

/-- There are as many permits as the engine was built for, whatever came of calls, sessions and
settings since: the free ones, those just handed to a query that waited and has not gone on with it
yet, and one for each call that is out. The second kind is there only while some task can go on, and
nobody waits for a permit that is free. -/
theorem permits_add_up (C : Core σ) (core : σ) (config : Config) (overrides : Overrides)
    {calls : List (TestCall σ)} (h : Run C (Engine.new core config overrides) calls e) :
    let total := max 1 (overrides.apply config).scheduler.reloadConcurrency
    e.outstanding ≤ total ∧
    e.permits.free + e.permits.granted.length + e.outstanding = total ∧
    (∀ ticket ∈ e.permits.granted, ∃ t ∈ e.tasks,
      (∃ q ∈ t.job.queries, q.stage = .inl ticket) ∧ e.isReady t = true) ∧
    ((∀ t ∈ e.tasks, e.isReady t = false) → e.permits.free + e.outstanding = total) ∧
    (e.permits.queue ≠ [] → e.permits.free = 0) := by
  intro total
  have hs : Supplied total e := by
    have hs := h.supplied (new_coherent core config overrides) (new_supplied core config overrides)
    rwa [Nat.max_comm] at hs
  have hsum : e.permits.free + e.permits.granted.length + e.outstanding = total := hs.serves.sum
  refine ⟨hs.serves.outstanding_le, hsum, fun ticket hg => hs.granted hg, fun hidle => ?_,
    hs.serves.busy⟩
  have hnone : e.permits.granted = [] := by
    refine List.eq_nil_iff_forall_not_mem.mpr fun ticket hg => ?_
    obtain ⟨t, ht, _, hr⟩ := hs.granted hg
    rw [hidle t ht] at hr
    cases hr
  rw [hnone] at hsum
  exact hsum

def crowded : Engine Unit :=
  let e := refreshed (Core.single 5) () { scheduler := { reloadConcurrency := 1 } }
  let e := ((e.request (.reload 0)).1.request (.reload 0)).1
  let e := resume (Core.single 5) e { id := 1, job := .start (.reload 0) }
  resume (Core.single 5) e { id := 2, job := .start (.reload 0) }

theorem crowded_reached : Reaches (Core.single 5)
    (Engine.new () { scheduler := { reloadConcurrency := 1 } } {}) crowded := by
  refine (await_reaches _ _ .refresh).trans ?_
  refine (reaches_perform _ (a := .request (.reload 0)) trivial).trans ?_
  refine (reaches_perform _ (a := .request (.reload 0)) trivial).trans ?_
  refine (reaches_perform _ (a := .resume { id := 1, job := .start (.reload 0) }) ?_).trans ?_
  · exact List.mem_of_getElem? (i := 0) rfl
  · refine reaches_perform _ (a := .resume { id := 2, job := .start (.reload 0) }) ?_
    exact List.mem_of_getElem? (i := 0) rfl

theorem permits_add_up_crowded : ∃ calls,
    Run (Core.single 5) (Engine.new () { scheduler := { reloadConcurrency := 1 } } {}) calls
      crowded ∧ crowded.permits.queue = [0] ∧ crowded.permits.free = 0 ∧ crowded.outstanding = 1 := by
  obtain ⟨calls, hr⟩ := crowded_reached
  obtain ⟨_, hsum, _, _, hbusy⟩ := permits_add_up (Core.single 5) () _ {} hr
  have hqueue : crowded.permits.queue = [0] := by decide
  have hgranted : crowded.permits.granted = [] := by decide
  have hfree : crowded.permits.free = 0 := hbusy (by rw [hqueue]; exact List.cons_ne_nil _ _)
  have hone : 0 + ([] : List Nat).length + crowded.outstanding = 1 := by
    rw [hfree, hgranted] at hsum
    exact hsum
  exact ⟨calls, hr, hqueue, hfree, by simpa using hone⟩

/-- The first of the two loads has its report, and its permit is the other's now, who has not had
its turn. -/
def handedOver : Engine Unit :=
  resume (Core.single 5) { crowded with now := 15 }
    { id := 1
      job := .loading .one
        [.asking 0 ⟨"auto", .listed, 5000, .inr ⟨10, some 15, some 5000⟩⟩] }

theorem permit_neither_free_nor_out : ∃ calls,
    Run (Core.single 5) (Engine.new () { scheduler := { reloadConcurrency := 1 } } {}) calls
      handedOver ∧ handedOver.permits.granted = [0] ∧
    handedOver.permits.free + handedOver.outstanding ≠
      max 1 (({} : Overrides).apply
        { scheduler := { reloadConcurrency := 1 } }).scheduler.reloadConcurrency := by
  obtain ⟨calls, hr⟩ : Reaches (Core.single 5)
      (Engine.new () { scheduler := { reloadConcurrency := 1 } } {}) handedOver := by
    refine crowded_reached.trans ?_
    have hwait : crowded.Allows (.wait 15 : Action Unit) := (by decide : crowded.now ≤ 15)
    refine (reaches_perform _ (a := .wait 15) hwait).trans ?_
    exact reaches_perform _ (a := .resume _) (List.mem_of_getElem? (i := 0) rfl)
  exact ⟨calls, hr, by decide, by decide⟩

end ProxyPulse.Engine
