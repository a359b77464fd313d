import ProxyPulse.Proofs.Engine.Turns

namespace ProxyPulse.Engine

variable {σ : Type} {e e' : Engine σ}

inductive Asked (e : Engine σ) (index : Nat) : Engine σ × TestRequest → Prop
  | skipped : Asked e index (e, .skipped)
  | unknown : e.registry.group? index = none → Asked e index (e, .unknownGroup)
  | empty {g : Group} : e.registry.group? index = some g → g.members = [] →
    Asked e index (e, .emptyGroup)
  | coalesced {g : Group} {s : Session} : e.registry.group? index = some g → g.members ≠ [] →
    e.sessions[index]? = some s → e.isYoung s = true →
    Asked e index ({ e with nextSession := e.nextSession + 1 }, .coalesced s.id)
  | started {g : Group} {e' : Engine σ} : e.registry.group? index = some g →
    (∀ s, e.sessions[index]? = some s → e.isYoung s = false) →
    e'.sessions = e.sessions.insert index ⟨e.nextSession, g.name, e.now⟩ →
    e'.nextSession = e.nextSession + 1 →
    e'.books = .activeSessions e'.sessions.size ::
      ((e.sessions[index]?.map fun _ => .sessionEnded .stopped).toList ++ e.books) →
    Asked e index (e', .started e.nextSession)

theorem requestTest_asked (e : Engine σ) (index : Nat) : Asked e index (e.requestTest index) := by
  unfold requestTest
  split
  · next hg => exact .unknown hg
  · next g hg =>
    split
    · next hm => exact .empty hg (List.isEmpty_iff.mp hm)
    · next hm =>
      have hm : g.members ≠ [] := by simpa using hm
      dsimp only
      split
      · next hn =>
        exact .started hg (fun s hs => by rw [hn] at hs; cases hs) rfl rfl (by rw [hn]; rfl)
      · next running hr =>
        split
        · next hy => exact .coalesced hg hm hr hy
        · next hy =>
          refine .started hg (fun s hs => ?_) rfl rfl (by rw [hr]; rfl)
          have he : s = running := Option.some.inj (hs.symm.trans hr)
          rw [he]
          exact Bool.eq_false_iff.mpr hy

theorem testCall_asked (c : TestCall σ) : Asked c.engine c.index (c.after, c.answer) := by
  show Asked c.engine c.index c.outcome
  unfold TestCall.outcome
  split
  · unfold requestBackgroundTest
    dsimp only
    split
    · exact .skipped
    · exact requestTest_asked c.engine c.index
  · exact requestTest_asked c.engine c.index

theorem testCall_entries (c : TestCall σ) {i : Nat} {s : Session}
    (hs : c.after.sessions[i]? = some s) :
    c.engine.sessions[i]? = some s ∨
      c.answer = .started s.id ∧ c.index = i ∧ c.engine.now = s.startedAt := by
  have h := testCall_asked c
  generalize c.after = e at hs h
  generalize c.answer = answer at h
  cases h with
  | skipped | unknown | empty | coalesced => exact .inl hs
  | started hg hy hins hnext _ =>
    rw [hins] at hs
    rcases entry_insert hs with ⟨rfl, rfl⟩ | ⟨_, hs⟩
    · exact .inr ⟨rfl, rfl, rfl⟩
    · exact .inl hs

theorem testCall_started (c : TestCall σ) {id : Nat} (h : c.answer = .started id) :
    id = c.engine.nextSession ∧ c.after.nextSession = id + 1 ∧
      ∀ s, c.engine.sessions[c.index]? = some s → c.engine.isYoung s = false := by
  have ha := testCall_asked c
  generalize c.after = e at ha ⊢
  generalize c.answer = answer at h ha
  cases ha with
  | skipped | unknown | empty | coalesced => cases h
  | started hg hy hins hnext _ =>
    cases h
    exact ⟨rfl, hnext, hy⟩

theorem testCall_young (c : TestCall σ) {g : Group} {s : Session}
    (hg : c.engine.registry.group? c.index = some g) (hm : g.members ≠ [])
    (hs : c.engine.sessions[c.index]? = some s) (hy : c.engine.isYoung s = true)
    (hskip : c.answer ≠ .skipped) :
    c.answer = .coalesced s.id ∧
      c.after = { c.engine with nextSession := c.engine.nextSession + 1 } := by
  have ha := testCall_asked c
  generalize c.after = e at ha ⊢
  generalize c.answer = answer at hskip ha ⊢
  cases ha with
  | skipped => exact absurd rfl hskip
  | unknown hn => rw [hn] at hg; cases hg
  | empty hg' hm' =>
    have he := Option.some.inj (hg.symm.trans hg')
    exact absurd (he ▸ hm') hm
  | coalesced hg' hm' hs' hy' =>
    have he := Option.some.inj (hs.symm.trans hs')
    exact ⟨by rw [he], rfl⟩
  | started hg' hy' =>
    rw [hy' s hs] at hy
    cases hy

theorem Moves.entries (h : Moves (· ≠ .ask) e e') {i : Nat} {s : Session}
    (hs : e'.sessions[i]? = some s) : e.sessions[i]? = some s := by
  induction h with
  | refl => exact hs
  | tail _ hm ih =>
    obtain ⟨m, hP, hm⟩ := hm
    apply ih
    cases hm with
    | quiet hq => rw [← hq.sessions]; exact hs
    | close outcome hs' hu => exact (entry_erase hs).2
    | count | yield => exact absurd rfl (hP _ rfl)
    | «open» => exact absurd rfl (hP _ rfl)
    | _ => exact hs

def Yielding (c d : TestCall σ) : Prop :=
  c.index = d.index → ∀ s t, c.answer = .started s → d.answer = .started t →
    (∀ (i : Nat) (x : Session), d.engine.sessions[i]? = some x → x.id ≠ s) ∨
      d.engine.config.scheduler.inProgressTimeout ≤ d.engine.now - c.engine.now

structure History (calls : List (TestCall σ)) (e : Engine σ) : Prop where
  entries : ∀ (i : Nat) (s : Session), e.sessions[i]? = some s →
    ∃ c ∈ calls, c.answer = .started s.id ∧ c.index = i ∧ c.engine.now = s.startedAt
  used : ∀ c ∈ calls, ∀ id, c.answer = .started id → id < e.nextSession
  fresh : calls.Pairwise fun c d => ∀ id, c.answer = .started id → d.answer ≠ .started id
  yielding : calls.Pairwise Yielding

theorem History.started_of {calls : List (TestCall σ)} (h : History calls e) {i s : Nat}
    (hs : e.sessions[i]?.map Session.id = some s) : ∃ c ∈ calls, c.answer = .started s := by
  obtain ⟨x, hx, rfl⟩ := Option.map_eq_some_iff.mp hs
  obtain ⟨c, hc, hstarted, _⟩ := h.entries i x hx
  exact ⟨c, hc, hstarted⟩

theorem History.unique {calls : List (TestCall σ)} (h : History calls e) {c d : TestCall σ}
    (hc : c ∈ calls) (hd : d ∈ calls) {id : Nat} (hci : c.answer = .started id)
    (hdi : d.answer = .started id) : c = d := by
  by_cases hcd : c = d
  · exact hcd
  · have hsym : Std.Symm fun c d : TestCall σ =>
        ∀ id, c.answer = .started id → d.answer ≠ .started id :=
      ⟨fun c d h id hd hc => h id hc hd⟩
    exact absurd hdi (h.fresh.forall hc hd hcd id hci)

theorem History.yields {calls : List (TestCall σ)} (h : History calls e) {a d : TestCall σ}
    (ha : a ∈ calls) (hm : Moves (· ≠ .ask) e d.engine) : Yielding a d := by
  intro hindex s t hs ht
  by_cases hgone : ∀ (i : Nat) (x : Session), d.engine.sessions[i]? = some x → x.id ≠ s
  · exact .inl hgone
  · simp only [not_forall, not_not] at hgone
    obtain ⟨i, x, hx, hid⟩ := hgone
    -- ids are never given out twice, so the session stands where its own request asked for it
    obtain ⟨c, hc, hstarted, hci, hnow⟩ := h.entries i x (hm.entries hx)
    have hca : c = a := h.unique hc ha (hid ▸ hstarted) hs
    subst hca
    have hold := (testCall_started d ht).2.2 x (by rw [← hindex, hci]; exact hx)
    rw [isYoung, decide_eq_false_iff_not, Nat.not_lt, ← hnow] at hold
    exact .inr hold

theorem History.via {calls new : List (TestCall σ)} (h : History calls e) (hc : Coherent e)
    (hv : Via e new e') : History (calls ++ new) e' := by
  cases hv with
  | silent hm =>
    rw [List.append_nil]
    have hnext := (hm.follows hc).next
    exact ⟨fun i s hs => h.entries i s (hm.entries hs),
      fun c hcm id hid => Nat.lt_of_lt_of_le (h.used c hcm id hid) hnext, h.fresh, h.yielding⟩
  | ask c hm hm' =>
    have hbefore := (hm.follows hc).next
    have hcall := testCall_moves (P := fun _ => True) c trivial
    have hcoh := hm.coherent hc
    have hbetween := (hcall.follows hcoh).next
    have hafter := (hm'.follows (hcall.coherent hcoh)).next
    constructor
    case entries =>
      intro i s hs
      rcases testCall_entries c (hm'.entries hs) with hs | hstarted
      · obtain ⟨d, hd, hrest⟩ := h.entries i s (hm.entries hs)
        exact ⟨d, List.mem_append_left _ hd, hrest⟩
      · exact ⟨c, by simp, hstarted⟩
    case used =>
      intro d hd id hid
      rcases List.mem_append.mp hd with hd | hd
      · have := h.used d hd id hid
        omega
      · rw [List.mem_singleton.mp hd] at hid
        have := (testCall_started c hid).2.1
        omega
    case fresh =>
      refine List.pairwise_append.mpr ⟨h.fresh, List.pairwise_singleton _ _, ?_⟩
      intro a ha d hd id hai hdi
      rw [List.mem_singleton.mp hd] at hdi
      have hnew := (testCall_started c hdi).1
      have hold := h.used a ha id hai
      omega
    case yielding =>
      refine List.pairwise_append.mpr ⟨h.yielding, List.pairwise_singleton _ _, ?_⟩
      intro a ha d hd
      rw [List.mem_singleton.mp hd]
      exact h.yields ha hm

theorem Run.history {C : Core σ} {core : σ} {config : Config} {overrides : Overrides}
    {calls : List (TestCall σ)} (h : Run C (Engine.new core config overrides) calls e) :
    History calls e := by
  induction h with
  | refl => exact ⟨fun i s hs => by simp [Engine.new] at hs, by simp, .nil, .nil⟩
  | step hr ha ih =>
    have hc := hr.coherent (new_coherent core config overrides)
    exact ih.via hc (perform_via C hc ha)

/-- A group has one test at a time: a second session starts only when the first has left the table
or is overdue, and a request that finds a young session is answered with it and does nothing. -/
theorem one_test_at_a_time {C : Core σ} {core : σ} {config : Config} {overrides : Overrides}
    {calls : List (TestCall σ)} (h : Run C (Engine.new core config overrides) calls e) :
    calls.Pairwise (fun c d => c.index = d.index →
      ∀ s t, c.answer = .started s → d.answer = .started t →
        (∀ (i : Nat) (x : Session), d.engine.sessions[i]? = some x → x.id ≠ s) ∨
          d.engine.config.scheduler.inProgressTimeout ≤ d.engine.now - c.engine.now) ∧
    (∀ c ∈ calls, ∀ (g : Group) (x : Session),
      c.engine.registry.group? c.index = some g → g.members ≠ [] →
      c.engine.sessions[c.index]? = some x →
      c.engine.now - x.startedAt < c.engine.config.scheduler.inProgressTimeout →
      c.answer ≠ .skipped →
        c.answer = .coalesced x.id ∧
          c.after = { c.engine with nextSession := c.engine.nextSession + 1 }) ∧
    ∀ (i : Nat) (x : Session), e.sessions[i]? = some x →
      ∃ c ∈ calls, c.answer = .started x.id ∧ c.index = i ∧ c.engine.now = x.startedAt := by
  have hh := h.history
  refine ⟨hh.yielding, fun c _ g x hg hm hx hy hskip => ?_, hh.entries⟩
  exact testCall_young c hg hm hx (decide_eq_true hy) hskip

theorem one_test_at_a_time_single :
    ∃ x, (single 0 .group).sessions[0]? = some x ∧
      (⟨single 0 .group, 0, false⟩ : TestCall Unit).answer = .coalesced x.id := by
  obtain ⟨core, config, overrides, calls, hr⟩ := single_reachable 0 .group
  have hr := hr.step (a := .test 0) trivial
  obtain ⟨_, hyoung, _⟩ := one_test_at_a_time hr
  have hgroup : ((single 0 .group).registry.group? 0).any (fun g => !g.members.isEmpty) = true := by
    decide
  obtain ⟨g, hg, hm⟩ := (Option.any_eq_true _ _).mp hgroup
  have hsession : (single 0 .group).sessions[0]?.isSome = true := by decide
  obtain ⟨x, hx⟩ := Option.isSome_iff_exists.mp hsession
  have hnow : (single 0 .group).now = 0 := by decide
  have hlimit : 0 < (single 0 .group).config.scheduler.inProgressTimeout := by decide
  have hmem : ⟨single 0 .group, 0, false⟩ ∈
      calls ++ (single 0 .group).calls (Core.single 0) (.test 0) :=
    List.mem_append_right _ (List.mem_singleton_self _)
  have hage : (single 0 .group).now - x.startedAt <
      (single 0 .group).config.scheduler.inProgressTimeout := by
    omega
  exact ⟨x, hx, (hyoung _ hmem g x hg (by simpa using hm) hx hage (by decide)).1⟩

end ProxyPulse.Engine
