import ProxyPulse.Proofs.Engine.Turns

namespace ProxyPulse

def Job.targets : Job → List (Nat × String)
  | .loading _ loads => loads.filterMap fun load =>
    match load with
    | .asking index query => some (index, query.group)
    | .done _ => none
  | .choosing choice _ => [(choice.index, choice.group)]
  | job => job.plan?.toList.map fun plan => (plan.index, plan.group)

namespace Engine

variable {σ : Type} {P : Mark → Prop} {e e' : Engine σ}

theorem Move.registry_step {m : Option Mark} (h : Move m e e') :
    e'.registry = e.registry ∨ e.registry.Step e'.registry := by
  cases h with
  | quiet hq => exact .inl hq.registry
  | retask => exact .inl rfl
  | park => exact .inl rfl
  | write w hw => exact .inr (.write w)
  | settings overrides hb => exact .inr (.set hb)
  | resort now => exact .inr (.resort now)
  | count | yield => exact .inl rfl
  | @«open» e index g hg hu => exact .inr (.write (.setTesting index g.name true))
  | @close e index s outcome hs hu => exact .inr (.write (.setTesting index s.group false))
  | swap names hs hn => exact .inr (.replace names)
  | clock => exact .inl rfl

theorem Moves.registry_reachable (h : Moves P e e') (hr : e.registry.Reachable) :
    e'.registry.Reachable := by
  induction h with
  | refl => exact hr
  | tail _ hm ih =>
    obtain ⟨m, _, hm⟩ := hm
    rcases hm.registry_step with he | hs
    · exact he ▸ ih
    · exact ih.step hs

theorem Run.registry_reachable {C : Core σ} {calls : List (TestCall σ)} (h : Run C e calls e')
    (hc : Coherent e) (hr : e.registry.Reachable) : e'.registry.Reachable :=
  h.keeps (fun _ _ hc ha hr => (perform_moves C hc ha).registry_reachable hr) hc hr

theorem Reachable.registry {C : Core σ} (h : Reachable C e) : e.registry.Reachable := by
  obtain ⟨core, config, overrides, calls, hr⟩ := h
  exact hr.registry_reachable (new_coherent core config overrides) (.start _)

theorem write_content {r : Registry} {w : Registry.Write} {j : Nat}
    (h : (w.apply r).1.board.content j ≠ r.board.content j) :
    j = w.index ∧ r.names[j]? = some w.name := by
  apply Registry.Write.target_of_changed
  intro he
  rw [Board.content, he] at h
  exact h rfl

theorem Moves.content (h : Moves P e e') (hs : ¬ P .swap) (hr : ¬ P .resort) :
    e'.registry.names = e.registry.names ∧
      ∀ j, e'.board.content j ≠ e.board.content j →
        ∃ name, P (.write j name) ∧ e.registry.names[j]? = some name := by
  induction h with
  | refl => exact ⟨rfl, fun j hj => absurd rfl hj⟩
  | @tail e₁ e₂ _ hm ih =>
    obtain ⟨m, hP, hm⟩ := hm
    obtain ⟨hnames, hcontent⟩ := ih
    have hsame (hn : e₂.registry.names = e₁.registry.names)
        (hb : ∀ j, e₂.board.content j = e₁.board.content j) :
        e₂.registry.names = e.registry.names ∧
          ∀ j, e₂.board.content j ≠ e.board.content j →
            ∃ name, P (.write j name) ∧ e.registry.names[j]? = some name :=
      ⟨hn.trans hnames, fun j hj => hcontent j (hb j ▸ hj)⟩
    cases hm with
    | quiet hq =>
      exact hsame (congrArg Registry.names hq.registry) fun j => by rw [hq.board]
    | retask | park | count | yield | clock => exact hsame rfl fun _ => rfl
    | write w hw =>
      refine ⟨(Registry.Write.names_apply _ w).trans hnames, fun j hj => ?_⟩
      by_cases he : (e₁.write w.apply).board.content j = e₁.board.content j
      · exact hcontent j (he ▸ hj)
      · obtain ⟨rfl, hn⟩ := write_content he
        exact ⟨w.name, hP _ rfl, hnames ▸ hn⟩
    | settings overrides hb => exact hsame rfl hb.same.content
    | resort now => exact absurd (hP _ rfl) hr
    | @«open» _ index g hg hu =>
      exact hsame (openSession_names _ index _ g) (Registry.setTesting_content _ index g.name true)
    | @close _ index s outcome hs hu =>
      exact hsame (closeSession_names _ index s outcome)
        (Registry.setTesting_content _ index s.group false)
    | swap => exact absurd (hP _ rfl) hs

theorem May.targets {job : Job} {i : Nat} {name : String} (h : May job (.write i name)) :
    (i, name) ∈ job.targets := by
  cases h with
  | load hl => exact List.mem_filterMap.mpr ⟨_, hl, rfl⟩
  | choose => exact List.mem_singleton_self _
  | «show» hp =>
    cases job with
    | opening p | ticking p polling | polling p polling query
    | collecting p missing deadline inbox =>
      cases hp
      exact List.mem_singleton_self _
    | _ => cases hp

theorem May.not_resort {job : Job} : ¬ May job .resort :=
  fun h => nomatch h

theorem May.of_swap {job : Job} (h : May job .swap) :
    ∃ attempt selectableOnly call, job = .naming attempt selectableOnly call := by
  cases h
  exact ⟨_, _, _, rfl⟩

theorem applyNames_names (e : Engine σ) (names : List String) :
    (e.applyNames names).1.registry.names = names := by
  unfold applyNames
  split
  · assumption
  · dsimp only
    split <;> exact Registry.replace_names _ _

theorem loadAll_names (C : Core σ) (e : Engine σ) (goal : LoadGoal) :
    (loadAll C e goal).1.registry.names = e.registry.names := by
  have hq := startLoads_quiet C e (List.range e.registry.names.length)
  exact congrArg Registry.names hq.registry

theorem takeNames_cases (C : Core σ) (e : Engine σ) (attempt : Option Attempt)
    (answer : Answer (List String)) :
    Yields (fun _ => False) e (takeNames C e attempt answer) ∨
      (takeNames C e attempt answer).1.registry.names ≠ e.registry.names := by
  unfold takeNames
  split
  · exact .inl (retry_yields C e _)
  · exact .inl (retry_yields C e _)
  · next names _ =>
    by_cases hn : e.registry.names = names
    · rw [applyNames, if_pos hn]
      exact .inl (load_yields C e _ _)
    · refine .inr ?_
      rw [loadAll_names, applyNames_names]
      exact Ne.symm hn
  · exact .inl (yields_done (.refl _ e) _)
  · next names =>
    by_cases hn : e.registry.names = names
    · rw [applyNames, if_pos hn]
      exact .inl (yields_done (.refl _ e) _)
    · refine .inr ?_
      dsimp only
      split
      · rw [loadAll_names, applyNames_names]
        exact Ne.symm hn
      · rw [applyNames_names]
        exact Ne.symm hn

theorem stepNaming_cases (C : Core σ) (e : Engine σ) (attempt : Option Attempt)
    (selectableOnly : Bool) (call : Call) :
    Yields (fun _ => False) e (stepRequest C e (.naming attempt selectableOnly call)) ∨
      (stepRequest C e (.naming attempt selectableOnly call)).1.registry.names ≠
        e.registry.names := by
  unfold stepRequest
  dsimp only
  split
  · next he => exact .inl (yields_wait (hear_moves e _ _ he) rfl)
  · next e₁ answer he =>
    have hq := hear_quiet call (C.names selectableOnly) e
    rw [he] at hq
    have hq := hq.trans (note_quiet (.names selectableOnly) answer e₁)
    rcases takeNames_cases C (note (.names selectableOnly) answer e₁) attempt answer with hy | hn
    · exact .inl (.after hq.moves hy)
    · rw [hq.registry] at hn
      exact .inr hn

theorem park_registry (e : Engine σ) (t : Task) (job : Option Job) :
    (e.park t job).registry = e.registry := by
  cases job <;> rfl

theorem stepJob_naming (C : Core σ) (e : Engine σ) (id : Nat) (attempt : Option Attempt)
    (selectableOnly : Bool) (call : Call) :
    (stepJob C e id (.naming attempt selectableOnly call)).1.registry =
      (stepRequest C e (.naming attempt selectableOnly call)).1.registry :=
  (afterRequest_quiet id _).registry

theorem resume_naming (C : Core σ) {t : Task} {attempt : Option Attempt} {selectableOnly : Bool}
    {call : Call} (hjob : t.job = .naming attempt selectableOnly call)
    (hn : (resume C e t).registry.names = e.registry.names) (j : Nat) :
    (resume C e t).board.content j = e.board.content j := by
  unfold resume at hn ⊢
  dsimp only at hn ⊢
  split
  · rw [board, (abandonJob_quiet _ _).registry]
    rfl
  · next ha =>
    rw [if_neg ha] at hn
    rw [hjob] at hn ⊢
    rw [board, park_registry, stepJob_naming]
    rw [park_registry, stepJob_naming] at hn
    rcases stepNaming_cases C (e.without t) attempt selectableOnly call with hy | hne
    · obtain ⟨_, hc⟩ := hy.moves.content id id
      by_cases hj : (stepRequest C (e.without t)
          (.naming attempt selectableOnly call)).1.board.content j = (e.without t).board.content j
      · exact hj
      · obtain ⟨_, hf, _⟩ := hc j hj
        exact hf.elim
    · exact absurd hn hne

theorem resume_content (C : Core σ) (h : Coherent e) {t : Task} (ht : t ∈ e.tasks)
    (hn : (resume C e t).registry.names = e.registry.names) {j : Nat}
    (hj : (resume C e t).board.content j ≠ e.board.content j) :
    ∃ name, (j, name) ∈ t.job.targets ∧ e.registry.names[j]? = some name := by
  have hm := resume_moves C h ht
  -- only a task that brings names may swap, and one that swaps changes the names
  by_cases hs : May t.job .swap
  · obtain ⟨attempt, selectableOnly, call, hjob⟩ := hs.of_swap
    exact absurd (resume_naming C hjob hn j) hj
  · obtain ⟨_, hc⟩ := hm.content hs May.not_resort
    obtain ⟨name, hmay, hname⟩ := hc j hj
    exact ⟨name, hmay.targets, hname⟩

/-- Every name has its record, a write changes only the record of its group and is lost where that is
gone, and so is every result that a task of the engine waits for. -/
theorem results_find_their_group {r : Registry} (hr : r.Reachable) {C : Core σ}
    (h : Reachable C e) :
    (∀ i, i ∈ r.board.records ↔ i < r.names.length) ∧
    (∀ (i : Nat) (x : Record), r.board.records[i]? = some x →
      x.index = i ∧ r.names[i]? = some x.group.name) ∧
    (∀ (w : Registry.Write) (j : Nat),
      (w.apply r).1.board.records[j]? ≠ r.board.records[j]? →
        j = w.index ∧ r.names[j]? = some w.name) ∧
    (∀ w : Registry.Write, r.names[w.index]? ≠ some w.name → w.apply r = (r, false)) ∧
    e.registry.Reachable ∧
    ∀ t ∈ e.tasks, (resume C e t).registry.names = e.registry.names →
      ∀ j, (resume C e t).board.content j ≠ e.board.content j →
        ∃ name, (j, name) ∈ t.job.targets ∧ e.registry.names[j]? = some name := by
  have ha := hr.aligned
  refine ⟨ha.mem_iff, fun i x hx => ⟨ha.indexed i x hx, ha.name hx⟩,
    fun w j hj => Registry.Write.target_of_changed hj, fun w hw => ?_, h.registry,
    fun t ht hn j hj => resume_content C h.coherent ht hn hj⟩
  apply Registry.Write.apply_of_not_holds
  simpa [Registry.holds] using hw

theorem results_find_their_group_swapped :
    let r := ((single 0 .group).registry.replace ["other"]).1
    0 ∈ r.board.records ∧
      (Registry.Write.setSelection 0 "auto" "direct").apply r = (r, false) := by
  intro r
  have he := single_reachable 0 .group
  have hr : r.Reachable := .step he.registry (.replace ["other"])
  obtain ⟨hrecords, _, _, hlate, _⟩ := results_find_their_group hr he
  refine ⟨(hrecords 0).mpr ?_, hlate _ ?_⟩
  · decide
  · decide

end Engine

end ProxyPulse
