import ProxyPulse.Proofs.Engine.Convergence

namespace ProxyPulse

def Deed.isAsk : Deed → Bool
  | .asked => true
  | _ => false

def asksOf (D : List (Nat × Deed)) : Nat :=
  D.countP (·.2.isAsk)

def JustBack (now : Nat) (D : List (Nat × Deed)) : Prop :=
  ∃ before found triggering, D = before ++ [(now, .polled found triggering)]

def Timely (plan : SessionPlan) (start : Nat) (before : List (Nat × Deed)) : Nat × Deed → Prop
  | (now, .asked) => start + (asksOf before + 1) * plan.pollInterval ≤ now ∧
      (now ≤ start + plan.budget.maxWait ∨ JustBack now before)
  | (now, .ended .timedOut) => start + plan.budget.maxWait ≤ now ∧
      now < start + (asksOf before + 1) * plan.pollInterval ∧
      (now = start + plan.budget.maxWait ∨ JustBack now before)
  | _ => True

def Punctual (plan : SessionPlan) (start : Nat) (D : List (Nat × Deed)) : Prop :=
  ∀ before deed after, D = before ++ deed :: after → Timely plan start before deed

section

variable {plan : SessionPlan} {start now : Nat} {D : List (Nat × Deed)} {p : Polling}

theorem asksOf_append (D D' : List (Nat × Deed)) : asksOf (D ++ D') = asksOf D + asksOf D' :=
  List.countP_append

theorem outcomes_ended {time : Nat} {outcome : SessionOutcome} (h : (time, .ended outcome) ∈ D) :
    outcomesOf D ≠ [] :=
  List.ne_nil_of_mem (mem_outcomesOf h)

theorem punctual_nil : Punctual plan start [] := by
  intro before deed after h
  cases before <;> cases h

theorem Punctual.snoc (h : Punctual plan start D) {deed : Nat × Deed}
    (hd : Timely plan start D deed) : Punctual plan start (D ++ [deed]) := by
  intro before deed' after heq
  rcases List.eq_nil_or_concat after with rfl | ⟨after', last, rfl⟩
  · obtain ⟨rfl, hlast⟩ := List.append_inj' heq rfl
    exact List.singleton_inj.mp hlast ▸ hd
  · rw [List.concat_eq_append, ← List.cons_append, ← List.append_assoc] at heq
    exact h before deed' after' (List.append_inj' heq rfl).1

theorem Punctual.append (h : Punctual plan start D) {D' : List (Nat × Deed)}
    (hd : ∀ deed ∈ D', ∀ before, Timely plan start before deed) :
    Punctual plan start (D ++ D') := by
  induction D' generalizing D with
  | nil => rwa [List.append_nil]
  | cons deed rest ih =>
    obtain ⟨hdeed, hrest⟩ := List.forall_mem_cons.mp hd
    rw [List.append_cons]
    exact ih (h.snoc (hdeed D)) hrest

inductive Timed (plan : SessionPlan) (start now : Nat) : Option Job → List (Nat × Deed) → Prop
  | opening : now = start → Timed plan start now (some (.opening plan)) []
  | ticking {p : Polling} {D : List (Nat × Deed)} : Punctual plan start D →
    p.deadline = start + plan.budget.maxWait →
    p.due = start + (asksOf D + 1) * plan.pollInterval → asksOf D = (pollsOf D).length →
    now ≤ start + plan.budget.maxWait ∨ JustBack now D →
    Timed plan start now (some (.ticking plan p)) D
  | polling {p : Polling} {D : List (Nat × Deed)} (query : Query) : Punctual plan start D →
    p.deadline = start + plan.budget.maxWait → p.due = start + asksOf D * plan.pollInterval →
    asksOf D = (pollsOf D).length + 1 → Timed plan start now (some (.polling plan p query)) D
  | done {D : List (Nat × Deed)} : Punctual plan start D →
    outcomesOf D ≠ [] ∨ (∃ time, (time, .cutOff) ∈ D) → Timed plan start now none D

theorem Timed.punctual {watch : Option Job} (h : Timed plan start now watch D) :
    Punctual plan start D := by
  cases h with
  | opening => exact punctual_nil
  | ticking hp | polling _ hp | done hp => exact hp

theorem Timed.step {watch watch' : Option Job} {triggering triggering' : Bool} {deeds : List Deed}
    (h : Timed plan start now watch D)
    (hs : Engine.PollStep plan now watch triggering deeds watch' triggering') :
    Timed plan start now watch' (D ++ deeds.map (now, ·)) := by
  have hpunctual := h.punctual
  cases hs with
  | rest | back => rwa [List.map_nil, List.append_nil]
  | cutOff =>
    exact .done (hpunctual.snoc trivial) (.inr ⟨now, List.mem_append_right _ List.mem_cons_self⟩)
  | close hm =>
    exact .done (hpunctual.append (by simp [Timely]))
      (.inl (outcomes_ended (List.mem_append_right _ (List.mem_cons_of_mem _ List.mem_cons_self))))
  | «open» hm =>
    cases h with
    | opening hnow =>
      refine .ticking (punctual_nil.snoc trivial) ?_ ?_ rfl (.inl (by omega))
      · rw [← hnow]
        rfl
      · have hcount : asksOf [(now, .opened)] = 0 := rfl
        show now + plan.pollInterval = start + (asksOf [(now, .opened)] + 1) * plan.pollInterval
        rw [hcount, Nat.zero_add, Nat.one_mul, hnow]
  | ask query hle =>
    cases h with
    | ticking hp hd hdue hasks hnow =>
      have hcount : asksOf (D ++ [(now, .asked)]) = asksOf D + 1 := asksOf_append D _
      have hpolls : pollsOf (D ++ [(now, .asked)]) = pollsOf D :=
        (pollsOf_append D _).trans (List.append_nil _)
      refine .polling query (hp.snoc ⟨hdue ▸ hle, hnow⟩) hd ?_ ?_
      · exact hcount.symm ▸ hdue
      · exact (hcount.trans (congrArg (· + 1) hasks)).trans (by rw [← hpolls]; rfl)
  | timeOut hlt hle =>
    cases h with
    | ticking hp hd hdue hasks hnow =>
      refine .done (hp.snoc ⟨hd ▸ hle, hdue ▸ hlt, ?_⟩)
        (.inl (outcomes_ended (List.mem_append_right _ List.mem_cons_self)))
      exact hnow.imp_left fun h => Nat.le_antisymm h (hd ▸ hle)
  | linger query' =>
    rw [List.map_nil, List.append_nil]
    cases h with
    | polling _ hp hd hdue hasks => exact .polling query' hp hd hdue hasks
  | converge | complete =>
    exact .done (hpunctual.append (by simp [Timely]))
      (.inl (outcomes_ended (List.mem_append_right _ (List.mem_cons_of_mem _ List.mem_cons_self))))
  | @count p query _ found hnot hleft =>
    cases h with
    | polling _ hp hd hdue hasks =>
      have hcount : asksOf (D ++ [(now, .polled found triggering)]) = asksOf D := asksOf_append D _
      refine .ticking (hp.snoc trivial) ?_ ?_ ?_ (.inr ⟨D, found, triggering, rfl⟩)
      · exact (p.next_deadline plan found triggering).trans hd
      · rw [List.map_cons, List.map_nil, hcount, p.next_due plan found triggering, hdue,
          Nat.succ_mul, Nat.add_assoc]
      · rw [List.map_cons, List.map_nil, hcount, pollsOf_append, List.length_append, hasks]
        rfl

end

namespace Engine

variable {σ : Type} {C : Core σ} {e e' : Engine σ} {plan : SessionPlan} {D : List (Nat × Deed)}
  {watch : Option Job} {start : Nat}

theorem Timed.elapse (h : Timed plan start e.now watch D) {time : Nat}
    (hp : Prompt e (.wait time)) (hcrew : PollCrew plan watch { e with now := time }) :
    Timed plan start time watch D := by
  have htask {job : Job} (hj : some job = watch) : ∃ t ∈ e.tasks, t.job = job := by
    obtain ⟨trigger, hperm, _⟩ := hcrew.crew
    have hmem : job ∈ Engine.crew { e with now := time } plan.session := by
      rw [hperm.mem_iff, ← hj]
      exact List.mem_append_left _ List.mem_cons_self
    exact (mem_crew.mp hmem).2
  cases h with
  | opening hnow =>
    obtain ⟨t, ht, hj⟩ := htask rfl
    exact absurd (by rw [hj]; exact List.mem_cons_self) (hp.no_turn ht)
  | ticking hpunctual hd hdue hasks hnow =>
    obtain ⟨t, ht, hj⟩ := htask rfl
    have hle : time ≤ start + plan.budget.maxWait := by
      rw [← hd]
      exact hp.le_moment ht (by rw [hj]; exact List.mem_cons_of_mem _ List.mem_cons_self)
    exact .ticking hpunctual hd hdue hasks (.inl hle)
  | polling query hpunctual hd hdue hasks => exact .polling query hpunctual hd hdue hasks
  | done hpunctual hend => exact .done hpunctual hend

theorem Course.timed (h : Course (Acts C (deeds C plan.session) Prompt) e D e') (hsound : Sound e)
    (hg : plan.strategy = .group) (hopen : .opening plan ∈ e.crew plan.session) :
    ∃ watch, Timed plan e.now e'.now watch D := by
  obtain ⟨watch, _, ht⟩ := polls_keep (I := fun e' watch D => Timed plan e.now e'.now watch D)
    (fun e₁ a watch watch' D hsound ha hp hcrew hstep ht => by
      have ht := ht.step hstep
      by_cases hw : ∃ time, a = .wait time
      · obtain ⟨time, rfl⟩ := hw
        exact Timed.elapse ht hp hcrew
      · rw [perform_now C hsound.coherent ha fun time ht => hw ⟨time, ht⟩]
        exact ht)
    hg hsound hopen (.opening rfl) h
  exact ⟨watch, ht⟩

/-- A poll starts after the time of its session is over only at the moment at which the poll before
it comes back, having been due before that; otherwise the session times out then and there. So where
every poll is back before the next one is due, no poll starts late. -/
theorem late_polls_follow_slow_ones (he : Reachable C e) (hg : plan.strategy = .group)
    (hopen : .opening plan ∈ e.crew plan.session)
    (h : Course (Acts C (deeds C plan.session) Prompt) e D e') :
    (∀ before now after, D = before ++ (now, .asked) :: after →
      e.now + (asksOf before + 1) * plan.pollInterval ≤ now ∧
        (now ≤ e.now + plan.budget.maxWait ∨ JustBack now before)) ∧
    (∀ before now after, D = before ++ (now, .ended .timedOut) :: after →
      e.now + plan.budget.maxWait ≤ now ∧
        now < e.now + (asksOf before + 1) * plan.pollInterval ∧
        (now = e.now + plan.budget.maxWait ∨ JustBack now before)) ∧
    (outcomesOf D = [] → (∀ time, (time, .cutOff) ∉ D) → e.now + plan.budget.maxWait < e'.now →
      asksOf D = (pollsOf D).length + 1 ∨ JustBack e'.now D) ∧
    ((∀ before now found triggering after, D = before ++ (now, .polled found triggering) :: after →
        now < e.now + (asksOf before + 1) * plan.pollInterval) →
      ∀ now, (now, .asked) ∈ D → now ≤ e.now + plan.budget.maxWait) := by
  obtain ⟨watch, ht⟩ := h.timed he.sound hg hopen
  have hpunctual := ht.punctual
  refine ⟨fun before now after hD => hpunctual before _ after hD,
    fun before now after hD => hpunctual before _ after hD, fun hrun hnot hlate => ?_,
    fun hquick now hmem => ?_⟩
  · cases ht with
    | opening hnow => omega
    | ticking _ _ _ _ hnow => exact .inr (hnow.resolve_left (Nat.not_le.mpr hlate))
    | polling _ _ _ _ hasks => exact .inl hasks
    | done _ hend =>
      rcases hend with hend | ⟨time, hmem⟩
      · exact absurd hrun hend
      · exact absurd hmem (hnot time)
  · obtain ⟨before, after, hD⟩ := List.append_of_mem hmem
    obtain ⟨hdue, hnow⟩ := hpunctual before _ after hD
    rcases hnow with hle | ⟨init, found, triggering, rfl⟩
    · exact hle
    · -- the poll that was just back had been due before
      have hcount : asksOf (init ++ [(now, .polled found triggering)]) = asksOf init :=
        asksOf_append init _
      have hsplit : D = init ++ (now, .polled found triggering) :: (now, .asked) :: after := by
        rw [hD, List.append_assoc]
        rfl
      have := hquick init now found triggering _ hsplit
      rw [hcount] at hdue
      omega

def slowRun : List (Nat × Deed) × Engine Unit :=
  play (Core.single 4500) (deeds (Core.single 4500) 1) 12 (single 4500 .group)

theorem slowRun_course : Course (Acts (Core.single 4500) (deeds (Core.single 4500) 1) Prompt)
    (single 4500 .group) slowRun.1 slowRun.2 :=
  play_course _ _ 12 _

theorem third_poll_slow : (18500, .asked) ∈ slowRun.1 := by
  have hask : slowRun.1[5]?.map
      (fun deed => (deed.1, deed.2.isAsk)) = some (18500, true) := by decide
  obtain ⟨⟨now, deed⟩, hd, heq⟩ := Option.map_eq_some_iff.mp hask
  obtain ⟨rfl, hdeed⟩ := Prod.mk.inj heq
  cases deed with
  | asked => exact List.mem_of_getElem? hd
  | _ => cases hdeed

/-- A session that may wait for eight seconds starts its third poll nine and a half seconds after
its own start. -/
theorem poll_after_the_deadline :
    let e := single 4500 .group
    Reachable (Core.single 4500) e ∧ .opening (singlePlan .group) ∈ e.crew 1 ∧
      Course (Acts (Core.single 4500) (deeds (Core.single 4500) 1) Prompt) e slowRun.1 slowRun.2 ∧
      ∃ now, (now, .asked) ∈ slowRun.1 ∧ e.now + (singlePlan .group).budget.maxWait < now :=
  ⟨single_reachable 4500 .group, opening_of_first rfl, slowRun_course, 18500,
    third_poll_slow, by decide⟩

theorem late_polls_follow_slow_ones_slow :
    ∃ before after, slowRun.1 = before ++ (18500, .asked) :: after ∧ JustBack 18500 before := by
  obtain ⟨hasked, _⟩ := late_polls_follow_slow_ones (single_reachable 4500 .group) rfl
    (opening_of_first rfl) slowRun_course
  obtain ⟨before, after, hD⟩ := List.append_of_mem third_poll_slow
  have hlate : ¬ 18500 ≤ (single 4500 .group).now + (singlePlan .group).budget.maxWait := by decide
  exact ⟨before, after, hD, (hasked before 18500 after hD).2.resolve_left hlate⟩

end Engine

end ProxyPulse
