import ProxyPulse.Proofs.Engine.Findings

/-!
How a session that polls comes to its end. It settles at the first poll at which enough polls in a
row have found, with the trigger back, what the last successful poll before them had found; a poll
that fails starts the count anew but leaves open what the next one is compared with.
-/

namespace ProxyPulse

abbrev PollResult := Option DelayTable × Bool

def pollsOf (D : List (Nat × Deed)) : List PollResult :=
  D.filterMap (·.2.poll?)

def outcomesOf (D : List (Nat × Deed)) : List SessionOutcome :=
  D.filterMap (·.2.outcome?)

def lastFound (polls : List PollResult) : Option DelayTable :=
  (polls.filterMap Prod.fst).getLast?

/-- The last polls, so many of them, found what the last successful poll before them had found, and
the trigger was back at each of them. -/
def Settled (count : Nat) (polls : List PollResult) : Prop :=
  ∃ before delays, polls = before ++ List.replicate count (some delays, false) ∧
    lastFound before = some delays

section

variable {polls : List PollResult} {found : Option DelayTable} {delays : DelayTable}
  {triggering : Bool} {count : Nat}

theorem lastFound_snoc_none : lastFound (polls ++ [(none, triggering)]) = lastFound polls := by
  unfold lastFound
  rw [List.filterMap_append]
  exact congrArg _ (List.append_nil _)

theorem lastFound_snoc_some : lastFound (polls ++ [(some delays, triggering)]) = some delays := by
  unfold lastFound
  rw [List.filterMap_append]
  exact List.getLast?_concat

theorem lastFound_replicate {before : List PollResult} (h : lastFound before = some delays) :
    lastFound (before ++ List.replicate count (some delays, triggering)) = some delays := by
  cases count with
  | zero => rwa [List.replicate_zero, List.append_nil]
  | succ count => rw [List.replicate_succ', ← List.append_assoc, lastFound_snoc_some]

theorem settled_succ {poll : PollResult} : Settled (count + 1) (polls ++ [poll]) ↔
    ∃ delays, poll = (some delays, false) ∧ lastFound polls = some delays ∧
      Settled count polls := by
  constructor
  · rintro ⟨before, delays, heq, hlast⟩
    rw [List.replicate_succ', ← List.append_assoc] at heq
    obtain ⟨rfl, hpoll⟩ := List.append_inj' heq rfl
    exact ⟨delays, List.singleton_inj.mp hpoll, lastFound_replicate hlast, before, delays, rfl,
      hlast⟩
  · rintro ⟨delays, rfl, hlast, before, delays', rfl, hlast'⟩
    obtain rfl : delays' = delays := Option.some.inj ((lastFound_replicate hlast').symm.trans hlast)
    refine ⟨before, delays', ?_, hlast'⟩
    rw [List.replicate_succ', List.append_assoc]

theorem Settled.back (h : Settled (count + 1) polls) : ∃ poll ∈ polls, poll.2 = false := by
  obtain ⟨before, delays, rfl, _⟩ := h
  exact ⟨_, List.mem_append_right _ (List.mem_replicate.mpr ⟨Nat.succ_ne_zero _, rfl⟩), rfl⟩

end

structure Polling.Counts (p : Polling) (polls : List PollResult) : Prop where
  last : p.last = lastFound polls
  stable : ∀ count, count + 1 ≤ p.stable ↔ Settled (count + 1) polls

theorem Polling.Counts.anew {p : Polling} {polls : List PollResult} (hl : p.last = lastFound polls)
    (hs : p.stable = 0) (hnot : ∀ count, ¬ Settled (count + 1) polls) : p.Counts polls := by
  refine ⟨hl, fun count => ?_⟩
  rw [hs]
  exact ⟨fun h => absurd h (Nat.not_succ_le_zero _), fun h => absurd h (hnot count)⟩

theorem Polling.Counts.start {p : Polling} (hl : p.last = none) (hs : p.stable = 0) :
    p.Counts [] := by
  refine .anew hl hs fun count h => ?_
  obtain ⟨poll, hp, _⟩ := h.back
  cases hp

theorem Polling.Counts.uncounted {p : Polling} {polls : List PollResult} (h : p.Counts polls)
    (hflags : ∀ poll ∈ polls, poll.2 = true) : p.stable = 0 := by
  rcases Nat.eq_zero_or_pos p.stable with hz | hp
  · exact hz
  · obtain ⟨poll, hmem, hback⟩ := ((h.stable 0).mp hp).back
    rw [hflags poll hmem] at hback
    cases hback

theorem Polling.Counts.again {p : Polling} {polls : List PollResult} (h : p.Counts polls)
    {delays : DelayTable} (hsame : p.last = some delays) :
    { p with stable := p.stable + 1 }.Counts (polls ++ [(some delays, false)]) := by
  have hlast : lastFound polls = some delays := h.last ▸ hsame
  refine ⟨hsame.trans lastFound_snoc_some.symm, fun count => ?_⟩
  rw [settled_succ]
  constructor
  · intro hle
    refine ⟨delays, rfl, hlast, ?_⟩
    cases count with
    | zero => exact ⟨polls, delays, (List.append_nil _).symm, hlast⟩
    | succ count => exact (h.stable count).mp (Nat.le_of_succ_le_succ hle)
  · rintro ⟨delays', _, _, hsettled⟩
    cases count with
    | zero => exact Nat.succ_le_succ (Nat.zero_le _)
    | succ count => exact Nat.succ_le_succ ((h.stable count).mpr hsettled)

theorem Polling.Counts.count {p : Polling} {polls : List PollResult} (h : p.Counts polls)
    {found : Option DelayTable} {triggering : Bool}
    (hflags : triggering = true → ∀ poll ∈ polls, poll.2 = true) :
    (p.count found triggering).Counts (polls ++ [(found, triggering)]) := by
  cases found with
  | none =>
    refine .anew (h.last.trans lastFound_snoc_none.symm) rfl fun count hs => ?_
    obtain ⟨delays, hpoll, _⟩ := settled_succ.mp hs
    cases hpoll
  | some delays =>
    by_cases hsame : p.last = some delays
    · rw [Polling.count, if_pos hsame]
      cases triggering with
      | true =>
        refine .anew (hsame.trans lastFound_snoc_some.symm) (h.uncounted (hflags rfl))
          fun count hs => ?_
        obtain ⟨delays', hpoll, _⟩ := settled_succ.mp hs
        cases hpoll
      | false => exact h.again hsame
    · rw [Polling.count, if_neg hsame]
      refine .anew lastFound_snoc_some.symm rfl fun count hs => ?_
      obtain ⟨delays', hpoll, hlast, _⟩ := settled_succ.mp hs
      cases hpoll
      exact hsame (h.last.trans hlast)

def SessionPlan.patience (plan : SessionPlan) : Nat :=
  max 1 plan.stablePollsRequired

theorem Polling.Counts.isSettled {p p' : Polling} {polls polls' : List PollResult}
    (h : p.Counts polls) (h' : p'.Counts polls') {plan : SessionPlan}
    (hnot : ¬ Settled plan.patience polls) :
    p.isSettled p' plan.stablePollsRequired = true ↔ Settled plan.patience polls' := by
  obtain ⟨count, hcount⟩ : ∃ count, plan.patience = count + 1 :=
    Nat.exists_eq_add_one.mpr (Nat.lt_of_lt_of_le Nat.one_pos (Nat.le_max_left _ _))
  rw [hcount, ← h.stable, ← hcount, Nat.not_le] at hnot
  rw [hcount, ← h'.stable, ← hcount, Polling.isSettled, decide_eq_true_iff]
  unfold SessionPlan.patience at hnot ⊢
  omega

theorem pollsOf_append (D D' : List (Nat × Deed)) : pollsOf (D ++ D') = pollsOf D ++ pollsOf D' :=
  List.filterMap_append

theorem outcomesOf_append (D D' : List (Nat × Deed)) :
    outcomesOf (D ++ D') = outcomesOf D ++ outcomesOf D' :=
  List.filterMap_append

/-- What the deeds of a session that polls have to tell: there is at most one end, and it is the one
that the polls call for. -/
structure Account (plan : SessionPlan) (D : List (Nat × Deed)) : Prop where
  within : (pollsOf D).length ≤ plan.maxPolls
  first : ∀ k < (pollsOf D).length, ¬ Settled plan.patience ((pollsOf D).take k)
  outcomes : outcomesOf D = [] ∨ outcomesOf D = [.converged] ∨ outcomesOf D = [.completed] ∨
    outcomesOf D = [.timedOut]
  converged : outcomesOf D = [.converged] ↔ Settled plan.patience (pollsOf D)
  completed : outcomesOf D = [.completed] ↔ (∃ opened, (opened, .opened) ∈ D) ∧
    (pollsOf D).length = plan.maxPolls ∧ ¬ Settled plan.patience (pollsOf D)
  timedOut : ∀ time, (time, .ended .timedOut) ∈ D →
    ∃ opened, (opened, .opened) ∈ D ∧ opened + plan.budget.maxWait ≤ time

structure Tally (plan : SessionPlan) (D : List (Nat × Deed)) (p : Polling) : Prop where
  counts : p.Counts (pollsOf D)
  left : (pollsOf D).length + p.left = plan.maxPolls
  more : 0 < p.left
  unsettled : ∀ k, ¬ Settled plan.patience ((pollsOf D).take k)
  running : outcomesOf D = []
  opened : ∃ opened, (opened, .opened) ∈ D ∧ p.deadline = opened + plan.budget.maxWait

section

variable {plan : SessionPlan} {D : List (Nat × Deed)} {p : Polling} {now : Nat}

theorem not_settled_nil : ¬ Settled plan.patience [] := by
  obtain ⟨count, hcount⟩ : ∃ count, plan.patience = count + 1 :=
    Nat.exists_eq_add_one.mpr (Nat.lt_of_lt_of_le Nat.one_pos (Nat.le_max_left _ _))
  rw [hcount]
  intro h
  obtain ⟨poll, hp, _⟩ := h.back
  cases hp

theorem mem_outcomesOf {time : Nat} {outcome : SessionOutcome} (h : (time, .ended outcome) ∈ D) :
    outcome ∈ outcomesOf D :=
  List.mem_filterMap.mpr ⟨_, h, rfl⟩

theorem Account.of_running (hle : (pollsOf D).length ≤ plan.maxPolls)
    (hnot : ∀ k, ¬ Settled plan.patience ((pollsOf D).take k)) (hrun : outcomesOf D = [])
    (hmore : (∃ opened, (opened, .opened) ∈ D) → (pollsOf D).length ≠ plan.maxPolls) :
    Account plan D where
  within := hle
  first k _ := hnot k
  outcomes := .inl hrun
  converged := by
    rw [hrun]
    refine ⟨fun h => (nomatch h), fun h => absurd h ?_⟩
    rw [← List.take_length (l := pollsOf D)]
    exact hnot _
  completed := by
    rw [hrun]
    exact ⟨fun h => (nomatch h), fun h => absurd h.2.1 (hmore h.1)⟩
  timedOut time h := by
    have := mem_outcomesOf h
    rw [hrun] at this
    cases this

theorem Tally.account (h : Tally plan D p) : Account plan D := by
  have hleft := h.left
  have hmore := h.more
  exact .of_running (by omega) h.unsettled h.running fun _ => by omega

theorem Tally.unsettled_all (h : Tally plan D p) : ¬ Settled plan.patience (pollsOf D) := by
  rw [← List.take_length (l := pollsOf D)]
  exact h.unsettled _

theorem Tally.beside (h : Tally plan D p) {D' : List (Nat × Deed)} (hp : pollsOf D' = [])
    (ho : outcomesOf D' = []) : Tally plan (D ++ D') p := by
  have hpolls : pollsOf (D ++ D') = pollsOf D := by
    rw [pollsOf_append, hp, List.append_nil]
  have houtcomes : outcomesOf (D ++ D') = outcomesOf D := by
    rw [outcomesOf_append, ho, List.append_nil]
  obtain ⟨opened, hopened, hdeadline⟩ := h.opened
  refine ⟨?_, ?_, h.more, ?_, ?_, opened, List.mem_append_left _ hopened, hdeadline⟩
  · rw [hpolls]; exact h.counts
  · rw [hpolls]; exact h.left
  · rw [hpolls]; exact h.unsettled
  · rw [houtcomes]; exact h.running

theorem Tally.timeOut (h : Tally plan D p) (hd : p.deadline ≤ now) :
    Account plan (D ++ [(now, .ended .timedOut)]) := by
  have hpolls : pollsOf (D ++ [(now, .ended .timedOut)]) = pollsOf D :=
    (pollsOf_append D _).trans (List.append_nil _)
  have houtcomes : outcomesOf (D ++ [(now, .ended .timedOut)]) = [.timedOut] := by
    rw [outcomesOf_append, h.running]
    rfl
  obtain ⟨opened, hopened, hdeadline⟩ := h.opened
  have hleft := h.left
  have hmore := h.more
  constructor
  case within => rw [hpolls]; exact h.account.within
  case first => rw [hpolls]; exact h.account.first
  case outcomes => exact .inr (.inr (.inr houtcomes))
  case converged =>
    rw [houtcomes, hpolls]
    exact ⟨fun he => (nomatch he), fun hs => absurd hs h.unsettled_all⟩
  case completed =>
    rw [houtcomes, hpolls]
    exact ⟨fun he => (nomatch he), fun ⟨_, hn, _⟩ => by omega⟩
  case timedOut =>
    intro time ht
    rcases List.mem_append.mp ht with ht | ht
    · have hmem := mem_outcomesOf ht
      rw [h.running] at hmem
      cases hmem
    · cases List.mem_singleton.mp ht
      exact ⟨opened, List.mem_append_left _ hopened, hdeadline ▸ hd⟩

theorem Tally.settles (h : Tally plan D p) {triggering : Bool}
    (hflags : triggering = true → ∀ poll ∈ pollsOf D, poll.2 = true) (found : Option DelayTable) :
    p.isSettled (p.count found triggering) plan.stablePollsRequired = true ↔
      Settled plan.patience (pollsOf D ++ [(found, triggering)]) :=
  h.counts.isSettled (h.counts.count hflags) h.unsettled_all

theorem take_snoc_unsettled (h : Tally plan D p) {poll : PollResult} {k : Nat}
    (hk : k < (pollsOf D ++ [poll]).length) :
    ¬ Settled plan.patience ((pollsOf D ++ [poll]).take k) := by
  rw [List.length_append, List.length_singleton] at hk
  rw [List.take_append_of_le_length (Nat.le_of_lt_succ hk)]
  exact h.unsettled k

theorem Tally.finish (h : Tally plan D p) {found : Option DelayTable} {triggering : Bool}
    {outcome : SessionOutcome} (ho : outcome = .converged ∨ outcome = .completed)
    (hc : outcome = .converged ↔ Settled plan.patience (pollsOf D ++ [(found, triggering)]))
    (hl : outcome = .completed → p.left ≤ 1) :
    Account plan (D ++ [(now, .polled found triggering), (now, .ended outcome)]) := by
  have hpolls : pollsOf (D ++ [(now, .polled found triggering), (now, .ended outcome)]) =
      pollsOf D ++ [(found, triggering)] :=
    pollsOf_append D _
  have houtcomes : outcomesOf (D ++ [(now, .polled found triggering), (now, .ended outcome)]) =
      [outcome] := by
    rw [outcomesOf_append, h.running]
    rfl
  obtain ⟨opened, hopened, _⟩ := h.opened
  have hleft := h.left
  have hmore := h.more
  constructor
  case within =>
    rw [hpolls, List.length_append, List.length_singleton]
    omega
  case first =>
    rw [hpolls]
    exact fun k hk => take_snoc_unsettled h hk
  case outcomes =>
    rw [houtcomes]
    rcases ho with rfl | rfl
    · exact .inr (.inl rfl)
    · exact .inr (.inr (.inl rfl))
  case converged =>
    rw [houtcomes, hpolls, List.singleton_inj]
    exact hc
  case completed =>
    rw [houtcomes, hpolls, List.singleton_inj, List.length_append, List.length_singleton]
    constructor
    · rintro rfl
      have := hl rfl
      refine ⟨⟨opened, List.mem_append_left _ hopened⟩, by omega, fun hs => ?_⟩
      exact nomatch hc.mpr hs
    · rintro ⟨_, _, hs⟩
      exact ho.resolve_left fun he => hs (hc.mp he)
  case timedOut =>
    intro time ht
    have hmem := mem_outcomesOf ht
    rw [houtcomes, List.mem_singleton] at hmem
    rcases ho with rfl | rfl <;> cases hmem

theorem Tally.next (h : Tally plan D p) {found : Option DelayTable} {triggering : Bool}
    (hflags : triggering = true → ∀ poll ∈ pollsOf D, poll.2 = true)
    (hnot : ¬ Settled plan.patience (pollsOf D ++ [(found, triggering)])) (hl : 1 < p.left) :
    Tally plan (D ++ [(now, .polled found triggering)]) (p.next plan found triggering) := by
  have hpolls : pollsOf (D ++ [(now, .polled found triggering)]) =
      pollsOf D ++ [(found, triggering)] :=
    pollsOf_append D _
  have hcounts : (p.count found triggering).Counts _ := h.counts.count hflags
  obtain ⟨opened, hopened, hdeadline⟩ := h.opened
  have hleft := h.left
  constructor
  case counts =>
    rw [hpolls]
    exact ⟨hcounts.last, hcounts.stable⟩
  case left =>
    rw [hpolls, List.length_append, List.length_singleton]
    show _ + 1 + (p.left - 1) = _
    omega
  case more =>
    show 0 < p.left - 1
    omega
  case unsettled =>
    rw [hpolls]
    intro k
    rcases Nat.lt_or_ge k (pollsOf D ++ [(found, triggering)]).length with hk | hk
    · exact take_snoc_unsettled h hk
    · rw [List.take_of_length_le hk]
      exact hnot
  case running =>
    rw [outcomesOf_append, h.running]
    rfl
  case opened =>
    refine ⟨opened, List.mem_append_left _ hopened, ?_⟩
    exact (p.next_deadline plan found triggering).trans hdeadline

end

inductive Tallied (plan : SessionPlan) : Option Job → Bool → List (Nat × Deed) → Prop
  | opening {triggering : Bool} : Tallied plan (some (.opening plan)) triggering []
  | ticking {triggering : Bool} {D : List (Nat × Deed)} {p : Polling} : Tally plan D p →
    (triggering = true → ∀ poll ∈ pollsOf D, poll.2 = true) →
    Tallied plan (some (.ticking plan p)) triggering D
  | polling {triggering : Bool} {D : List (Nat × Deed)} {p : Polling} (query : Query) :
    Tally plan D p → (triggering = true → ∀ poll ∈ pollsOf D, poll.2 = true) →
    Tallied plan (some (.polling plan p query)) triggering D
  | done {triggering : Bool} {D : List (Nat × Deed)} :
      Account plan D → Tallied plan none triggering D

section

variable {plan : SessionPlan} {watch watch' : Option Job} {triggering triggering' : Bool}
  {D : List (Nat × Deed)} {deeds : List Deed} {now : Nat}

theorem Account.of_unopened (hp : pollsOf D = []) (ho : outcomesOf D = [])
    (hnone : ∀ time, (time, .opened) ∉ D) : Account plan D := by
  refine .of_running (hp ▸ Nat.zero_le _) (fun k => ?_) ho
    fun ⟨time, hmem⟩ => absurd hmem (hnone time)
  rw [hp, List.take_nil]
  exact not_settled_nil

theorem close_account (h : plan.maxPolls = 0) :
    Account plan [(now, .opened), (now, .ended .completed)] where
  within := Nat.zero_le _
  first k hk := absurd hk (Nat.not_lt_zero k)
  outcomes := .inr (.inr (.inl rfl))
  converged := ⟨fun he => (nomatch he), fun hs => absurd hs not_settled_nil⟩
  completed := ⟨fun _ => ⟨⟨now, List.mem_cons_self⟩, h.symm, not_settled_nil⟩, fun _ => rfl⟩
  timedOut time ht := by
    have hmem := mem_outcomesOf ht
    cases List.mem_singleton.mp hmem

theorem open_tally (h : plan.maxPolls ≠ 0) : Tally plan [(now, .opened)] (plan.polling now) where
  counts := .start rfl rfl
  left := Nat.zero_add _
  more := Nat.pos_of_ne_zero h
  unsettled k := by
    show ¬ Settled plan.patience (List.take k [])
    rw [List.take_nil]
    exact not_settled_nil
  running := rfl
  opened := ⟨now, List.mem_cons_self, rfl⟩

theorem Tallied.account (h : Tallied plan watch triggering D) : Account plan D := by
  cases h with
  | opening => exact .of_unopened rfl rfl nofun
  | ticking ht | polling _ ht => exact ht.account
  | done ha => exact ha

theorem Tallied.step (h : Tallied plan watch triggering D)
    (hs : Engine.PollStep plan now watch triggering deeds watch' triggering') :
    Tallied plan watch' triggering' (D ++ deeds.map (now, ·)) := by
  cases hs with
  | rest => rwa [List.map_nil, List.append_nil]
  | back =>
    rw [List.map_nil, List.append_nil]
    cases h with
    | opening => exact .opening
    | ticking ht => exact .ticking ht nofun
    | polling query ht => exact .polling query ht nofun
    | done ha => exact .done ha
  | cutOff =>
    cases h with
    | opening =>
      refine .done (.of_unopened rfl rfl fun time hmem => ?_)
      cases List.mem_singleton.mp hmem
    | ticking ht | polling _ ht => exact .done (ht.beside rfl rfl).account
  | close hm =>
    cases h
    exact .done (close_account hm)
  | «open» hm =>
    cases h
    exact .ticking (open_tally hm) nofun
  | ask query =>
    cases h with
    | ticking ht hflags =>
      have hpolls : pollsOf (D ++ [(now, .asked)]) = pollsOf D :=
        (pollsOf_append D _).trans (List.append_nil _)
      exact .polling query (ht.beside rfl rfl) (hpolls ▸ hflags)
  | timeOut _ hd =>
    cases h with
    | ticking ht => exact .done (ht.timeOut hd)
  | linger query' =>
    rw [List.map_nil, List.append_nil]
    cases h with
    | polling _ ht hflags => exact .polling query' ht hflags
  | converge hc =>
    cases h with
    | polling _ ht hflags =>
      have hs := (ht.settles hflags _).mp hc
      exact .done (ht.finish (.inl rfl) ⟨fun _ => hs, fun _ => rfl⟩ nofun)
  | complete hc hl =>
    cases h with
    | polling _ ht hflags =>
      have hnot := fun hs => Bool.eq_false_iff.mp hc ((ht.settles hflags _).mpr hs)
      exact .done (ht.finish (.inr rfl) ⟨nofun, fun h => absurd h hnot⟩ fun _ => hl)
  | count hc hl =>
    cases h with
    | polling _ ht hflags =>
      have hnot := fun hs => Bool.eq_false_iff.mp hc ((ht.settles hflags _).mpr hs)
      refine .ticking (ht.next hflags hnot hl) fun hout poll hmem => ?_
      rw [pollsOf_append] at hmem
      rcases List.mem_append.mp hmem with hmem | hmem
      · exact hflags hout poll hmem
      · rw [List.mem_singleton.mp hmem]
        exact hout

end

namespace Engine

variable {σ : Type} {C : Core σ} {e e' : Engine σ} {plan : SessionPlan} {D : List (Nat × Deed)}
  {P : Engine σ → Action σ → Prop}

theorem Course.tallied (h : Course (Acts C (deeds C plan.session) P) e D e') (hsound : Sound e)
    (hg : plan.strategy = .group) (hopen : .opening plan ∈ e.crew plan.session) :
    ∃ watch, PollCrew plan watch e' ∧ Tallied plan watch (e'.isTriggering plan.session) D :=
  polls_keep (I := fun e watch D => Tallied plan watch (e.isTriggering plan.session) D)
    (fun _ _ _ _ _ _ _ _ _ hs ht => ht.step hs) hg hsound hopen .opening h

/-- A session that polls, whatever its polls find and whenever its trigger is back: it ends with the
first poll at which it has settled, else with its last poll, unless its time is over before; and
then it is gone. A poll that found something is remembered, and shown of every member. -/
theorem polls_decide_the_end (he : Reachable C e) (hg : plan.strategy = .group)
    (hopen : .opening plan ∈ e.crew plan.session)
    (h : Course (Acts C (deeds C plan.session) P) e D e') :
    Account plan D ∧
    ∀ a, e'.Allows a →
      (∀ outcome, .ended outcome ∈ e'.deeds C plan.session a →
        (e'.perform C a).Gone plan.session ∧ (e'.perform C a).books =
          .activeSessions (e'.perform C a).sessions.size :: .sessionEnded outcome :: e'.books) ∧
      ∀ (delays : DelayTable) (triggering : Bool),
        .polled (some delays) triggering ∈ e'.deeds C plan.session a →
        (∀ (proxy : String) (delay : Int), delays[proxy]? = some delay → 0 < delay →
          (e'.perform C a).cache[proxy]? = some ⟨delay, e'.now⟩) ∧
        ∃ x : Record, (e'.perform C a).board.records[plan.index]? = some x ∧
          x.group.name = plan.group ∧
          ∀ p ∈ x.group.members, ∀ delay, delays[p.name]? = some delay →
            x.links[p.name]? = some ⟨p.name, delay⟩ ∧
              (DistinctNames x.group.members → p.delay = delay) := by
  obtain ⟨watch, hcrew, ht⟩ := h.tallied he.sound hg hopen
  have he' : Reachable C e' := he.reaches h.reaches
  exact ⟨ht.account, fun a ha => ⟨fun _ ho => ended_closes C he'.coherent ha ho,
    fun _ _ hp => polled_shown he' hcrew ha hp⟩⟩

theorem polls_decide_the_end_single :
    let run := play (Core.single 5) (deeds (Core.single 5) 1) 20 (single 5 .group)
    (pollsOf run.1).length = 3 ∧ Settled 2 (pollsOf run.1) ∧
      ∀ k < 3, ¬ Settled 2 ((pollsOf run.1).take k) := by
  intro run
  have hopen : .opening (singlePlan .group) ∈ (single 5 .group).crew 1 := opening_of_first rfl
  have hrun : Course (Acts (Core.single 5) (deeds (Core.single 5) 1) Prompt) (single 5 .group)
      run.1 run.2 := play_course (Core.single 5) _ 20 (single 5 .group)
  obtain ⟨haccount, _⟩ := polls_decide_the_end (single_reachable 5 .group) rfl hopen hrun
  have hlength : (pollsOf run.1).length = 3 := by decide
  have hend : outcomesOf run.1 = [.converged] := by decide
  exact ⟨hlength, haccount.converged.mp hend, hlength ▸ haccount.first⟩

end Engine

end ProxyPulse
