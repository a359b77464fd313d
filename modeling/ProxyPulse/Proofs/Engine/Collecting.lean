import ProxyPulse.Proofs.Engine.Convergence
import ProxyPulse.Proofs.Engine.Probing

namespace ProxyPulse

def Deed.report? : Deed → Option (String × Int)
  | .reported proxy answer => some (proxy, Answer.delay answer)
  | _ => none

def Deed.shown? : Deed → Option (String × Int)
  | .shown proxy delay => some (proxy, delay)
  | _ => none

def reportsOf (D : List (Nat × Deed)) : List (String × Int) :=
  D.filterMap (·.2.report?)

def reportsBefore (due : Nat) (D : List (Nat × Deed)) : List (String × Int) :=
  reportsOf (D.filter (·.1 < due))

def shownOf (D : List (Nat × Deed)) : List (String × Int) :=
  D.filterMap (·.2.shown?)

def ProbeBatch.unreported (b : ProbeBatch) : List String :=
  b.waiting ++ b.probing

section

variable {plan : SessionPlan} {D : List (Nat × Deed)} {now due : Nat} {deeds : List Deed}

theorem filterMap_at {β : Type} (f : Deed → Option β) (D : List (Nat × Deed)) (now : Nat)
    (deeds : List Deed) : (D ++ deeds.map (now, ·)).filterMap (fun deed => f deed.2) =
      D.filterMap (fun deed => f deed.2) ++ deeds.filterMap f := by
  rw [List.filterMap_append, List.filterMap_map]
  rfl

theorem reportsOf_at (D : List (Nat × Deed)) (now : Nat) (deeds : List Deed) :
    reportsOf (D ++ deeds.map (now, ·)) = reportsOf D ++ deeds.filterMap Deed.report? :=
  filterMap_at _ D now deeds

theorem shownOf_at (D : List (Nat × Deed)) (now : Nat) (deeds : List Deed) :
    shownOf (D ++ deeds.map (now, ·)) = shownOf D ++ deeds.filterMap Deed.shown? :=
  filterMap_at _ D now deeds

theorem outcomesOf_at (D : List (Nat × Deed)) (now : Nat) (deeds : List Deed) :
    outcomesOf (D ++ deeds.map (now, ·)) = outcomesOf D ++ deeds.filterMap Deed.outcome? :=
  filterMap_at _ D now deeds

theorem reportsBefore_early (h : now < due) (D : List (Nat × Deed)) (deeds : List Deed) :
    reportsBefore due (D ++ deeds.map (now, ·)) =
      reportsBefore due D ++ deeds.filterMap Deed.report? := by
  have hall : (deeds.map (now, ·)).filter (·.1 < due) = deeds.map (now, ·) :=
    List.filter_eq_self.mpr fun deed hd => by
      obtain ⟨_, _, rfl⟩ := List.mem_map.mp hd
      exact decide_eq_true h
  rw [reportsBefore, List.filter_append, hall, reportsOf_at, reportsBefore]

theorem reportsBefore_late (h : due ≤ now ∨ deeds.filterMap Deed.report? = [])
    (D : List (Nat × Deed)) :
    reportsBefore due (D ++ deeds.map (now, ·)) = reportsBefore due D := by
  rcases Nat.lt_or_ge now due with hlt | hle
  · rw [reportsBefore_early hlt, h.resolve_left (Nat.not_le.mpr hlt), List.append_nil]
  · have hnone : (deeds.map (now, ·)).filter (·.1 < due) = [] :=
      List.filter_eq_nil_iff.mpr fun deed hd => by
        obtain ⟨_, _, rfl⟩ := List.mem_map.mp hd
        simpa using hle
    rw [reportsBefore, List.filter_append, hnone, List.append_nil, reportsBefore]

def Accounted (plan : SessionPlan) (batch : Option ProbeBatch) (D : List (Nat × Deed)) : Prop :=
  (batch.elim [] ProbeBatch.unreported ++ (reportsOf D).map Prod.fst).Perm plan.members

def Complete (plan : SessionPlan) (reports : List (String × Int)) : Prop :=
  ∀ name ∈ plan.members, name ∈ reports.map Prod.fst

variable {batch batch' : Option ProbeBatch}

theorem BatchStep.unreported {b : ProbeBatch} {next : Option ProbeBatch}
    (h : BatchStep b next deeds) :
    (next.elim [] ProbeBatch.unreported ++ (deeds.filterMap Deed.report?).map Prod.fst).Perm
      b.unreported := by
  cases h with
  | @start proxy waiting call hroom hw =>
    rw [ProbeBatch.unreported, hw]
    show (waiting ++ (b.running ++ [(proxy, call)]).map Prod.fst ++ []).Perm
      (proxy :: waiting ++ b.probing)
    rw [List.map_append, List.append_nil, ← List.append_assoc]
    exact List.perm_append_singleton _ _
  | rest hroom hperm =>
    refine (List.Perm.of_eq (List.append_nil _)).trans ?_
    exact hperm.symm.append_left _
  | @report proxy answer running hroom hperm =>
    have hleft : (if running.isEmpty && b.waiting.isEmpty then none
        else some { b with running } : Option ProbeBatch).elim [] ProbeBatch.unreported =
          b.waiting ++ running.map Prod.fst := by
      split
      · next hnone =>
        rw [Bool.and_eq_true, List.isEmpty_iff, List.isEmpty_iff] at hnone
        rw [hnone.1, hnone.2]
        rfl
      · rfl
    rw [hleft, ProbeBatch.unreported]
    refine (List.perm_append_singleton proxy _).trans ?_
    exact (List.perm_middle.symm).trans (hperm.symm.append_left _)

theorem Accounted.length (h : Accounted plan batch D) :
    (batch.elim [] ProbeBatch.unreported).length + (reportsOf D).length = plan.members.length := by
  have hlength := h.length_eq
  rwa [List.length_append, List.length_map] at hlength

theorem Accounted.step (h : Accounted plan batch D)
    (hb : (batch'.elim [] ProbeBatch.unreported ++
      (deeds.filterMap Deed.report?).map Prod.fst).Perm (batch.elim [] ProbeBatch.unreported)) :
    Accounted plan batch' (D ++ deeds.map (now, ·)) := by
  unfold Accounted
  rw [reportsOf_at, List.map_append]
  refine List.Perm.trans ?_ h
  refine List.Perm.trans ?_ (hb.append_right _)
  rw [List.append_assoc]
  exact (List.perm_append_comm).append_left _

theorem Accounted.recount (h : Accounted plan batch D)
    (hb : (batch'.elim [] ProbeBatch.unreported).Perm (batch.elim [] ProbeBatch.unreported)) :
    Accounted plan batch' D :=
  (hb.append_right _).trans h

theorem Accounted.beside (h : Accounted plan batch D) (hd : deeds.filterMap Deed.report? = []) :
    Accounted plan batch (D ++ deeds.map (now, ·)) := by
  refine h.step ?_
  rw [hd]
  exact .of_eq (List.append_nil _)

theorem Accounted.complete (h : Accounted plan batch D)
    (hle : plan.members.length ≤ (reportsOf D).length) : Complete plan (reportsOf D) := by
  have hlength := h.length
  have hnone : batch.elim [] ProbeBatch.unreported = [] :=
    List.eq_nil_of_length_eq_zero (by omega)
  unfold Accounted at h
  rw [hnone] at h
  exact fun name hname => h.mem_iff.mpr hname

theorem Complete.length_le {reports : List (String × Int)} (h : Complete plan reports)
    (hd : plan.members.Nodup) : plan.members.length ≤ reports.length := by
  have hle := (List.subperm_of_subset hd h).length_le
  rwa [List.length_map] at hle

end

structure Gathering (plan : SessionPlan) (due missing : Nat) (inbox : List (String × Int))
    (D : List (Nat × Deed)) : Prop where
  missing : missing + (shownOf D).length = plan.members.length
  inbox : shownOf D ++ inbox = reportsOf D
  early : reportsBefore due D = reportsOf D
  running : outcomesOf D = []

structure Gathered (plan : SessionPlan) (due now : Nat) (D : List (Nat × Deed)) : Prop where
  shown : shownOf D = reportsBefore due D
  outcome : outcomesOf D = [.completed] ∧ Complete plan (reportsBefore due D) ∨
    outcomesOf D = [.timedOut] ∧ ¬ Complete plan (reportsBefore due D) ∧ due ≤ now

inductive Gathers (plan : SessionPlan) (due now : Nat) :
    Option Job → Option ProbeBatch → List (Nat × Deed) → Prop
  | opening : now + plan.budget.maxWait = due → Gathers plan due now (some (.opening plan)) none []
  | broken {time : Nat} : maxConcurrency < plan.budget.concurrency →
    Gathers plan due now none none [(time, .cutOff)]
  | collecting {missing : Nat} {inbox : List (String × Int)} {batch : Option ProbeBatch}
    {D : List (Nat × Deed)} : plan.budget.concurrency ≤ maxConcurrency →
    Gathering plan due missing inbox D → Accounted plan batch D → now ≤ due →
    Gathers plan due now (some (.collecting plan missing due inbox)) batch D
  | done {batch : Option ProbeBatch} {D : List (Nat × Deed)} :
    plan.budget.concurrency ≤ maxConcurrency → Gathered plan due now D → Accounted plan batch D →
    Gathers plan due now none batch D

section

variable {plan : SessionPlan} {D : List (Nat × Deed)} {due now missing : Nat}
  {inbox : List (String × Int)} {deeds : List Deed} {watch watch' : Option Job}
  {batch batch' : Option ProbeBatch} {proxy : String} {delay : Int}

theorem Gathering.report (h : Gathering plan due missing inbox D) (hlt : now < due)
    (proxy : String) (answer : Answer Int) :
    Gathering plan due missing (inbox ++ [(proxy, Answer.delay answer)])
      (D ++ [Deed.reported proxy answer].map (now, ·)) := by
  have hshown : shownOf (D ++ [Deed.reported proxy answer].map (now, ·)) = shownOf D :=
    (shownOf_at D now _).trans (List.append_nil _)
  constructor
  case missing => rw [hshown]; exact h.missing
  case inbox =>
    rw [hshown, reportsOf_at, ← h.inbox, ← List.append_assoc]
    rfl
  case early => rw [reportsBefore_early hlt, reportsOf_at, h.early]
  case running => rw [outcomesOf_at, h.running]; rfl

theorem Gathering.take (h : Gathering plan due missing ((proxy, delay) :: inbox) D)
    (hm : 1 < missing) :
    Gathering plan due (missing - 1) inbox (D ++ [Deed.shown proxy delay].map (now, ·)) := by
  have hmissing := h.missing
  constructor
  case missing =>
    rw [shownOf_at, List.length_append]
    show missing - 1 + ((shownOf D).length + 1) = _
    omega
  case inbox =>
    rw [shownOf_at, reportsOf_at, ← h.inbox]
    exact (List.append_assoc ..).trans (List.append_nil _).symm
  case early =>
    rw [reportsBefore_late (.inr rfl), reportsOf_at, h.early]
    exact (List.append_nil _).symm
  case running => rw [outcomesOf_at, h.running]; rfl

theorem Gathering.finish (h : Gathering plan due missing ((proxy, delay) :: inbox) D)
    (hb : Accounted plan batch D) (hm : missing ≤ 1) :
    Gathered plan due now (D ++ [Deed.shown proxy delay, .ended .completed].map (now, ·)) := by
  have hmissing := h.missing
  have hlength := hb.length
  have hreports := congrArg List.length h.inbox
  rw [List.length_append, List.length_cons] at hreports
  obtain rfl : inbox = [] := List.eq_nil_of_length_eq_zero (by omega)
  have hcomplete := hb.complete (by omega)
  constructor
  case shown =>
    rw [shownOf_at, reportsBefore_late (.inr rfl), h.early]
    exact h.inbox
  case outcome =>
    rw [outcomesOf_at, reportsBefore_late (.inr rfl), h.early, h.running]
    exact .inl ⟨rfl, hcomplete⟩

theorem Gathering.complete (h : Gathering plan due 0 [] D) (hb : Accounted plan batch D) :
    Gathered plan due now (D ++ [Deed.ended .completed].map (now, ·)) := by
  have hmissing := h.missing
  have hinbox := h.inbox
  rw [List.append_nil] at hinbox
  have hcomplete := hb.complete (by rw [← hinbox]; omega)
  constructor
  case shown =>
    rw [shownOf_at, reportsBefore_late (.inr rfl), h.early, hinbox]
    exact List.append_nil _
  case outcome =>
    rw [outcomesOf_at, reportsBefore_late (.inr rfl), h.early, h.running]
    exact .inl ⟨rfl, hcomplete⟩

theorem Gathering.timeOut (h : Gathering plan due missing [] D) (hd : plan.members.Nodup)
    (hm : missing ≠ 0) (hle : due ≤ now) :
    Gathered plan due now (D ++ [Deed.ended .timedOut].map (now, ·)) := by
  have hmissing := h.missing
  have hinbox := h.inbox
  rw [List.append_nil] at hinbox
  constructor
  case shown =>
    rw [shownOf_at, reportsBefore_late (.inr rfl), h.early, hinbox]
    exact List.append_nil _
  case outcome =>
    rw [outcomesOf_at, reportsBefore_late (.inr rfl), h.early, h.running]
    refine .inr ⟨rfl, fun hcomplete => ?_, hle⟩
    have := hcomplete.length_le hd
    rw [← hinbox] at this
    omega

theorem Gathered.after (h : Gathered plan due now D)
    (hlate : due ≤ now ∨ deeds.filterMap Deed.report? = [])
    (hs : deeds.filterMap Deed.shown? = []) (ho : deeds.filterMap Deed.outcome? = []) :
    Gathered plan due now (D ++ deeds.map (now, ·)) := by
  constructor
  case shown => rw [shownOf_at, hs, List.append_nil, reportsBefore_late hlate, h.shown]
  case outcome =>
    rw [outcomesOf_at, ho, List.append_nil, reportsBefore_late hlate]
    exact h.outcome

theorem Gathered.late {b : ProbeBatch} (h : Gathered plan due now D)
    (ha : Accounted plan (some b) D) (hd : plan.members.Nodup)
    (hb : (batch'.elim [] ProbeBatch.unreported ++ [proxy]).Perm b.unreported) : due ≤ now := by
  rcases h.outcome with ⟨_, hcomplete⟩ | ⟨_, _, hle⟩
  · have hmembers := hcomplete.length_le hd
    have hfew : (reportsBefore due D).length ≤ (reportsOf D).length :=
      (List.filter_sublist.filterMap _).length_le
    have hall := ha.length
    have hone := hb.length_eq
    rw [List.length_append, List.length_singleton] at hone
    rw [Option.elim_some, ← hone] at hall
    omega
  · exact hle

theorem Gathered.completed (h : Gathered plan due now D) :
    outcomesOf D = [.completed] ↔ Complete plan (reportsBefore due D) := by
  rcases h.outcome with ⟨ho, hcomplete⟩ | ⟨ho, hnot, _⟩
  · exact ⟨fun _ => hcomplete, fun _ => ho⟩
  · exact ⟨fun he => (nomatch ho.symm.trans he), fun hcomplete => absurd hcomplete hnot⟩

theorem Gathered.timedOut (h : Gathered plan due now D) :
    outcomesOf D = [.timedOut] ↔ ¬ Complete plan (reportsBefore due D) := by
  rcases h.outcome with ⟨ho, hcomplete⟩ | ⟨ho, hnot, _⟩
  · exact ⟨fun he => (nomatch ho.symm.trans he), fun hnot => absurd hcomplete hnot⟩
  · exact ⟨fun _ => hnot, fun _ => ho⟩

theorem Gathered.ended (h : Gathered plan due now D) : outcomesOf D ≠ [] := by
  rcases h.outcome with ⟨ho, _⟩ | ⟨ho, _⟩
  · rw [ho]
    exact List.cons_ne_nil _ _
  · rw [ho]
    exact List.cons_ne_nil _ _

theorem Gathers.recount {b : ProbeBatch} (h : Gathers plan due now watch (some b) D)
    (hb : (batch'.elim [] ProbeBatch.unreported).Perm b.unreported) :
    Gathers plan due now watch batch' D := by
  cases h with
  | collecting hc hg ha hnow => exact .collecting hc hg (ha.recount hb) hnow
  | done hc hg ha => exact .done hc hg (ha.recount hb)

theorem Gathers.report {b : ProbeBatch} (h : Gathers plan due now watch (some b) D)
    (hd : plan.members.Nodup) (hne : now ≠ due) (answer : Answer Int)
    (hb : (batch'.elim [] ProbeBatch.unreported ++ [proxy]).Perm b.unreported) :
    Gathers plan due now (watch.map (Deed.deliverAll [.reported proxy answer])) batch'
      (D ++ [Deed.reported proxy answer].map (now, ·)) := by
  cases h with
  | collecting hc hg ha hnow =>
    exact .collecting hc (hg.report (by omega) proxy answer) (ha.step hb) hnow
  | done hc hg ha => exact .done hc (hg.after (.inl (hg.late ha hd hb)) rfl rfl) (ha.step hb)

theorem Gathers.step (h : Gathers plan due now watch batch D) (hd : plan.members.Nodup)
    (hclear : ∀ proxy answer, (due, .reported proxy answer) ∉ D ++ deeds.map (now, ·))
    (hs : Engine.ProbeStep plan now watch batch deeds watch' batch') :
    Gathers plan due now watch' batch' (D ++ deeds.map (now, ·)) := by
  cases hs with
  | rest => rwa [List.map_nil, List.append_nil]
  | breakOff hc =>
    cases h with
    | opening => exact .broken hc
  | «open» hc =>
    cases h with
    | opening hnow =>
      rw [hnow]
      refine .collecting hc ⟨rfl, rfl, ?_, rfl⟩ ?_ (by omega)
      · exact reportsBefore_late (.inr rfl) []
      · show (plan.members ++ [] ++ []).Perm plan.members
        rw [List.append_nil, List.append_nil]
  | shuffle hw hr =>
    rw [List.map_nil, List.append_nil]
    exact h.recount (hw.append (hr.map Prod.fst))
  | probe hb =>
    have hunreported := hb.unreported
    cases hb with
    | start | rest =>
      have hnobody : watch.map (Deed.deliverAll []) = watch := Option.map_id'
      rw [List.map_nil, List.append_nil, hnobody]
      exact h.recount ((List.Perm.of_eq (List.append_nil _)).symm.trans hunreported)
    | report =>
      refine h.report hd (fun he => ?_) _ hunreported
      subst he
      exact hclear _ _ (List.mem_append_right _ List.mem_cons_self)
  | take hm =>
    cases h with
    | collecting hc hg ha hnow => exact .collecting hc (hg.take hm) (ha.beside rfl) hnow
  | finish hm =>
    cases h with
    | collecting hc hg ha hnow => exact .done hc (hg.finish ha hm) (ha.beside rfl)
  | complete =>
    cases h with
    | collecting hc hg ha hnow => exact .done hc (hg.complete ha) (ha.beside rfl)
  | timeOut hm hle =>
    cases h with
    | collecting hc hg ha hnow => exact .done hc (hg.timeOut hd hm hle) (ha.beside rfl)

theorem Gathers.ends (h : Gathers plan due now watch batch D)
    (hc : plan.budget.concurrency ≤ maxConcurrency) :
    (outcomesOf D = [] ∧ now ≤ due) ∨ Gathered plan due now D := by
  cases h with
  | opening hnow => exact .inl ⟨rfl, by omega⟩
  | broken hc' => exact absurd hc (Nat.not_le.mpr hc')
  | collecting _ hg _ hnow => exact .inl ⟨hg.running, hnow⟩
  | done _ hg => exact .inr hg

theorem Gathers.breaks (h : Gathers plan due now watch batch D)
    (hc : maxConcurrency < plan.budget.concurrency) : D = [] ∨ ∃ time, D = [(time, .cutOff)] := by
  cases h with
  | opening => exact .inl rfl
  | broken => exact .inr ⟨_, rfl⟩
  | collecting hc' | done hc' => exact absurd hc' (Nat.not_le.mpr hc)

end

namespace Engine

variable {σ : Type} {C : Core σ} {e e' : Engine σ} {plan : SessionPlan} {D : List (Nat × Deed)}
  {watch : Option Job} {batch : Option ProbeBatch} {due : Nat} {P : Engine σ → Action σ → Prop}

theorem Gathers.elapse (h : Gathers plan due e.now watch batch D) {time : Nat} (hle : e.now ≤ time)
    (hp : Prompt e (.wait time)) (hcrew : ProbeCrew plan watch batch { e with now := time }) :
    Gathers plan due time watch batch D := by
  have htask {job : Job} (hj : some job = watch) : ∃ t ∈ e.tasks, t.job = job := by
    have hmem : job ∈ Engine.crew { e with now := time } plan.session := by
      rw [hcrew.crew.mem_iff, ← hj]
      exact List.mem_append_left _ List.mem_cons_self
    exact (mem_crew.mp hmem).2
  cases h with
  | opening =>
    obtain ⟨t, ht, hj⟩ := htask rfl
    exact absurd (by rw [hj]; exact List.mem_cons_self) (hp.no_turn ht)
  | broken hc => exact .broken hc
  | @collecting missing inbox _ _ hc hg ha hnow =>
    obtain ⟨t, ht, hj⟩ := htask rfl
    cases inbox with
    | nil =>
      exact .collecting hc hg ha (hp.le_moment ht (by rw [hj]; exact List.mem_cons_self))
    | cons report rest =>
      exact absurd (by rw [hj]; exact List.mem_cons_self) (hp.no_turn ht)
  | done hc hg ha =>
    refine .done hc ⟨hg.shown, hg.outcome.imp_right fun ⟨ho, hn, hd⟩ => ⟨ho, hn, ?_⟩⟩ ha
    exact Nat.le_trans hd hle

theorem Course.gathers (h : Course (Interleaves C (deeds C plan.session) P) e D e')
    (hsound : Sound e) (hg : plan.strategy = .perProxy) (hopen : .opening plan ∈ e.crew plan.session)
    (hd : plan.members.Nodup) (hrun : ∀ e a, P e a → Unstopped plan.session e a)
    (hprompt : ∀ e a, P e a → Prompt e a)
    (hclear : ∀ proxy answer, (e.now + plan.budget.maxWait, .reported proxy answer) ∉ D) :
    ∃ watch batch, Gathers plan (e.now + plan.budget.maxWait) e'.now watch batch D := by
  obtain ⟨watch, batch, _, hgathers⟩ := probes_keep
    (I := fun e' watch batch D =>
      (∀ proxy answer, (e.now + plan.budget.maxWait, .reported proxy answer) ∉ D) →
        Gathers plan (e.now + plan.budget.maxWait) e'.now watch batch D)
    (fun e₁ e₂ deeds watch watch' batch batch' D hsound hstep _ hcrew hmove hi hclear => by
      have hbefore := hi fun proxy answer hm => hclear proxy answer (List.mem_append_left _ hm)
      have hafter := hbefore.step hd hclear hmove
      cases hstep with
      | reorder => exact hafter
      | act hact =>
        cases hact with
        | @act a ha hp =>
          by_cases hw : ∃ time, a = .wait time
          · obtain ⟨time, rfl⟩ := hw
            exact Gathers.elapse hafter ha (hprompt _ _ hp) hcrew
          · rw [perform_now C hsound.coherent ha fun time ht => hw ⟨time, ht⟩]
            exact hafter)
    hg hrun hsound hopen (fun _ => .opening rfl) h
  exact ⟨watch, batch, hgathers hclear⟩

end Engine

end ProxyPulse
