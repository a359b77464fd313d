import ProxyPulse.Proofs.Engine.Exchanges
import ProxyPulse.Proofs.Engine.Reports

namespace ProxyPulse

variable {σ : Type}

def askedOf (D : List (Nat × Note)) : List Operation :=
  D.filterMap (·.2.asked?)

def deedsOf (D : List (Nat × Note)) : List (Nat × Deed) :=
  D.filterMap fun (time, note) => note.deed?.map (time, ·)

def Job.out : Job → List (String × Call)
  | .batch b => b.running
  | _ => []

def Engine.probesOut (e : Engine σ) (s : Nat) : List (String × Call) :=
  (e.crew s).flatMap Job.out

def waitingIn (batch : Option ProbeBatch) : List String :=
  batch.elim [] ProbeBatch.waiting

def runningIn (batch : Option ProbeBatch) : List (String × Call) :=
  batch.elim [] ProbeBatch.running

@[simp] theorem waitingIn_some (b : ProbeBatch) : waitingIn (some b) = b.waiting := rfl

@[simp] theorem runningIn_some (b : ProbeBatch) : runningIn (some b) = b.running := rfl

structure Placed (plan : SessionPlan) (batch : Option ProbeBatch) (D : List (Nat × Note)) :
    Prop where
  places : ∀ b ∈ batch, b.concurrency = plan.budget.concurrency ∧ b.limit = plan.probes.limit
  few : (runningIn batch).length ≤ plan.budget.concurrency
  asked : (askedOf D).Perm (((reportsOf (deedsOf D)).map Prod.fst ++
    (runningIn batch).map Prod.fst).map Operation.probe)
  members : (askedOf D ++ (waitingIn batch).map Operation.probe).Perm
    (plan.members.map Operation.probe)
  calls : ∀ probe ∈ runningIn batch, probe.2.limit = some plan.probes.limit ∧
    (probe.2.startedAt, .asked (.probe probe.1)) ∈ D

section

variable {plan : SessionPlan} {watch watch' : Option Job} {batch batch' : Option ProbeBatch}
  {D : List (Nat × Note)} {now : Nat} {new said : List Note} {deeds : List Deed} {b : ProbeBatch}
  {left : List (String × Call)} {ended : Option (String × Answer Int)}

theorem askedOf_at (D : List (Nat × Note)) (now : Nat) (new : List Note) :
    askedOf (D ++ new.map (now, ·)) = askedOf D ++ new.filterMap Note.asked? := by
  rw [askedOf, List.filterMap_append, List.filterMap_map]
  rfl

theorem deedsOf_at (D : List (Nat × Note)) (now : Nat) (new : List Note) :
    deedsOf (D ++ new.map (now, ·)) = deedsOf D ++ (new.filterMap Note.deed?).map (now, ·) := by
  rw [deedsOf, List.filterMap_append, List.filterMap_map, List.map_filterMap]
  rfl

theorem asked_of_deeds (deeds : List Deed) : (deeds.map Note.did).filterMap Note.asked? = [] := by
  simp [List.filterMap_map, Function.comp_def, Note.asked?]

theorem deeds_of_deeds (deeds : List Deed) : (deeds.map Note.did).filterMap Note.deed? = deeds := by
  simp [List.filterMap_map, Function.comp_def, Note.deed?]

theorem Placed.beside (h : Placed plan batch D) (ha : new.filterMap Note.asked? = [])
    (hr : (new.filterMap Note.deed?).filterMap Deed.report? = []) :
    Placed plan batch (D ++ new.map (now, ·)) where
  places := h.places
  few := h.few
  asked := by
    rw [askedOf_at, ha, deedsOf_at, reportsOf_at, hr, List.append_nil, List.append_nil]
    exact h.asked
  members := by
    rw [askedOf_at, ha, List.append_nil]
    exact h.members
  calls probe hp := ⟨(h.calls probe hp).1, List.mem_append_left _ (h.calls probe hp).2⟩

theorem Placed.start (h : Placed plan (some b) D) {proxy : String} {waiting : List String}
    (latency : Option Nat) (hlt : b.running.length < b.concurrency)
    (hw : b.waiting = proxy :: waiting) :
    Placed plan (some { b with
      waiting
      running := b.running ++ [(proxy, ⟨now, latency.map (now + ·), some b.limit⟩)] })
      (D ++ [Note.asked (.probe proxy)].map (now, ·)) := by
  obtain ⟨hconcurrency, hlimit⟩ := h.places b rfl
  have hasked : askedOf (D ++ [Note.asked (.probe proxy)].map (now, ·)) =
      askedOf D ++ [.probe proxy] := askedOf_at D now _
  have hdeeds : deedsOf (D ++ [Note.asked (.probe proxy)].map (now, ·)) = deedsOf D :=
    (deedsOf_at D now _).trans (List.append_nil _)
  constructor
  case places =>
    intro b' hb
    cases hb
    exact ⟨hconcurrency, hlimit⟩
  case few =>
    rw [runningIn_some, List.length_append, List.length_singleton]
    omega
  case asked =>
    rw [hasked, hdeeds, runningIn_some]
    simpa using h.asked.append_right [Operation.probe proxy]
  case members =>
    rw [hasked, waitingIn_some]
    simpa [hw] using h.members
  case calls =>
    intro probe hp
    rw [runningIn_some] at hp
    rcases List.mem_append.mp hp with hp | hp
    · exact ⟨(h.calls probe hp).1, List.mem_append_left _ (h.calls probe hp).2⟩
    · cases List.mem_singleton.mp hp
      exact ⟨congrArg some hlimit, List.mem_append_right _ List.mem_cons_self⟩

theorem Placed.listen (h : Placed plan (some b) D) (hl : Listens now b.running said ended left)
    (hplaces : ∀ b' ∈ batch', b'.concurrency = b.concurrency ∧ b'.limit = b.limit)
    (hrunning : runningIn batch' = left) (hwaiting : waitingIn batch' = b.waiting)
    (hdeeds : (deeds.filterMap Deed.report?).map Prod.fst = ended.toList.map Prod.fst) :
    Placed plan batch' (D ++ (said ++ deeds.map Note.did).map (now, ·)) := by
  obtain ⟨hconcurrency, hlimit⟩ := h.places b rfl
  have hnames := hl.names
  have hasked : askedOf (D ++ (said ++ deeds.map Note.did).map (now, ·)) = askedOf D := by
    rw [askedOf_at, List.filterMap_append, hl.answers.1, asked_of_deeds]
    simp
  have hreports : (reportsOf (deedsOf (D ++ (said ++ deeds.map Note.did).map (now, ·)))).map
      Prod.fst = (reportsOf (deedsOf D)).map Prod.fst ++ ended.toList.map Prod.fst := by
    rw [deedsOf_at, List.filterMap_append, hl.answers.2, deeds_of_deeds, reportsOf_at,
      List.map_append]
    simp [hdeeds]
  constructor
  case places =>
    intro b' hb
    rw [(hplaces b' hb).1, (hplaces b' hb).2]
    exact ⟨hconcurrency, hlimit⟩
  case few =>
    have hlength := hnames.length_eq
    have hfew := h.few
    rw [runningIn_some] at hfew
    simp only [List.length_append, List.length_map] at hlength
    rw [hrunning]
    omega
  case asked =>
    rw [hasked, hreports, hrunning, List.append_assoc]
    exact h.asked.trans ((hnames.symm.append_left _).map _)
  case members =>
    rw [hasked, hwaiting]
    exact h.members
  case calls =>
    intro probe hp
    rw [hrunning] at hp
    obtain ⟨call, hmem, hstarted, hcall, _⟩ := hl.out_before hp
    obtain ⟨hlimit', hnoted⟩ := h.calls _ hmem
    rw [hstarted, hcall]
    exact ⟨hlimit', List.mem_append_left _ hnoted⟩

theorem settled (b : ProbeBatch) (running : List (String × Call)) :
    let batch := if running.isEmpty && b.waiting.isEmpty then none else some { b with running }
    runningIn batch = running ∧ waitingIn batch = b.waiting ∧
      ∀ b' ∈ batch, b'.concurrency = b.concurrency ∧ b'.limit = b.limit := by
  dsimp only
  split
  · next hnone =>
    rw [Bool.and_eq_true, List.isEmpty_iff, List.isEmpty_iff] at hnone
    exact ⟨hnone.1.symm, hnone.2.symm, nofun⟩
  · exact ⟨rfl, rfl, fun b' hb => by cases hb; exact ⟨rfl, rfl⟩⟩

theorem Placed.turn (h : Placed plan (some b) D) (ht : BatchTurn now b said deeds batch') :
    Placed plan batch' (D ++ (said ++ deeds.map Note.did).map (now, ·)) := by
  cases ht with
  | start latency hlt hw => exact h.start latency hlt hw
  | rest hl => exact h.listen hl (by simp) rfl rfl rfl
  | @report _ _ _ running hl =>
    obtain ⟨hrunning, hwaiting, hplaces⟩ := settled b running
    exact h.listen hl hplaces hrunning hwaiting rfl

def Awaits (plan : SessionPlan) (batch : Option ProbeBatch) (job : Job) : Prop :=
  ∃ missing deadline inbox, job = .collecting plan missing deadline inbox ∧
    missing = inbox.length + (waitingIn batch).length + (runningIn batch).length

inductive Probed (plan : SessionPlan) :
    Option Job → Option ProbeBatch → List (Nat × Note) → Prop
  | opening : Probed plan (some (.opening plan)) none []
  | never (time : Nat) : Probed plan none none [(time, .did .cutOff)]
  | sent {watch : Option Job} {batch : Option ProbeBatch} {D : List (Nat × Note)} :
    Placed plan batch D → (∀ job ∈ watch, Awaits plan batch job) →
    (.completed ∈ outcomesOf (deedsOf D) → waitingIn batch = []) → Probed plan watch batch D

theorem outcomes_at (D : List (Nat × Note)) (now : Nat) (new : List Note) :
    outcomesOf (deedsOf (D ++ new.map (now, ·))) =
      outcomesOf (deedsOf D) ++ (new.filterMap Note.deed?).filterMap Deed.outcome? := by
  rw [deedsOf_at, outcomesOf_at]

theorem Placed.opened (plan : SessionPlan) (time : Nat) :
    Placed plan (some plan.probes) [(time, .did .opened)] where
  places b hb := by
    cases hb
    exact ⟨rfl, rfl⟩
  few := Nat.zero_le _
  asked := .refl _
  members := .refl _
  calls probe hp := absurd hp List.not_mem_nil

theorem Probed.of_opening (h : Probed plan (some (.opening plan)) batch D) : D = [] := by
  cases h with
  | opening => rfl
  | sent _ haw => obtain ⟨_, _, _, hjob, _⟩ := haw _ rfl; cases hjob

theorem Probed.of_collecting {missing deadline : Nat} {inbox : List (String × Int)}
    (h : Probed plan (some (.collecting plan missing deadline inbox)) batch D) :
    Placed plan batch D ∧ (.completed ∈ outcomesOf (deedsOf D) → waitingIn batch = []) ∧
      missing = inbox.length + (waitingIn batch).length + (runningIn batch).length := by
  cases h with
  | sent hp haw hdone =>
    obtain ⟨_, _, _, hjob, hmissing⟩ := haw _ rfl
    cases hjob
    exact ⟨hp, hdone, hmissing⟩

theorem Probed.watch_turn {job : Job} (h : Probed plan (some job) batch D)
    {sent : Option ProbeBatch}
    (hstep : Engine.ProbeStep plan now (some job) none deeds watch' sent)
    (hopen : job = .opening plan → batch = none) :
    Probed plan watch' (sent.or batch) (D ++ (deeds.map Note.did).map (now, ·)) := by
  have hbeside (hp : Placed plan batch D) (hr : deeds.filterMap Deed.report? = []) :
      Placed plan batch (D ++ (deeds.map Note.did).map (now, ·)) :=
    hp.beside (asked_of_deeds deeds) (by rwa [deeds_of_deeds])
  have houtcomes := outcomes_at D now (deeds.map Note.did)
  rw [deeds_of_deeds] at houtcomes
  have hnobody : ∀ job ∈ (none : Option Job), Awaits plan batch job :=
    fun job hj => absurd hj (Option.not_mem_none job)
  cases hstep with
  | rest =>
    rw [List.map_nil, List.map_nil, List.append_nil, Option.none_or]
    exact h
  | breakOff =>
    obtain rfl := hopen rfl
    obtain rfl := h.of_opening
    exact .never now
  | «open» =>
    obtain rfl := hopen rfl
    obtain rfl := h.of_opening
    refine .sent (.opened plan now) (fun job hj => ?_) nofun
    cases hj
    exact ⟨_, _, _, rfl, (Nat.zero_add _).symm⟩
  | take hm =>
    obtain ⟨hp, hdone, hmissing⟩ := h.of_collecting
    rw [List.length_cons] at hmissing
    rw [Option.none_or]
    refine .sent (hbeside hp rfl) (fun job hj => ?_) ?_
    · cases hj
      exact ⟨_, _, _, rfl, by omega⟩
    · rw [houtcomes]
      exact fun hc => hdone (by simpa [Deed.outcome?] using hc)
  | finish hm =>
    obtain ⟨hp, _, hmissing⟩ := h.of_collecting
    rw [List.length_cons] at hmissing
    rw [Option.none_or]
    exact .sent (hbeside hp rfl) hnobody fun _ => List.eq_nil_of_length_eq_zero (by omega)
  | complete =>
    obtain ⟨hp, _, hmissing⟩ := h.of_collecting
    rw [Option.none_or]
    exact .sent (hbeside hp rfl) hnobody fun _ => List.eq_nil_of_length_eq_zero (by omega)
  | timeOut =>
    obtain ⟨hp, hdone, _⟩ := h.of_collecting
    rw [Option.none_or]
    refine .sent (hbeside hp rfl) hnobody ?_
    rw [houtcomes]
    exact fun hc => hdone (by simpa [Deed.outcome?] using hc)

theorem BatchTurn.waitingIn_eq_nil (ht : BatchTurn now b said deeds batch')
    (hw : b.waiting = []) : waitingIn batch' = [] := by
  cases ht with
  | start _ _ hfirst => cases hw.symm.trans hfirst
  | rest => exact hw
  | @report _ _ _ running => exact (settled b running).2.1.trans hw

theorem BatchTurn.awaits {job : Job} (ht : BatchTurn now b said deeds batch')
    (h : Awaits plan (some b) job) : Awaits plan batch' (Deed.deliverAll deeds job) := by
  obtain ⟨missing, deadline, inbox, rfl, hmissing⟩ := h
  rw [waitingIn_some, runningIn_some] at hmissing
  cases ht with
  | start _ _ hw =>
    refine ⟨_, _, _, rfl, ?_⟩
    rw [hw, List.length_cons] at hmissing
    simp only [waitingIn_some, runningIn_some, List.length_append, List.length_singleton]
    omega
  | rest hl =>
    have hlength := hl.names.length_eq
    refine ⟨_, _, _, rfl, ?_⟩
    simp at hlength
    simp only [waitingIn_some, runningIn_some]
    omega
  | @report _ _ _ running hl =>
    have hlength := hl.names.length_eq
    obtain ⟨hrunning, hwaiting, _⟩ := settled b running
    refine ⟨_, _, _, rfl, ?_⟩
    simp at hlength
    rw [hrunning, hwaiting, List.length_append, List.length_singleton]
    omega

theorem BatchTurn.noted_deeds (ht : BatchTurn now b said deeds batch') :
    (said ++ deeds.map Note.did).filterMap Note.deed? = deeds ∧
      deeds.filterMap Deed.outcome? = [] := by
  rw [List.filterMap_append, deeds_of_deeds]
  cases ht with
  | start => exact ⟨rfl, rfl⟩
  | rest hl | report hl => exact ⟨by rw [hl.answers.2, List.nil_append], rfl⟩

theorem Probed.batch_turn (h : Probed plan watch (some b) D)
    (ht : BatchTurn now b said deeds batch') :
    Probed plan (watch.map (Deed.deliverAll deeds)) batch'
      (D ++ (said ++ deeds.map Note.did).map (now, ·)) := by
  cases h with
  | sent hp haw hdone =>
    refine .sent (hp.turn ht) (fun job hj => ?_) ?_
    · obtain ⟨job, hjob, rfl⟩ := Option.map_eq_some_iff.mp hj
      exact ht.awaits (haw job hjob)
    · rw [outcomes_at, ht.noted_deeds.1, ht.noted_deeds.2, List.append_nil]
      exact fun hc => ht.waitingIn_eq_nil (hdone hc)

theorem Placed.shuffle {waiting : List String} {running : List (String × Call)}
    (h : Placed plan (some b) D) (hw : waiting.Perm b.waiting) (hr : running.Perm b.running) :
    Placed plan (some { b with waiting, running }) D where
  places b' hb := by
    cases hb
    exact h.places b rfl
  few := Nat.le_trans (Nat.le_of_eq hr.length_eq) h.few
  asked := h.asked.trans (((hr.symm.map _).append_left _).map _)
  members := ((hw.map _).append_left _).trans h.members
  calls probe hp := h.calls probe (hr.mem_iff.mp hp)

theorem Probed.turn (h : Probed plan watch batch D)
    (ht : Engine.ProbeTurn plan now watch batch new watch' batch') :
    Probed plan watch' batch' (D ++ new.map (now, ·)) := by
  cases ht with
  | rest =>
    rw [List.map_nil, List.append_nil]
    exact h
  | watch hstep hopen => exact h.watch_turn hstep hopen
  | @cutOff job batch hopen =>
    cases h with
    | opening => exact .never now
    | sent hp haw hdone =>
      refine .sent (hp.beside rfl rfl) (fun job hj => absurd hj (Option.not_mem_none job)) ?_
      rw [outcomes_at]
      exact fun hc => hdone (by simpa [Note.deed?, Deed.outcome?] using hc)
  | probe hb => exact h.batch_turn hb
  | shuffle hw hr =>
    rw [List.map_nil, List.append_nil]
    cases h with
    | sent hp haw hdone =>
      refine .sent (hp.shuffle hw hr) (fun job hj => ?_) fun hc => ?_
      · obtain ⟨missing, deadline, inbox, rfl, hmissing⟩ := haw job hj
        refine ⟨_, _, _, rfl, ?_⟩
        rw [waitingIn_some, runningIn_some] at hmissing ⊢
        rw [hw.length_eq, hr.length_eq, hmissing]
      · have hnone := hdone hc
        rw [waitingIn_some] at hnone ⊢
        exact (hnone ▸ hw).eq_nil

theorem Call.wakeAt_later {call : Call} {moment : Nat} (ha : call.isAnswered now = false)
    (ho : call.isOverdue now = false) (hw : call.wakeAt = some moment) : now < moment := by
  unfold Call.wakeAt at hw
  unfold Call.isAnswered at ha
  unfold Call.isOverdue at ho
  cases hanswer : call.answerAt <;> cases hdue : call.deadline <;> simp_all; omega

theorem Call.wakeAt_le {call : Call} {limit : Nat} (h : call.limit = some limit) :
    ∃ moment, call.wakeAt = some moment ∧ moment ≤ call.startedAt + limit := by
  rw [Call.wakeAt, Call.deadline, h]
  cases call.answerAt with
  | none => exact ⟨_, rfl, Nat.le_refl _⟩
  | some time => exact ⟨_, rfl, Nat.min_le_right _ _⟩

def OnTime (now : Nat) (batch : Option ProbeBatch) : Prop :=
  ∀ probe ∈ runningIn batch, ∀ moment, probe.2.wakeAt = some moment → now ≤ moment

theorem Listens.onTime (hl : Listens now b.running said ended left) (h : OnTime now (some b))
    (hrunning : runningIn batch' = left) : OnTime now batch' := by
  intro probe hp moment hw
  rw [hrunning] at hp
  obtain ⟨call, hmem, -, -, hsame | ⟨hnone, ho⟩⟩ := hl.out_before hp
  · exact h _ hmem moment (hsame ▸ hw)
  · exact Nat.le_of_lt (Call.wakeAt_later (by simp [Call.isAnswered, hnone]) ho hw)

theorem BatchTurn.onTime (ht : BatchTurn now b said deeds batch') (h : OnTime now (some b)) :
    OnTime now batch' := by
  cases ht with
  | start latency =>
    intro probe hp moment hw
    rcases List.mem_append.mp hp with hp | hp
    · exact h probe hp moment hw
    · cases List.mem_singleton.mp hp
      cases latency <;> simp [Call.wakeAt, Call.deadline] at hw <;> omega
  | rest hl => exact hl.onTime h rfl
  | @report _ _ _ running hl => exact hl.onTime h (settled b running).1

theorem BatchTurn.reports {proxy : String} {answer : Answer Int}
    (ht : BatchTurn now b said deeds batch') (hsaid : .answered proxy (some answer) ∈ said) :
    deeds = [.reported proxy answer] := by
  cases ht with
  | start => cases List.mem_singleton.mp hsaid
  | rest hl => cases hl.end_of hsaid
  | report hl =>
    cases hl.end_of hsaid
    rfl

theorem BatchTurn.hears {proxy : String} {call : Call} {moment due : Nat}
    (ht : BatchTurn now b said deeds batch') (hp : (proxy, call) ∈ b.running)
    (hanswer : call.answerAt = some moment) (hdue : call.deadline = some due) (hle : moment ≤ due)
    (hnow : now ≤ moment) : (proxy, call) ∈ runningIn batch' ∨
      now = moment ∧ ∃ answer, .answered proxy answer ∈ said := by
  have hcall : call.isAnswered now = true ∨ call.isOverdue now = false := by
    rw [Call.isAnswered, hanswer, Call.isOverdue, hdue]
    simp
    omega
  have hfate {left ended} (hl : Listens now b.running said ended left) : (proxy, call) ∈ left ∨
      now = moment ∧ ∃ answer, .answered proxy answer ∈ said := by
    refine (hl.fate hp hcall).imp_right fun ⟨ha, hsaid⟩ => ⟨Nat.le_antisymm hnow ?_, hsaid⟩
    rw [Call.isAnswered, hanswer] at ha
    simpa using ha
  cases ht with
  | start => exact .inl (List.mem_append_left _ hp)
  | rest hl => exact hfate hl
  | @report _ _ _ running hl =>
    rw [(settled b running).1]
    exact hfate hl

end

namespace Engine

variable {C : Core σ} {e e' : Engine σ} {plan : SessionPlan} {watch watch' : Option Job}
  {batch batch' : Option ProbeBatch} {t : Task} {b : ProbeBatch} {P : Engine σ → Action σ → Prop}
  {D D' : List (Nat × Note)} {proxy : String} {call : Call}

theorem ProbeCrew.probesOut_perm (h : ProbeCrew plan watch batch e) :
    (e.probesOut plan.session).Perm (runningIn batch) := by
  have hnone : watch.toList.flatMap Job.out = [] := by
    refine List.flatMap_eq_nil_iff.mpr fun job hj => ?_
    cases h.collects job (Option.mem_toList.mp hj) <;> rfl
  have hp := h.crew.flatMap_right Job.out
  rw [List.flatMap_append, hnone, List.nil_append] at hp
  refine hp.trans (.of_eq ?_)
  cases batch with
  | none => rfl
  | some b => exact List.flatMap_singleton _ _

theorem exchanges_keep {I : Engine σ → Option Job → Option ProbeBatch → List (Nat × Note) → Prop}
    (hI : ∀ (e e' : Engine σ) (new : List Note) (watch watch' : Option Job)
      (batch batch' : Option ProbeBatch) (D : List (Nat × Note)), Sound e →
      Interleaves C (notes C plan.session) P e new e' → ProbeCrew plan watch batch e →
      ProbeCrew plan watch' batch' e' → ProbeTurn plan e.now watch batch new watch' batch' →
      I e watch batch D → I e' watch' batch' (D ++ new.map (e.now, ·)))
    (hg : plan.strategy = .perProxy) (hsound : Sound e) (hs : plan.session < e.nextSession)
    (hcrew : ProbeCrew plan watch batch e) (hstart : I e watch batch [])
    (h : Course (Interleaves C (notes C plan.session) P) e D e') :
    Sound e' ∧ plan.session < e'.nextSession ∧
      ∃ watch batch, ProbeCrew plan watch batch e' ∧ I e' watch batch D :=
  crews_keep (R := ProbeTurn plan) (fun _ _ _ hstep hsound => hstep.sound hsound)
    (fun _ _ _ _ _ hstep hsound hs hcrew => hcrew.interleave hsound hs hg hstep) hI hsound hs hcrew
    hstart h

theorem ProbeStep.running_sent {now : Nat} {job : Job} {deeds : List Deed}
    {sent : Option ProbeBatch} (h : ProbeStep plan now (some job) none deeds watch' sent)
    (hopen : job = .opening plan → batch = none) :
    runningIn (sent.or batch) = runningIn batch := by
  cases h with
  | «open» => rw [hopen rfl]; rfl
  | _ => rw [Option.none_or]

theorem ProbeTurn.onTime {now : Nat} {new : List Note}
    (ht : ProbeTurn plan now watch batch new watch' batch') (h : OnTime now batch) :
    OnTime now batch' := by
  cases ht with
  | rest | cutOff => exact h
  | watch hstep hopen =>
    unfold OnTime
    rw [hstep.running_sent hopen]
    exact h
  | probe hb => exact hb.onTime h
  | shuffle hw hr => exact fun probe hp => h probe (hr.mem_iff.mp hp)

theorem ProbeTurn.hears {now moment due : Nat} {new : List Note}
    (ht : ProbeTurn plan now watch batch new watch' batch') (hp : (proxy, call) ∈ runningIn batch)
    (hanswer : call.answerAt = some moment) (hdue : call.deadline = some due) (hle : moment ≤ due)
    (hnow : now ≤ moment) : (proxy, call) ∈ runningIn batch' ∨
      now = moment ∧ ∃ answer, .answered proxy answer ∈ new := by
  cases ht with
  | rest | cutOff => exact .inl hp
  | watch hstep hopen => exact .inl (by rwa [hstep.running_sent hopen])
  | shuffle hw hr => exact .inl (hr.mem_iff.mpr hp)
  | probe hb =>
    refine (hb.hears hp hanswer hdue hle hnow).imp_right ?_
    exact fun ⟨hmoment, answer, hsaid⟩ => ⟨hmoment, answer, List.mem_append_left _ hsaid⟩

theorem ProbeCrew.wait {time : Nat} (h : ProbeCrew plan watch batch e)
    (hp : Prompt e (.wait time)) : OnTime time batch := by
  intro probe hmem moment hw
  cases batch with
  | none => cases hmem
  | some b =>
    obtain ⟨-, t, ht, hj⟩ := mem_crew.mp
      (h.crew.mem_iff.mpr (List.mem_append_right _ List.mem_cons_self))
    have hwait : .answer probe.2 ∈ t.job.waits := by
      rw [hj]
      exact List.mem_append_right _ (List.mem_map.mpr ⟨probe, hmem, rfl⟩)
    have hover := hp.not_over ht hwait
    rw [isOver, Bool.or_eq_false_iff] at hover
    exact hp.le_wake ht hwait hw (Call.wakeAt_later hover.1 hover.2 hw)

theorem Interleaves.onTime {new : List Note} (h : Interleaves C (notes C plan.session) P e new e')
    (hprompt : ∀ e a, P e a → Prompt e a) (hc : Coherent e)
    (hcrew : ProbeCrew plan watch' batch' e')
    (ht : ProbeTurn plan e.now watch batch new watch' batch') (honTime : OnTime e.now batch) :
    OnTime e'.now batch' := by
  cases h with
  | reorder => exact ht.onTime honTime
  | act hact =>
    cases hact with
    | @act a ha hp =>
      by_cases hw : ∃ time, a = .wait time
      · obtain ⟨time, rfl⟩ := hw
        -- nobody goes on while time passes
        have hsame : ProbeCrew plan watch' batch' e := ⟨hcrew.crew, hcrew.collects⟩
        exact hsame.wait (hprompt _ _ hp)
      · rw [perform_now C hc ha fun time h => hw ⟨time, h⟩]
        exact ht.onTime honTime

theorem Course.hears (h : Course (Interleaves C (notes C plan.session) P) e D e')
    (hprompt : ∀ e a, P e a → Prompt e a) (hg : plan.strategy = .perProxy) (hsound : Sound e)
    (hs : plan.session < e.nextSession) (hcrew : ProbeCrew plan watch batch e)
    (honTime : OnTime e.now batch) {moment due : Nat} (hp : (proxy, call) ∈ runningIn batch)
    (hanswer : call.answerAt = some moment) (hdue : call.deadline = some due) (hle : moment ≤ due) :
    e'.now ≤ moment ∧ (proxy, call) ∈ e'.probesOut plan.session ∨
      ∃ answer, (moment, .answered proxy answer) ∈ D := by
  have hwake : call.wakeAt = some moment := by
    rw [Call.wakeAt, hanswer, hdue]
    exact congrArg some (Nat.min_eq_left hle)
  obtain ⟨-, -, watch', batch', hcrew', honTime', hfate⟩ := exchanges_keep
    (I := fun e _ batch D => OnTime e.now batch ∧
      ((proxy, call) ∈ runningIn batch ∨ ∃ answer, (moment, .answered proxy answer) ∈ D))
    (fun e₁ e₂ new watch₁ watch₂ batch₁ batch₂ D₁ hsound₁ hstep hcrew₁ hcrew₂ hturn hi => by
      obtain ⟨honTime₁, hfate₁⟩ := hi
      refine ⟨hstep.onTime hprompt hsound₁.coherent hcrew₂ hturn honTime₁, ?_⟩
      rcases hfate₁ with hout | ⟨answer, hsaid⟩
      · have hnow := honTime₁ _ hout moment hwake
        rcases hturn.hears hout hanswer hdue hle hnow with hout | ⟨rfl, answer, hsaid⟩
        · exact .inl hout
        · exact .inr ⟨answer, List.mem_append_right _ (List.mem_map_of_mem hsaid)⟩
      · exact .inr ⟨answer, List.mem_append_left _ hsaid⟩)
    hg hsound hs hcrew ⟨honTime, .inl hp⟩ h
  refine hfate.imp_left fun hout => ⟨honTime' _ hout moment hwake, ?_⟩
  exact hcrew'.probesOut_perm.mem_iff.mpr hout

theorem ended_of_reported {answer : Answer Int}
    (h : jobDeeds C e (.batch b) = [.reported proxy answer]) : b.hasRoom = false ∧
      ∃ e₁ rest, endedProbe C e b.running = (e₁, some (proxy, answer), rest) := by
  unfold jobDeeds at h
  dsimp only at h
  cases hroom : b.hasRoom with
  | true =>
    rw [hroom] at h
    cases h
  | false =>
    rw [hroom] at h
    rcases hended : endedProbe C e b.running with ⟨e₁, _ | ⟨other, answer'⟩, rest⟩
    · rw [hended] at h
      cases h
    · rw [hended] at h
      cases h
      exact ⟨rfl, e₁, rest, rfl⟩

theorem ProbeCrew.remembers (h : ProbeCrew plan watch batch e) (hsound : Sound e)
    (hg : plan.strategy = .perProxy) {a : Action σ} (ha : e.Allows a) {delay : Int}
    (hsaid : .answered proxy (some (.ok delay)) ∈ e.notes C plan.session a) (hd : 0 < delay) :
    (e.perform C a).cache[proxy]? = some ⟨delay, e.now⟩ := by
  have hdeeds {deeds : List Deed} :
      .answered proxy (some (.ok delay)) ∉ deeds.map Note.did := by simp
  rcases own_or_other a plan.session with ⟨t, rfl, ho⟩ | hother
  · rw [notes_own ho] at hsaid
    have hsaid := (List.mem_append.mp hsaid).resolve_right hdeeds
    rcases h.who ha ho with rfl | ⟨b, rfl, hj, hb⟩
    · rw [resume_silent _ _ (h.collects _ rfl) hg] at hsaid
      cases hsaid
    · rw [resume_core _ _ (hsound.batch_lives ha hj), hj] at hsaid
      have hreport := (stepBatch_turns C (e.without t) b).reports hsaid
      obtain ⟨hroom, e₁, rest, hended⟩ := ended_of_reported hreport
      exact batch_remembers C hsound.coherent ha hj hroom hended hd
  · rw [notes_stranger hother] at hsaid
    cases hsaid

/-- All along the life of its probes, which goes on after a session has come to its end or was
stopped: no more of them are out than there are places, what the core was asked to do has been
reported or is out, and no member is probed twice; a session that is complete has probed them all.
What the core says to a probe is remembered at once. It is listened to at the very moment its answer
is due, if that is within its time and the clock is prompt. -/
theorem probes_outlive_their_session (he : Reachable C e) (hg : plan.strategy = .perProxy)
    (hopen : .opening plan ∈ e.crew plan.session)
    (h : Course (Interleaves C (notes C plan.session) P) e D e') :
    (e'.probesOut plan.session).length ≤ plan.budget.concurrency ∧
    (askedOf D).Perm (((reportsOf (deedsOf D)).map Prod.fst ++
      (e'.probesOut plan.session).map Prod.fst).map Operation.probe) ∧
    (askedOf D).Subperm (plan.members.map Operation.probe) ∧
    (.completed ∈ outcomesOf (deedsOf D) →
      (askedOf D).Perm (plan.members.map Operation.probe)) ∧
    (∀ a, e'.Allows a → ∀ proxy delay,
      .answered proxy (some (.ok delay)) ∈ e'.notes C plan.session a → 0 < delay →
        (e'.perform C a).cache[proxy]? = some ⟨delay, e'.now⟩) ∧
    ∀ proxy call, (proxy, call) ∈ e'.probesOut plan.session →
      call.limit = some plan.probes.limit ∧
      (call.startedAt, .asked (.probe proxy)) ∈ D ∧
      ((∀ e a, P e a → Prompt e a) → ∀ moment, call.answerAt = some moment →
        moment ≤ call.startedAt + plan.probes.limit →
          ∀ D' e'', Course (Interleaves C (notes C plan.session) P) e' D' e'' →
            e''.now ≤ moment ∧ (proxy, call) ∈ e''.probesOut plan.session ∨
              ∃ answer, (moment, .answered proxy answer) ∈ D') := by
  obtain ⟨hsound, hs, watch, batch, hcrew, hprobed, honTime⟩ := exchanges_keep
    (I := fun e watch batch D => Probed plan watch batch D ∧
      ((∀ e a, P e a → Prompt e a) → OnTime e.now batch))
    (fun _ _ _ _ _ _ _ _ hsound hstep _ hcrew hturn hi =>
      ⟨hi.1.turn hturn, fun hprompt =>
        hstep.onTime hprompt hsound.coherent hcrew hturn (hi.2 hprompt)⟩)
    hg he.sound (he.sound.employs.crew_lt hopen) (he.sound.employs.sends hopen)
    ⟨.opening, fun _ => nofun⟩ h
  have hout := hcrew.probesOut_perm
  have hremembers : ∀ a, e'.Allows a → ∀ proxy delay,
      .answered proxy (some (.ok delay)) ∈ e'.notes C plan.session a → 0 < delay →
        (e'.perform C a).cache[proxy]? = some ⟨delay, e'.now⟩ :=
    fun a ha proxy delay hsaid hd => hcrew.remembers hsound hg ha hsaid hd
  cases hprobed with
  | opening | never =>
    have hnone : e'.probesOut plan.session = [] := hout.eq_nil
    rw [hnone]
    exact ⟨Nat.zero_le _, .refl _, List.nil_subperm, nofun, hremembers, nofun⟩
  | sent hp _ hdone =>
    refine ⟨hout.length_eq ▸ hp.few, ?_, ?_, fun hc => ?_, hremembers, fun proxy call hmem => ?_⟩
    · exact hp.asked.trans (((hout.symm.map _).append_left _).map _)
    · exact (List.sublist_append_left _ _).subperm.trans hp.members.subperm
    · have hall := hp.members
      rwa [hdone hc, List.map_nil, List.append_nil] at hall
    · have hrunning := hout.mem_iff.mp hmem
      obtain ⟨hlimit, hasked⟩ := hp.calls _ hrunning
      refine ⟨hlimit, hasked, fun hprompt moment hanswer hle D' e'' hrun => ?_⟩
      have hdue : call.deadline = some (call.startedAt + plan.probes.limit) :=
        congrArg (Option.map (call.startedAt + ·)) hlimit
      exact hrun.hears hprompt hg hsound hs hcrew (honTime hprompt) hrunning hanswer hdue hle

def outlived : List (Nat × Note) × Engine Unit :=
  let (before, e) := play Core.pair (notes Core.pair 1) 2 (openedPair briefTier)
  let (after, e') := play Core.pair (notes Core.pair 1) 5 (e.stopTest 0).1
  (before ++ after, e')

theorem outlived_course : Course (Interleaves Core.pair (notes Core.pair 1) Prompt)
    (openedPair briefTier) outlived.1 outlived.2 := by
  have hplay (count : Nat) (e : Engine Unit) :=
    (play_course Core.pair (notes Core.pair 1) count e).mono fun _ _ _ h => Interleaves.act h
  have hstop (e : Engine Unit) :
      Interleaves Core.pair (notes Core.pair 1) Prompt e [] (e.stopTest 0).1 :=
    .act (.act (a := .stop 0) trivial trivial)
  have h := ((hplay 2 (openedPair briefTier)).step (hstop _)).trans (hplay 5 _)
  rw [List.map_nil, List.append_nil] at h
  exact h

theorem probes_outlive_their_session_pair :
    let probes : Task := { id := 2, job := .batch { (pairPlan briefTier).probes with
      waiting := [], running := [("proxy", ⟨300, some 400, some 10000⟩)] } }
    outlived.2.sessions.isEmpty = true ∧ (outlived.2.probesOut 1).length ≤ 1 ∧
      (askedOf outlived.1).Subperm [.probe "direct", .probe "proxy"] ∧
      (resume Core.pair outlived.2 probes).cache["proxy"]? = some ⟨5, 400⟩ := by
  intro probes
  have hopen : .opening (pairPlan briefTier) ∈ (openedPair briefTier).crew 1 :=
    opening_of_first rfl
  obtain ⟨hfew, -, honce, -, hremembers, -⟩ :=
    probes_outlive_their_session (openedPair_reachable briefTier) rfl hopen outlived_course
  have hmem : probes ∈ outlived.2.tasks := List.mem_of_getElem? (i := 0) rfl
  have hsaid : .answered "proxy" (some (.ok 5)) ∈ outlived.2.notes Core.pair 1 (.resume probes) :=
    List.mem_of_getElem? (i := 0) rfl
  exact ⟨by decide, hfew, honce, hremembers (.resume probes) hmem "proxy" 5 hsaid (by decide)⟩

end Engine

end ProxyPulse
