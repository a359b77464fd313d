import ProxyPulse.Config.Validation
import ProxyPulse.Proofs.Engine.Collecting
import ProxyPulse.Proofs.Engine.Findings

namespace ProxyPulse

theorem setDelays_append (shown shown' : List (String × Int)) (members : List Proxy) :
    setDelays (shown ++ shown') members = setDelays shown' (setDelays shown members) :=
  List.foldl_append

theorem DistinctNames.setDelays {members : List Proxy} (h : DistinctNames members)
    (shown : List (String × Int)) : DistinctNames (setDelays shown members) := by
  induction shown generalizing members with
  | nil => exact h
  | cons report rest ih => exact ih (h.setDelay report.1 report.2)

namespace Engine

variable {σ : Type} {C : Core σ} {e e' : Engine σ} {plan : SessionPlan} {t : Task} {index : Nat}
  {members : List Proxy} {told : List (String × Int)} {watch : Option Job}
  {batch : Option ProbeBatch} {P : Engine σ → Action σ → Prop} {D : List (Nat × Deed)}

def Publishes (e : Engine σ) (index : Nat) (members : List Proxy) : Prop :=
  ∃ x, e.board.records[index]? = some x ∧ x.group.members.Perm members

def LeavesRecord (C : Core σ) (plan : SessionPlan) (e : Engine σ) (a : Action σ) : Prop :=
  (∀ t, a = .resume t → t.job.owner? ≠ some plan.session) →
    ∀ members, e.Publishes plan.index members → (e.perform C a).Publishes plan.index members

theorem Publishes.of_content (h : e.Publishes index members)
    (hc : e'.board.content index = e.board.content index) : e'.Publishes index members := by
  obtain ⟨x, hx, hperm⟩ := h
  have hcontent : e.board.content index = some (x.group, x.links) := by
    rw [Board.content, hx]
    rfl
  obtain ⟨x', hx', heq⟩ := Option.map_eq_some_iff.mp (hc.trans hcontent)
  exact ⟨x', hx', (Prod.mk.inj heq).1 ▸ hperm⟩

theorem Publishes.of_board (h : e.Publishes index members) (hb : e'.board = e.board) :
    e'.Publishes index members :=
  h.of_content (by rw [hb])

theorem stepBatch_board (C : Core σ) (e : Engine σ) (b : ProbeBatch) :
    (stepBatch C e b).1.board = e.board := by
  cases hroom : b.hasRoom with
  | true =>
    obtain ⟨proxy, waiting, _, hstep⟩ := stepBatch_room C e hroom
    rw [hstep]
    rfl
  | false =>
    have hq := endedProbe_quiet C e b.running
    rw [stepBatch_full C e hroom, stepBatch.settle]
    rcases hended : endedProbe C e b.running with ⟨e', _ | ⟨proxy, answer⟩, running⟩
    · rw [hended] at hq
      exact hq.board
    · rw [hended] at hq
      exact ((hq.trans (note_quiet (.probe proxy) answer e')).trans
        (learn_quiet _ proxy (Answer.delay answer))).board

theorem SessionMove.shown_nil (move : SessionMove) : move.deeds.filterMap Deed.shown? = [] := by
  cases move <;> rfl

theorem batch_shown (C : Core σ) (e : Engine σ) (b : ProbeBatch) :
    (jobDeeds C e (.batch b)).filterMap Deed.shown? = [] := by
  have h := stepBatch_steps C e b
  generalize jobDeeds C e (.batch b) = deeds, (stepBatch C e b).2 = next at h
  cases h <;> rfl

theorem Publishes.batch_turn (h : e.Publishes index members) (C : Core σ) {b : ProbeBatch}
    (ha : t.isAborted = false) (hj : t.job = .batch b) :
    (resume C e t).Publishes index members := by
  refine h.of_board ?_
  rw [resume_lives C e ha, hj]
  exact (congrArg Registry.board (park_registry _ t _)).trans (stepBatch_board C (e.without t) b)

theorem opening_shown (C : Core σ) (e : Engine σ) (plan : SessionPlan) :
    (jobDeeds C e (.opening plan)).filterMap Deed.shown? = [] := by
  unfold jobDeeds
  dsimp only
  split
  · rfl
  · exact SessionMove.shown_nil _

theorem collecting_shown (C : Core σ) (e : Engine σ) (plan : SessionPlan) (missing deadline : Nat)
    (inbox : List (String × Int)) :
    (jobDeeds C e (.collecting plan missing deadline inbox)).filterMap Deed.shown? =
      inbox.head?.toList := by
  unfold jobDeeds
  rw [List.filterMap_append, SessionMove.shown_nil, List.append_nil]
  cases inbox <;> rfl

theorem openProbes_board (e : Engine σ) (plan : SessionPlan) :
    (e.openProbes plan).1.board = e.board := by
  unfold openProbes
  split <;> rfl

theorem Publishes.take (h : e.Publishes plan.index members) (hd : DistinctNames members)
    (hr : e.registry.Reachable) (hn : e.registry.names[plan.index]? = some plan.group)
    (proxy : String) (delay : Int) :
    (e.write (·.updateDelay plan.index plan.group proxy delay)).Publishes plan.index
      (setDelay proxy delay members) := by
  obtain ⟨x, hx, hperm⟩ := h
  obtain ⟨hboard, _⟩ := write_board e (.updateDelay plan.index plan.group proxy delay) hn
  have hnew := Board.updateDelay_content hx (hr.paired plan.index x hx) (hd.perm hperm) proxy delay
  obtain ⟨x', hx', heq⟩ := Option.map_eq_some_iff.mp
    ((congrArg (Board.content · plan.index) hboard).trans hnew)
  refine ⟨x', hx', ?_⟩
  rw [(Prod.mk.inj heq).1]
  exact setDelay_perm hd hperm proxy delay

theorem Publishes.watch_turn (h : e.Publishes plan.index (setDelays told members))
    (hd : DistinctNames members) (hc : Coherent e) (hr : e.registry.Reachable)
    (hg : plan.strategy = .perProxy) (C : Core σ) (ht : t ∈ e.tasks) (ha : t.isAborted = false)
    (hcollects : t.job.Collects plan) :
    (resume C e t).Publishes plan.index
      (setDelays (told ++ (jobDeeds C (e.without t) t.job).filterMap Deed.shown?) members) := by
  have hcontent := (resume_shown (e := e) C ha hcollects.plan).1 plan.index
  obtain ⟨hname, _⟩ := watched_record hc ht ha hcollects.plan
  generalize t.job = job at hcollects hcontent
  cases hcollects with
  | opening =>
    rw [stepSession_probes C _ hg, openProbes_board] at hcontent
    rw [opening_shown, List.append_nil]
    exact h.of_content hcontent
  | collecting missing deadline inbox =>
    rw [collecting_shown]
    cases inbox with
    | nil =>
      rw [List.head?_nil, Option.toList_none, List.append_nil]
      exact h.of_content hcontent
    | cons report rest =>
      obtain ⟨proxy, delay⟩ := report
      rw [setDelays_append]
      have hleft : (e.without t).Publishes plan.index (setDelays told members) := h
      exact (hleft.take (hd.setDelays told) hr hname proxy delay).of_content hcontent

theorem Publishes.step (h : e.Publishes plan.index (setDelays told members))
    (hd : DistinctNames members) (hsound : Sound e) (hr : e.registry.Reachable)
    (hg : plan.strategy = .perProxy) (hrun : ∀ e a, P e a → Unstopped plan.session e a)
    (hleaves : ∀ e a, P e a → LeavesRecord C plan e a) (hcrew : ProbeCrew plan watch batch e)
    {new : List Deed} (hstep : Interleaves C (deeds C plan.session) P e new e') :
    e'.registry.Reachable ∧
      e'.Publishes plan.index (setDelays (told ++ new.filterMap Deed.shown?) members) := by
  cases hstep with
  | @reorder t b waiting running ht hj hw hrunning =>
    refine ⟨(reorder_moves e t b waiting running).registry_reachable hr, ?_⟩
    rw [List.filterMap_nil, List.append_nil]
    exact h.of_board (congrArg Registry.board (park_registry _ t _))
  | act hact =>
    cases hact with
    | @act a ha hp =>
      refine ⟨(perform_moves C hsound.coherent ha).registry_reachable hr, ?_⟩
      rcases own_or_other a plan.session with ⟨t, rfl, ho⟩ | hother
      · have hlive : t.isAborted = false := hrun _ _ hp ho
        rw [deeds_own ho hlive]
        have hmem : t.job ∈ watch.toList ++ (batch.map Job.batch).toList :=
          hcrew.crew.mem_iff.mp (mem_crew.mpr ⟨ho, t, ha, rfl⟩)
        rcases List.mem_append.mp hmem with hmem | hmem
        · exact h.watch_turn hd hsound.coherent hr hg C ha hlive
            (hcrew.collects _ (Option.mem_toList.mp hmem))
        · obtain ⟨b, _, hj⟩ := Option.map_eq_some_iff.mp (Option.mem_toList.mp hmem)
          rw [← hj, batch_shown, List.append_nil]
          exact h.batch_turn C hlive hj.symm
      · rw [deeds_stranger hother, List.filterMap_nil, List.append_nil]
        exact hleaves _ _ hp hother _ h

theorem Course.publishes (h : Course (Interleaves C (deeds C plan.session) P) e D e')
    (he : Reachable C e) (hg : plan.strategy = .perProxy)
    (hopen : .opening plan ∈ e.crew plan.session)
    (hrun : ∀ e a, P e a → Unstopped plan.session e a)
    (hleaves : ∀ e a, P e a → LeavesRecord C plan e a) (hd : DistinctNames members)
    (hx : e.Publishes plan.index members) :
    e'.registry.Reachable ∧ e'.Publishes plan.index (setDelays (shownOf D) members) := by
  obtain ⟨_, _, _, hend⟩ := probes_keep
    (I := fun e _ _ D => e.registry.Reachable ∧
      e.Publishes plan.index (setDelays (shownOf D) members))
    (fun e₁ e₂ deeds _ _ _ _ D hsound hstep hcrew _ _ ⟨hr, hshows⟩ => by
      rw [shownOf_at]
      exact hshows.step hd hsound hr hg hrun hleaves hcrew hstep)
    hg hrun he.sound hopen ⟨he.registry, hx⟩ h
  exact hend

/-- A session that probes, from where it opens on. It is left to itself and not stopped, and no
probe comes to its end right when the time of the session is over. -/
structure ProbeRun (C : Core σ) (plan : SessionPlan) (P : Engine σ → Action σ → Prop)
    (e : Engine σ) (D : List (Nat × Deed)) (e' : Engine σ) : Prop where
  reachable : Reachable C e
  strategy : plan.strategy = .perProxy
  opening : .opening plan ∈ e.crew plan.session
  distinct : plan.members.Nodup
  prompt : ∀ e a, P e a → Prompt e a
  unstopped : ∀ e a, P e a → Unstopped plan.session e a
  course : Course (Interleaves C (deeds C plan.session) P) e D e'
  clear : ∀ proxy answer, (e.now + plan.budget.maxWait, .reported proxy answer) ∉ D

/-- The session has come to its end, and nothing but the session has written to the record, which
showed some members when it opened. -/
structure LoneRun (C : Core σ) (plan : SessionPlan) (P : Engine σ → Action σ → Prop)
    (members : List Proxy) (e : Engine σ) (D : List (Nat × Deed)) (e' : Engine σ) : Prop
    extends ProbeRun C plan P e D e' where
  leaves : ∀ e a, P e a → LeavesRecord C plan e a
  record : e.Publishes plan.index members
  names : DistinctNames members
  ended : outcomesOf D ≠ []

def inTime (plan : SessionPlan) (start : Nat) (D : List (Nat × Deed)) : List (String × Int) :=
  reportsBefore (start + plan.budget.maxWait) D

theorem ProbeRun.gathers (h : ProbeRun C plan P e D e') : ∃ watch batch,
    Gathers plan (e.now + plan.budget.maxWait) e'.now watch batch D :=
  h.course.gathers h.reachable.sound h.strategy h.opening h.distinct h.unstopped h.prompt h.clear

theorem LoneRun.gathered (h : LoneRun C plan P members e D e') :
    shownOf D = inTime plan e.now D ∧ ((inTime plan e.now D).map Prod.fst).Nodup := by
  obtain ⟨watch, batch, hgathers⟩ := h.gathers
  have hended := h.ended
  cases hgathers with
  | opening | broken => exact absurd rfl hended
  | collecting _ hg => exact absurd hg.running hended
  | done _ hg ha =>
    refine ⟨hg.shown, ?_⟩
    have hall := (List.nodup_append.mp (ha.nodup_iff.mpr h.distinct)).2.1
    exact hall.sublist ((List.filter_sublist.filterMap _).map _)

theorem LoneRun.shows (h : LoneRun C plan P members e D e') : ∃ x,
    e'.board.records[plan.index]? = some x ∧
      x.group.members.Perm (members.map (Proxy.reported (inTime plan e.now D))) ∧
      x.links = linksFor (members.map (Proxy.reported (inTime plan e.now D))) := by
  obtain ⟨hshown, hnodup⟩ := h.gathered
  obtain ⟨hr, x, hx, hperm⟩ := h.course.publishes h.reachable h.strategy h.opening h.unstopped
    h.leaves h.names h.record
  have hdistinct : DistinctNames (setDelays (shownOf D) members) := h.names.setDelays _
  have hlinks := (hr.paired plan.index x hx).told (hdistinct.perm hperm)
  have hresult := setDelays_eq_map h.names hnodup
  rw [← hshown] at hresult ⊢
  rw [hresult] at hperm hdistinct
  exact ⟨x, hx, hperm, hlinks.trans (linksFor_perm hdistinct hperm)⟩

theorem LoneRun.alike (h : LoneRun C plan P members e D e') {C₂ : Core σ} {plan₂ : SessionPlan}
    {P₂ : Engine σ → Action σ → Prop} {members₂ : List Proxy} {e₂ e₂' : Engine σ}
    {D₂ : List (Nat × Deed)} (h₂ : LoneRun C₂ plan₂ P₂ members₂ e₂ D₂ e₂')
    (hmembers : members₂.Perm members)
    (hreports : (inTime plan₂ e₂.now D₂).Perm (inTime plan e.now D)) :
    ∃ x, e₂'.board.records[plan₂.index]? = some x ∧
      x.group.members.Perm (members.map (Proxy.reported (inTime plan e.now D))) ∧
      x.links = linksFor (members.map (Proxy.reported (inTime plan e.now D))) := by
  obtain ⟨x, hx, hperm, hlinks⟩ := h₂.shows
  have hsame : Proxy.reported (inTime plan₂ e₂.now D₂) = Proxy.reported (inTime plan e.now D) := by
    funext p
    rw [Proxy.reported, lookup_perm hreports h₂.gathered.2, Proxy.reported]
  rw [hsame] at hperm hlinks
  have hshown := hmembers.map (Proxy.reported (inTime plan e.now D))
  have hnames : DistinctNames (members.map (Proxy.reported (inTime plan e.now D))) := by
    rw [DistinctNames, List.map_map]
    exact h.names
  exact ⟨x, hx, hperm.trans hshown, hlinks.trans (linksFor_perm hnames hshown)⟩

theorem ProbeRun.coherent (h : ProbeRun C plan P e D e') : Coherent e' :=
  (h.course.keeps (Q := fun _ e => Sound e) (fun _ _ _ _ hs hsound => (hs.sound hsound).1)
    h.reachable.sound).coherent

/-- A session that probes, in whatever order its probes come to their turns and to their ends: it is
complete if every member has reported in time, else it times out; and then it is gone. Where nobody
else writes to the record, the record shows in the end exactly what was reported in time, whatever
the order; so two sessions with the same reports show the same. A session whose probes no pool can
hold does nothing at all. -/
theorem reports_decide_the_end (h : ProbeRun C plan P e D e') :
    (maxConcurrency < plan.budget.concurrency → D = [] ∨ ∃ time, D = [(time, .cutOff)]) ∧
    (plan.budget.concurrency ≤ maxConcurrency →
      (e.now + plan.budget.maxWait < e'.now → outcomesOf D ≠ []) ∧
      (outcomesOf D = [.completed] ↔ outcomesOf D ≠ [] ∧ Complete plan (inTime plan e.now D)) ∧
      (outcomesOf D = [.timedOut] ↔
        outcomesOf D ≠ [] ∧ ¬ Complete plan (inTime plan e.now D))) ∧
    (∀ a, e'.Allows a → ∀ outcome, .ended outcome ∈ e'.deeds C plan.session a →
      (e'.perform C a).Gone plan.session ∧ (e'.perform C a).books =
        .activeSessions (e'.perform C a).sessions.size :: .sessionEnded outcome :: e'.books) ∧
    ∀ members, LoneRun C plan P members e D e' → ∃ x,
      e'.board.records[plan.index]? = some x ∧
      x.group.members.Perm (members.map (Proxy.reported (inTime plan e.now D))) ∧
      x.links = linksFor (members.map (Proxy.reported (inTime plan e.now D))) ∧
      ∀ (C₂ : Core σ) (plan₂ : SessionPlan) (P₂ : Engine σ → Action σ → Prop)
        (members₂ : List Proxy) (e₂ : Engine σ) (D₂ : List (Nat × Deed)) (e₂' : Engine σ),
        LoneRun C₂ plan₂ P₂ members₂ e₂ D₂ e₂' → members₂.Perm members →
        (inTime plan₂ e₂.now D₂).Perm (inTime plan e.now D) →
        ∃ x₂, e₂'.board.records[plan₂.index]? = some x₂ ∧
          x₂.group.members.Perm x.group.members ∧ x₂.links = x.links := by
  obtain ⟨watch, batch, hgathers⟩ := h.gathers
  refine ⟨hgathers.breaks, fun hc => ?_, fun a ha outcome ho => ended_closes C h.coherent ha ho,
    fun members hlone => ?_⟩
  · rcases hgathers.ends hc with ⟨hrun, hnow⟩ | hg
    · rw [hrun]
      refine ⟨fun hlate => absurd hlate (Nat.not_lt.mpr hnow), ?_, ?_⟩
      · exact ⟨fun he => (nomatch he), fun ⟨he, _⟩ => absurd rfl he⟩
      · exact ⟨fun he => (nomatch he), fun ⟨he, _⟩ => absurd rfl he⟩
    · refine ⟨fun _ => hg.ended, ?_, ?_⟩
      · exact hg.completed.trans (and_iff_right hg.ended).symm
      · exact hg.timedOut.trans (and_iff_right hg.ended).symm
  · obtain ⟨x, hx, hperm, hlinks⟩ := hlone.shows
    refine ⟨x, hx, hperm, hlinks, fun C₂ plan₂ P₂ members₂ e₂ D₂ e₂' hlone₂ hmembers hreports => ?_⟩
    obtain ⟨x₂, hx₂, hperm₂, hlinks₂⟩ := hlone.alike hlone₂ hmembers hreports
    exact ⟨x₂, hx₂, hperm₂.trans hperm.symm, hlinks₂.trans hlinks.symm⟩

def Alone (C : Core σ) (plan : SessionPlan) (e : Engine σ) (a : Action σ) : Prop :=
  Prompt e a ∧ Unstopped plan.session e a ∧ LeavesRecord C plan e a

theorem next?_alone (C : Core σ) (plan : SessionPlan) {a : Action σ}
    (h : e.tasks.all (fun t => t.job.owner? == some plan.session && !t.isAborted) = true)
    (ha : e.next? = some a) : Alone C plan e a := by
  refine ⟨(next?_prompt ha).2, ?_⟩
  unfold next? at ha
  split at ha
  · obtain ⟨t, ht, rfl⟩ := Option.map_eq_some_iff.mp ha
    have hown := List.all_eq_true.mp h t (List.mem_of_find?_eq_some ht)
    rw [Bool.and_eq_true, beq_iff_eq, Bool.not_eq_true'] at hown
    exact ⟨fun _ => hown.2, fun hother => absurd hown.1 (hother t rfl)⟩
  · obtain ⟨time, _, rfl⟩ := Option.map_eq_some_iff.mp ha
    exact ⟨trivial, fun _ _ hp => hp⟩

theorem clear_of_all {due : Nat}
    (h : D.all (fun deed => deed.1 != due || deed.2.report?.isNone) = true) :
    ∀ proxy answer, (due, .reported proxy answer) ∉ D := by
  intro proxy answer hmem
  have hnone := List.all_eq_true.mp h _ hmem
  rw [Bool.or_eq_true, bne_self_eq_false] at hnone
  exact hnone.elim nofun nofun

def pairRun (tier : BudgetTier) (count : Nat) : List (Nat × Deed) × Engine Unit :=
  play Core.pair (deeds Core.pair 1) count (openedPair tier)

theorem pairRun_probes (tier : BudgetTier) (count : Nat)
    (hopen : (openedPair tier).tasks[0]?.map Task.job = some (.opening (pairPlan tier)))
    (halone : ∀ k < count, (pairRun tier k).2.tasks.all
      (fun t => t.job.owner? == some 1 && !t.isAborted) = true)
    (hclear : (pairRun tier count).1.all (fun deed =>
      deed.1 != (openedPair tier).now + (pairPlan tier).budget.maxWait ||
        deed.2.report?.isNone) = true) :
    ProbeRun Core.pair (pairPlan tier) (Alone Core.pair (pairPlan tier)) (openedPair tier)
      (pairRun tier count).1 (pairRun tier count).2 where
  reachable := openedPair_reachable tier
  strategy := rfl
  opening := opening_of_first hopen
  distinct := by
    show ["direct", "proxy"].Nodup
    decide
  prompt _ _ h := h.1
  unstopped _ _ h := h.2.1
  course :=
    have hacts : Course (Acts Core.pair (deeds Core.pair 1) (Alone Core.pair (pairPlan tier))) _
        (pairRun tier count).1 (pairRun tier count).2 :=
      play_course_of _ _ fun k hk a ha =>
        next?_alone Core.pair (pairPlan tier) (halone k hk) ha
    hacts.mono fun _ _ _ h => .act h
  clear := clear_of_all hclear

theorem ProbeRun.wait (h : ProbeRun C plan P e D e') {time : Nat} (hle : e'.now ≤ time)
    (hp : P e' (.wait time)) : ProbeRun C plan P e D { e' with now := time } where
  reachable := h.reachable
  strategy := h.strategy
  opening := h.opening
  distinct := h.distinct
  prompt := h.prompt
  unstopped := h.unstopped
  course := by
    have hact : Acts C (deeds C plan.session) P e' [] (e'.perform C (.wait time)) :=
      .act (a := .wait time) hle hp
    exact (List.append_nil D) ▸ h.course.step (.act hact)
  clear := h.clear

def vastTier : BudgetTier :=
  ⟨1000, Nat.pow 2 61, 8000⟩

theorem session_without_end : (pairConfig vastTier).IsValid ∧
    ∃ D e', ProbeRun Core.pair (pairPlan vastTier) (Alone Core.pair (pairPlan vastTier))
        (openedPair vastTier) D e' ∧
      (openedPair vastTier).now + (pairPlan vastTier).budget.maxWait < e'.now ∧
      outcomesOf D = [] ∧ ¬ e'.Gone 1 := by
  have hrun := pairRun_probes vastTier 1 rfl (by decide) (by decide)
  have hidle : (pairRun vastTier 1).2.isBusy none = false := by decide
  have hnever : (pairRun vastTier 1).2.nextMoment? = none := by decide
  have hnow : (pairRun vastTier 1).2.now ≤ 9000 := by decide
  have hwait : Alone Core.pair (pairPlan vastTier) (pairRun vastTier 1).2 (.wait 9000) :=
    ⟨⟨hidle, fun next hn => by rw [hnever] at hn; cases hn⟩, trivial, fun _ _ hp => hp⟩
  have hsession : (pairRun vastTier 1).2.sessions[0]?.map Session.id = some 1 := by decide
  obtain ⟨x, hx, hid⟩ := Option.map_eq_some_iff.mp hsession
  refine ⟨by decide, _, _, hrun.wait hnow hwait, by decide, by decide, fun hgone => ?_⟩
  exact hgone 0 x hx hid

def briefTier : BudgetTier :=
  ⟨1000, 1, 150⟩

theorem reports_decide_the_end_pair :
    let run := pairRun briefTier 12
    outcomesOf run.1 = [.timedOut] ∧ ¬ Complete (pairPlan briefTier)
      (inTime (pairPlan briefTier) (openedPair briefTier).now run.1) ∧
    ∃ x, run.2.board.records[0]? = some x ∧
      x.group.members.Perm [⟨"direct", .terminal, "", 5⟩, ⟨"proxy", .terminal, "", 0⟩] := by
  intro run
  have hrun : ProbeRun Core.pair (pairPlan briefTier) (Alone Core.pair (pairPlan briefTier))
      (openedPair briefTier) run.1 run.2 := pairRun_probes briefTier 12 rfl (by decide) (by decide)
  have hend : outcomesOf run.1 = [.timedOut] := by decide
  have htime : inTime (pairPlan briefTier) (openedPair briefTier).now run.1 = [("direct", 5)] := by
    decide
  have hrecord : (openedPair briefTier).board.records[0]?.map (·.group.members) =
      some [⟨"direct", .terminal, "", 0⟩, ⟨"proxy", .terminal, "", 0⟩] := by decide
  obtain ⟨x, hx, hmembers⟩ := Option.map_eq_some_iff.mp hrecord
  have hlone : LoneRun Core.pair (pairPlan briefTier) (Alone Core.pair (pairPlan briefTier))
      [⟨"direct", .terminal, "", 0⟩, ⟨"proxy", .terminal, "", 0⟩] (openedPair briefTier) run.1
      run.2 :=
    { hrun with
      leaves := fun _ _ h => h.2.2
      record := ⟨x, hx, .of_eq hmembers⟩
      names := by unfold DistinctNames; decide
      ended := by rw [hend]; exact List.cons_ne_nil _ _ }
  obtain ⟨_, hcases, _, hshows⟩ := reports_decide_the_end hrun
  obtain ⟨_, _, htimedOut⟩ := hcases (by decide)
  obtain ⟨x', hx', hperm, _⟩ := hshows _ hlone
  rw [htime] at hperm
  exact ⟨hend, (htimedOut.mp hend).2, x', hx', hperm⟩

end Engine

end ProxyPulse
