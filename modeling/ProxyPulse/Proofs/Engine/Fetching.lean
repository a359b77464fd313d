import ProxyPulse.Proofs.Backoff
import ProxyPulse.Proofs.Engine.Choosing
import ProxyPulse.Proofs.Engine.Outstanding

/-!
A prefetch, as a machine of its own. It asks for the names of the groups, pauses when it gets none, and
loads the groups once it has names. What it asks, what it hears and what it returns is written down as
it happens; whatever else the engine does leaves it where it is.
-/

namespace ProxyPulse

inductive FetchNote where
  | asked (operation : Operation)
  | named (answer : Answer (List String))
  | loaded (group : String) (answer : Answer GroupReport)
  | returned (result : Result)

namespace FetchNote

def ask? : FetchNote → Option Bool
  | .asked (.names selectableOnly) => some selectableOnly
  | _ => none

def answer? : FetchNote → Option (Answer (List String))
  | .named answer => some answer
  | _ => none

def report? : FetchNote → Option (String × Answer GroupReport)
  | .loaded group answer => some (group, answer)
  | _ => none

def result? : FetchNote → Option Result
  | .returned result => some result
  | _ => none

def ofReport (heard : Option (String × Answer GroupReport)) : List FetchNote :=
  heard.toList.map fun (group, answer) => .loaded group answer

end FetchNote

def namesOf (answer : Answer (List String)) : List String :=
  answer.toOption.getD []

namespace Config.Scheduler

def lastAttempt (s : Scheduler) : Nat :=
  max s.prefetchAttempts 1

def attempt (s : Scheduler) (failed : Nat) : Attempt where
  number := failed + 1
  last := s.lastAttempt
  backoff := ⟨s.prefetchBaseDelay * Backoff.millisecond, maxAttemptPause, min failed Backoff.word⟩

def attemptPause (s : Scheduler) (failed : Nat) : Nat :=
  min (s.prefetchBaseDelay * Nat.pow 2 failed) 5000

theorem attemptPause_bounds (s : Scheduler) (failed draw : Nat) :
    s.attemptPause failed ≤ ((s.attempt failed).backoff.next draw).1 / Backoff.millisecond ∧
      10 * (((s.attempt failed).backoff.next draw).1 / Backoff.millisecond) ≤
        11 * s.attemptPause failed := by
  have hreach : s.prefetchBaseDelay = 0 ∨ 5000 ≤ s.prefetchBaseDelay * Backoff.word := by
    have hword : 5000 ≤ 1 * Backoff.word := by decide
    exact (Nat.eq_zero_or_pos _).imp_right fun h => hword.trans (Nat.mul_le_mul_right _ h)
  exact Backoff.next_milliseconds hreach failed draw

end Config.Scheduler

def Load.group? : Load → Option String
  | .asking _ query => some query.group
  | .done _ => none

def Load.hasSucceeded : Load → Bool
  | .done ok => ok
  | .asking _ _ => false

def pending (loads : List Load) : List String :=
  loads.filterMap Load.group?

def successes (loads : List Load) : Nat :=
  loads.countP Load.hasSucceeded

theorem all_isDone_iff {loads : List Load} : loads.all Load.isDone = true ↔ pending loads = [] := by
  rw [pending, List.filterMap_eq_nil_iff, List.all_eq_true]
  refine forall₂_congr fun load _ => ?_
  cases load <;> simp [Load.isDone, Load.group?]

inductive LoadsHear : Option (String × Answer GroupReport) → List Load → List Load → Prop
  | nothing {loads loads' : List Load} : pending loads' = pending loads →
    successes loads' = successes loads → LoadsHear none loads loads'
  | report {group : String} {answer : Answer GroupReport} {loads loads' : List Load} :
    (pending loads).Perm (group :: pending loads') →
    successes loads' = successes loads + (if answer.isOk then 1 else 0) →
    LoadsHear (some (group, answer)) loads loads'

theorem successes_cons (load : Load) (loads : List Load) :
    successes (load :: loads) = successes loads + if load.hasSucceeded then 1 else 0 :=
  List.countP_cons

theorem LoadsHear.cons {heard : Option (String × Answer GroupReport)} {loads loads' : List Load}
    (h : LoadsHear heard loads loads') (load : Load) :
    LoadsHear heard (load :: loads) (load :: loads') := by
  cases h with
  | nothing hpending hsuccesses =>
    refine .nothing ?_ (by rw [successes_cons, successes_cons, hsuccesses])
    cases load with
    | done ok => exact hpending
    | asking index query => exact congrArg (query.group :: ·) hpending
  | @report group answer _ _ hpending hsuccesses =>
    refine .report ?_ (by rw [successes_cons, successes_cons, hsuccesses, Nat.add_right_comm])
    cases load with
    | done ok => exact hpending
    | asking index query => exact (hpending.cons query.group).trans (.swap group query.group _)

def Inquires (operations : List Operation) : Prop :=
  ∀ operation ∈ operations, ∃ group sort, operation = .report group sort

inductive Job.Fetches (s : Config.Scheduler) : Job → Prop
  | naming (failed : Nat) (selectableOnly : Bool) (call : Call) :
    Fetches s (.naming (some (s.attempt failed)) selectableOnly call)
  | pausing (failed due : Nat) : Fetches s (.pausing (s.attempt failed) due)
  | loading (loads : List Load) : Fetches s (.loading .all loads)

inductive FetchStep (s : Config.Scheduler) (limit now : Nat) :
    Option Job → List FetchNote → Option Job → Prop
  | rest {job : Option Job} : FetchStep s limit now job [] job
  | ask {failed due : Nat} (selectableOnly : Bool) (answerAt : Option Nat) : due ≤ now →
    FetchStep s limit now (some (.pausing (s.attempt failed) due)) [.asked (.names selectableOnly)]
      (some (.naming (some (s.attempt failed)) selectableOnly ⟨now, answerAt, some limit⟩))
  | linger {failed : Nat} {selectableOnly : Bool} {call call' : Call} :
    call'.startedAt = call.startedAt → call'.limit = call.limit →
    FetchStep s limit now (some (.naming (some (s.attempt failed)) selectableOnly call)) []
      (some (.naming (some (s.attempt failed)) selectableOnly call'))
  | pause {failed wait : Nat} {selectableOnly : Bool} {call : Call} {answer : Answer (List String)} :
    namesOf answer = [] → failed + 1 < s.lastAttempt →
    s.attemptPause failed ≤ wait → 10 * wait ≤ 11 * s.attemptPause failed →
    FetchStep s limit now (some (.naming (some (s.attempt failed)) selectableOnly call))
      [.named answer] (some (.pausing (s.attempt (failed + 1)) (now + wait)))
  | giveUp {failed : Nat} {selectableOnly : Bool} {call : Call} {answer : Answer (List String)} :
    namesOf answer = [] → s.lastAttempt ≤ failed + 1 →
    FetchStep s limit now (some (.naming (some (s.attempt failed)) selectableOnly call))
      [.named answer, .returned (.loaded 0)] none
  | found {failed : Nat} {selectableOnly : Bool} {call : Call} {names : List String}
    {asks : List Operation} {loads : List Load} : names ≠ [] → Inquires asks →
    pending loads = names → successes loads = 0 →
    FetchStep s limit now (some (.naming (some (s.attempt failed)) selectableOnly call))
      (.named (.ok names) :: asks.map .asked) (some (.loading .all loads))
  | load {heard : Option (String × Answer GroupReport)} {asks : List Operation}
    {loads loads' : List Load} : LoadsHear heard loads loads' → Inquires asks →
    pending loads' ≠ [] →
    FetchStep s limit now (some (.loading .all loads))
      (FetchNote.ofReport heard ++ asks.map .asked) (some (.loading .all loads'))
  | finish {heard : Option (String × Answer GroupReport)} {asks : List Operation}
    {loads loads' : List Load} : LoadsHear heard loads loads' → Inquires asks →
    pending loads' = [] →
    FetchStep s limit now (some (.loading .all loads))
      (FetchNote.ofReport heard ++ asks.map .asked ++ [.returned (.loaded (successes loads'))]) none

namespace Job.Fetches

variable {s : Config.Scheduler} {job : Job}

theorem ordinary (h : job.Fetches s) : job.plan? = none ∧ job.isCoordinating = false := by
  cases h <;> exact ⟨rfl, rfl⟩

theorem stepJob {σ : Type} (h : job.Fetches s) (C : Core σ) (e : Engine σ) (id : Nat) :
    e.stepJob C id job = Engine.afterRequest id (e.stepRequest C job) := by
  cases h <;> rfl

end Job.Fetches

def RequestMove.rest : RequestMove → Option Job
  | .wait job => some job
  | .done _ => none

def RequestMove.notes : RequestMove → List FetchNote
  | .wait _ => []
  | .done result => [.returned result]

namespace Engine

variable {σ : Type} {C : Core σ} {e e' : Engine σ} {t : Task} {n : Nat} {s : Config.Scheduler}
  {job : Job} {loads : List Load}

def jobOf? (e : Engine σ) (id : Nat) : Option Job :=
  (e.tasks.find? (·.id == id)).map Task.job

def heardLoad? (C : Core σ) (e : Engine σ) : List Load → Option (String × Answer GroupReport)
  | [] => none
  | .done _ :: rest => heardLoad? C e rest
  | .asking _ query :: rest =>
    if e.isOver query.wait then
      match (e.advanceQuery C query).2 with
      | .inl _ => none
      | .inr answer => some (query.group, answer)
    else heardLoad? C e rest

def fetchHears (C : Core σ) (e : Engine σ) : Job → List FetchNote
  | .naming (some _) selectableOnly call =>
    match (e.hear call (C.names selectableOnly)).2 with
    | .inl _ => []
    | .inr answer => [.named answer]
  | .loading .all loads => FetchNote.ofReport (heardLoad? C e loads)
  | _ => []

def fetchNotes (C : Core σ) (id : Nat) (e : Engine σ) : Action σ → List FetchNote
  | .resume t =>
    if t.id = id then
      e.fetchHears C t.job ++ (e.askedBy C id (.resume t)).map .asked ++
        if ((resume C e t).jobOf? id).isSome then []
        else ((resume C e t).result? id).toList.map .returned
    else []
  | _ => []

theorem heardLoad?_without (C : Core σ) (e : Engine σ) (t : Task) (loads : List Load) :
    heardLoad? C (e.without t) loads = heardLoad? C e loads := by
  induction loads with
  | nil => rfl
  | cons load rest ih =>
    cases load with
    | done ok => exact ih
    | asking index query => simp only [heardLoad?, isOver_without, advanceQuery_without, ih]

theorem fetchHears_without (C : Core σ) (e : Engine σ) (t : Task) (job : Job) :
    (e.without t).fetchHears C job = e.fetchHears C job := by
  cases job with
  | naming attempt selectableOnly call =>
    cases attempt with
    | none => rfl
    | some attempt => simp only [fetchHears, hear_without]
  | loading goal loads =>
    cases goal with
    | all => simp only [fetchHears, heardLoad?_without]
    | one | refresh => rfl
  | _ => rfl

theorem stepLoads_hear (C : Core σ) (e : Engine σ) (loads : List Load) :
    LoadsHear (heardLoad? C e loads) loads (stepLoads C e loads).2 := by
  induction loads with
  | nil => exact .nothing rfl rfl
  | cons load rest ih =>
    cases load with
    | done ok => exact ih.cons _
    | asking index query =>
      unfold heardLoad? stepLoads
      dsimp only
      split
      · unfold stepLoad
        rcases hquery : e.advanceQuery C query with ⟨e', query' | error | report⟩
        · exact .nothing (congrArg (· :: pending rest) (advanceQuery_group hquery)) rfl
        · exact .report (.refl _) (successes_cons _ _)
        · exact .report (.refl _) (successes_cons _ _)
      · exact ih.cons _

def Inquired (e e' : Engine (σ × List Operation)) : Prop :=
  ∃ asks, e'.core.2 = e.core.2 ++ asks ∧ Inquires asks

theorem inquired_same {e e' : Engine (σ × List Operation)} (h : e'.core.2 = e.core.2) :
    Inquired e e' :=
  ⟨[], by rw [h, List.append_nil], nofun⟩

theorem Inquired.trans {e e' e'' : Engine (σ × List Operation)} (h : Inquired e e')
    (h' : Inquired e' e'') : Inquired e e'' := by
  obtain ⟨asks, hlog, hasks⟩ := h
  obtain ⟨asks', hlog', hasks'⟩ := h'
  exact ⟨asks ++ asks', by rw [hlog', hlog, List.append_assoc],
    List.forall_mem_append.mpr ⟨hasks, hasks'⟩⟩

theorem call_inquired (C : Core σ) (group : String) (sort : SortMode) (limit : Option Nat)
    (e : Engine (σ × List Operation)) :
    Inquired e (e.call C.traced (.report group sort) limit).1 :=
  ⟨[.report group sort], rfl, fun _ h => ⟨group, sort, List.mem_singleton.mp h⟩⟩

theorem query_inquired (C : Core σ) (group : String) (sort : SortMode) (limit : Nat)
    (e : Engine (σ × List Operation)) : Inquired e (e.query C.traced group sort limit).1 := by
  unfold query
  dsimp only
  split
  · exact inquired_same rfl
  · exact call_inquired C group sort (some limit) { e with permits := e.permits.acquire.1 }

theorem advanceQuery_inquired (C : Core σ) (query : Query) (e : Engine (σ × List Operation)) :
    Inquired e (e.advanceQuery C.traced query).1 := by
  unfold advanceQuery
  split
  · next ticket _ =>
    split
    · exact call_inquired C query.group query.sort (some query.limit)
        { e with permits := e.permits.claim ticket }
    · exact inquired_same rfl
  · next call _ =>
    have hlog := hear_log call (C.traced.report query.group query.sort) (fun _ => rfl) e
    split
    · next he => rw [he] at hlog; exact inquired_same hlog
    · next answer he =>
      rw [he] at hlog
      refine inquired_same ?_
      rw [note_core]
      exact hlog

theorem fillDelays_core (e : Engine σ) (members : List Proxy) :
    (e.fillDelays members).1.core = e.core := by
  induction members generalizing e with
  | nil => rfl
  | cons p rest ih =>
    have hfirst : (e.fillDelay p).1.core = e.core := by
      unfold fillDelay
      split <;> rfl
    exact (ih _).trans hfirst

theorem stepLoad_inquired (C : Core σ) (index : Nat) (query : Query)
    (e : Engine (σ × List Operation)) : Inquired e (stepLoad C.traced e index query).1 := by
  have hquery := advanceQuery_inquired C query e
  unfold stepLoad
  split
  · next he => rw [he] at hquery; exact hquery
  · next he => rw [he] at hquery; exact hquery
  · next e' report he =>
    rw [he] at hquery
    exact hquery.trans (inquired_same (congrArg Prod.snd (fillDelays_core e' report.members)))

theorem stepLoads_inquired (C : Core σ) (loads : List Load) (e : Engine (σ × List Operation)) :
    Inquired e (stepLoads C.traced e loads).1 := by
  have h := stepLoads_turn C.traced e loads
  generalize stepLoads C.traced e loads = x at h
  cases h with
  | none => exact inquired_same rfl
  | one => exact stepLoad_inquired C _ _ e

theorem startLoads_inquired (C : Core σ) (indices : List Nat) (e : Engine (σ × List Operation)) :
    Inquired e (startLoads C.traced e indices).1 := by
  induction indices generalizing e with
  | nil => exact inquired_same rfl
  | cons index rest ih =>
    have hfirst : Inquired e (startLoad C.traced e index).1 := by
      unfold startLoad
      split
      · exact inquired_same rfl
      · exact query_inquired C _ _ _ e
    exact hfirst.trans (ih _)

theorem applyNames_core (e : Engine σ) (names : List String) :
    (e.applyNames names).1.core = e.core := by
  by_cases h : e.registry.names = names
  · rw [applyNames_of_eq e h]
  · have hstop : e.stopAll.1.core = e.core :=
      stopSessions_keep core (fun e index outcome => by unfold stopSession; split <;> rfl)
        e.sessions.keys .stopped e
    rw [applyNames_of_ne e h]
    exact hstop

theorem askNames_steps (C : Core σ) (e : Engine σ) (attempt : Attempt) :
    ∃ selectableOnly answerAt,
      (askNames C e (some attempt)).2 = .wait (.naming (some attempt) selectableOnly
        ⟨e.now, answerAt, some e.requestTimeout⟩) ∧
      (askNames C.traced e.withLog (some attempt)).1.core.2 = [.names selectableOnly] ∧
      Untouched e (askNames C e (some attempt)).1 :=
  ⟨_, _, rfl, rfl, rfl, rfl, rfl⟩

theorem retry_steps (C : Core σ) (e : Engine σ) (s : Config.Scheduler) (failed : Nat) :
    Untouched e (retry C e (s.attempt failed)).1 ∧
      if failed + 1 < s.lastAttempt then
        ∃ wait, (retry C e (s.attempt failed)).2 =
            .wait (.pausing (s.attempt (failed + 1)) (e.now + wait)) ∧
          s.attemptPause failed ≤ wait ∧ 10 * wait ≤ 11 * s.attemptPause failed
      else (retry C e (s.attempt failed)).2 = .done (.loaded 0) := by
  unfold retry
  by_cases hmore : failed + 1 < s.lastAttempt
  · have hnumber : (s.attempt failed).number < (s.attempt failed).last := hmore
    rw [if_pos hnumber, if_pos hmore]
    obtain ⟨hleast, hmost⟩ := s.attemptPause_bounds failed (C.draw e.core).2
    refine ⟨⟨rfl, rfl, rfl⟩, _, ?_, hleast, hmost⟩
    have hcounter : min (min failed Backoff.word + 1) Backoff.word =
        min (failed + 1) Backoff.word := by omega
    have hbackoff : ((s.attempt failed).backoff.next (C.draw e.core).2).2 =
        (s.attempt (failed + 1)).backoff := congrArg (Backoff.mk _ _) hcounter
    dsimp only
    rw [hbackoff]
    rfl
  · have hnumber : ¬ (s.attempt failed).number < (s.attempt failed).last := hmore
    rw [if_neg hnumber, if_neg hmore]
    exact ⟨.refl e, rfl⟩

theorem startLoads_pending (C : Core σ) (e : Engine σ) (indices : List Nat) :
    pending (startLoads C e indices).2 = indices.filterMap (e.registry.names[·]?) ∧
      successes (startLoads C e indices).2 = 0 := by
  induction indices generalizing e with
  | nil => exact ⟨rfl, rfl⟩
  | cons index rest ih =>
    obtain ⟨hpending, hsuccesses⟩ := ih (startLoad C e index).1
    rw [(startLoad_quiet C e index).registry] at hpending
    have hloads : (startLoads C e (index :: rest)).2 =
        (startLoad C e index).2 :: (startLoads C (startLoad C e index).1 rest).2 := rfl
    have hfirst : (startLoad C e index).2.group? = e.registry.names[index]? ∧
        (startLoad C e index).2.hasSucceeded = false := by
      unfold startLoad
      split
      · next hnone => exact ⟨hnone.symm, rfl⟩
      · next group hname =>
        exact ⟨(congrArg some (query_group C group _ _ e)).trans hname.symm, rfl⟩
    rw [hloads, successes_cons, hsuccesses, hfirst.2, pending, List.filterMap_cons,
      List.filterMap_cons, hfirst.1, ← pending, hpending]
    exact ⟨rfl, rfl⟩

theorem filterMap_range_getElem? {α : Type} (xs : List α) :
    (List.range xs.length).filterMap (xs[·]?) = xs := by
  induction xs with
  | nil => rfl
  | cons x rest ih =>
    rw [List.length_cons, List.range_succ_eq_map, List.filterMap_cons, List.filterMap_map]
    exact congrArg (x :: ·) ih

theorem loadAll_steps (C : Core σ) (e : Engine σ) {names : List String} (h : names ≠ []) :
    ∃ loads, (loadAll C (e.applyNames names).1 .all).2 = .wait (.loading .all loads) ∧
      pending loads = names ∧ successes loads = 0 := by
  have hnames := applyNames_names e names
  obtain ⟨hpending, hsuccesses⟩ :=
    startLoads_pending C (e.applyNames names).1 (List.range names.length)
  rw [hnames, filterMap_range_getElem?] at hpending
  refine ⟨_, ?_, hpending, hsuccesses⟩
  show loadMove .all (startLoads C _ (List.range (e.applyNames names).1.registry.names.length)).2 = _
  rw [hnames]
  refine if_neg ?_
  rwa [all_isDone_iff, hpending]

theorem loadAll_inquired (C : Core σ) (e : Engine (σ × List Operation)) (names : List String) :
    Inquired e (loadAll C.traced (e.applyNames names).1 .all).1 :=
  (inquired_same (congrArg Prod.snd (applyNames_core e names))).trans
    (startLoads_inquired C _ (e.applyNames names).1)

theorem takeNames_nameless (C : Core σ) (e : Engine σ) (attempt : Attempt)
    {answer : Answer (List String)} (h : namesOf answer = []) :
    takeNames C e (some attempt) answer = retry C e attempt := by
  cases answer with
  | error error => rfl
  | ok names =>
    obtain rfl : names = [] := h
    rfl

theorem takeNames_found (C : Core σ) (e : Engine σ) (attempt : Attempt) {names : List String}
    (h : names ≠ []) :
    takeNames C e (some attempt) (.ok names) = loadAll C (e.applyNames names).1 .all := by
  cases names with
  | nil => exact absurd rfl h
  | cons name rest => rfl

theorem retry_log (C : Core σ) (e : Engine σ) (attempt : Attempt) :
    (retry C.traced e.withLog attempt).1.core.2 = [] := by
  unfold retry
  split <;> rfl

theorem takeNames_steps (C : Core σ) (e : Engine σ) (s : Config.Scheduler) (limit failed : Nat)
    (selectableOnly : Bool) (call : Call) (answer : Answer (List String)) :
    FetchStep s limit e.now (some (.naming (some (s.attempt failed)) selectableOnly call))
      (.named answer ::
        (takeNames C.traced e.withLog (some (s.attempt failed)) answer).1.core.2.map .asked ++
        (takeNames C e (some (s.attempt failed)) answer).2.notes)
      (takeNames C e (some (s.attempt failed)) answer).2.rest := by
  by_cases hnone : namesOf answer = []
  · rw [takeNames_nameless C _ _ hnone, takeNames_nameless C.traced _ _ hnone, retry_log]
    have hretry := (retry_steps C e s failed).2
    split at hretry
    · next hmore =>
      obtain ⟨wait, hwait, hleast, hmost⟩ := hretry
      rw [hwait]
      exact .pause hnone hmore hleast hmost
    · next hlast =>
      rw [hretry]
      exact .giveUp hnone (Nat.le_of_not_lt hlast)
  · cases answer with
    | error error => exact absurd rfl hnone
    | ok names =>
      have hsome : names ≠ [] := hnone
      obtain ⟨loads, hwait, hpending, hsuccesses⟩ := loadAll_steps C e hsome
      obtain ⟨asks, hlog, hinquires⟩ := loadAll_inquired C e.withLog names
      rw [takeNames_found C _ _ hsome, takeNames_found C.traced _ _ hsome, hwait, hlog,
        RequestMove.notes, List.append_nil]
      exact .found hsome hinquires hpending hsuccesses

def stepNotes (C : Core σ) (e : Engine σ) (job : Job) : List FetchNote :=
  e.fetchHears C job ++ (stepRequest C.traced e.withLog job).1.core.2.map .asked ++
    (stepRequest C e job).2.notes

theorem naming_steps (C : Core σ) (e : Engine σ) (s : Config.Scheduler) (failed : Nat)
    (selectableOnly : Bool) (call : Call) :
    let job : Job := .naming (some (s.attempt failed)) selectableOnly call
    FetchStep s e.requestTimeout e.now (some job) (e.stepNotes C job)
      (stepRequest C e job).2.rest := by
  intro job
  have hlogged : e.withLog.hear call (C.traced.names selectableOnly) =
      ((e.hear call (C.names selectableOnly)).1.withLog,
        (e.hear call (C.names selectableOnly)).2) := hear_withLog call (fun _ _ => rfl) e
  have hquiet := hear_quiet call (C.names selectableOnly) e
  unfold stepNotes
  rcases hheard : e.hear call (C.names selectableOnly) with ⟨e', call' | answer⟩
  · rw [hheard] at hlogged
    have hhears : e.fetchHears C job = [] := by simp only [job, fetchHears, hheard]
    have hstep : stepRequest C e job = (e', .wait (.naming (some (s.attempt failed))
        selectableOnly call')) := by simp only [job, stepRequest, hheard]
    have hasks : (stepRequest C.traced e.withLog job).1.core.2 = [] := by
      simp only [job, stepRequest, hlogged]
      rfl
    obtain ⟨hstarted, hlimit⟩ := hear_waits (congrArg Prod.snd hheard)
    rw [hhears, hstep, hasks]
    exact .linger hstarted hlimit
  · -- the core that writes down what it is asked answers alike, so both go on from the same names
    rw [hheard] at hlogged hquiet
    obtain ⟨heard, hnoted⟩ : ∃ heard, heard = note (.names selectableOnly) answer e' := ⟨_, rfl⟩
    have hhears : e.fetchHears C job = [.named answer] := by simp only [job, fetchHears, hheard]
    have hstep : stepRequest C e job = takeNames C heard (some (s.attempt failed)) answer := by
      simp only [job, stepRequest, hheard, hnoted]
    have hasks : stepRequest C.traced e.withLog job =
        takeNames C.traced heard.withLog (some (s.attempt failed)) answer := by
      simp only [job, stepRequest, hlogged, note_withLog, hnoted]
    have hnow : heard.now = e.now := by
      rw [hnoted, (note_quiet _ answer e').now]
      exact hquiet.now
    rw [hhears, hstep, hasks, ← hnow]
    exact takeNames_steps C heard s _ failed selectableOnly call answer

theorem pausing_steps (C : Core σ) (e : Engine σ) (s : Config.Scheduler) (failed due : Nat) :
    FetchStep s e.requestTimeout e.now (some (.pausing (s.attempt failed) due))
      (e.stepNotes C (.pausing (s.attempt failed) due))
      (stepRequest C e (.pausing (s.attempt failed) due)).2.rest := by
  unfold stepNotes
  by_cases hdue : due ≤ e.now
  · have hstep {τ : Type} (C : Core τ) (e : Engine τ) (hdue : due ≤ e.now) :
        stepRequest C e (.pausing (s.attempt failed) due) =
          askNames C e (some (s.attempt failed)) := if_pos hdue
    obtain ⟨selectableOnly, answerAt, hwait, hasks, -⟩ := askNames_steps C e (s.attempt failed)
    rw [hstep C.traced e.withLog hdue, hstep C e hdue, hasks, hwait]
    exact .ask selectableOnly answerAt hdue
  · have hstep {τ : Type} (C : Core τ) (e : Engine τ) (hdue : ¬ due ≤ e.now) :
        stepRequest C e (.pausing (s.attempt failed) due) =
          (e, .wait (.pausing (s.attempt failed) due)) := if_neg hdue
    rw [hstep C.traced e.withLog hdue, hstep C e hdue]
    exact .rest

theorem loadResult_all (loads : List Load) : loadResult .all loads = .loaded (successes loads) := by
  refine congrArg Result.loaded (List.countP_congr fun load _ => ?_)
  cases load <;> rfl

theorem loading_steps (C : Core σ) (e : Engine σ) (s : Config.Scheduler) (loads : List Load) :
    FetchStep s e.requestTimeout e.now (some (.loading .all loads))
      (e.stepNotes C (.loading .all loads)) (stepRequest C e (.loading .all loads)).2.rest := by
  have hhear := stepLoads_hear C e loads
  obtain ⟨asks, hlog, hinquires⟩ := stepLoads_inquired C loads e.withLog
  have hasks : (stepRequest C.traced e.withLog (.loading .all loads)).1.core.2 = asks := hlog
  have hmove : (stepRequest C e (.loading .all loads)).2 =
      loadMove .all (stepLoads C e loads).2 := rfl
  rw [stepNotes, hasks, hmove, loadMove]
  split
  · next hdone =>
    rw [loadResult_all]
    exact .finish hhear hinquires (all_isDone_iff.mp hdone)
  · next hmore =>
    rw [RequestMove.notes, List.append_nil]
    exact .load hhear hinquires (mt all_isDone_iff.mpr hmore)

theorem stepRequest_fetches (h : job.Fetches s) (C : Core σ) (e : Engine σ) :
    FetchStep s e.requestTimeout e.now (some job) (e.stepNotes C job)
      (stepRequest C e job).2.rest := by
  cases h with
  | naming failed selectableOnly call => exact naming_steps C e s failed selectableOnly call
  | pausing failed due => exact pausing_steps C e s failed due
  | loading loads => exact loading_steps C e s loads

theorem jobOf?_mem (h : e.jobOf? n = some job) : ∃ t ∈ e.tasks, t.id = n ∧ t.job = job := by
  obtain ⟨t, ht, hj⟩ := Option.map_eq_some_iff.mp h
  have hid := List.find?_some ht
  exact ⟨t, List.mem_of_find?_eq_some ht, by simpa using hid, hj⟩

theorem jobOf?_none : e.jobOf? n = none ↔ ∀ t ∈ e.tasks, t.id ≠ n := by
  simp [jobOf?]

theorem Numbered.jobOf? (h : Numbered [] e) (ht : t ∈ e.tasks) : e.jobOf? t.id = some t.job := by
  cases hjob : e.jobOf? t.id with
  | none => exact absurd rfl (jobOf?_none.mp hjob t ht)
  | some job =>
    obtain ⟨u, hu, hid, rfl⟩ := jobOf?_mem hjob
    rw [h.mem_eq ht hu hid]

theorem resume_jobOf? (C : Core σ) (hn : Numbered [] e) (ht : t ∈ e.tasks)
    (hlive : t.isAborted = false) :
    (resume C e t).jobOf? t.id = (stepJob C (e.without t) t.id t.job).2 := by
  have hstaffs := (stepJob_staffs C (e.without t) t.id t.job).numbered (hn.without ht)
  rw [resume_lives C e hlive]
  generalize stepJob C (e.without t) t.id t.job = x at hstaffs ⊢
  obtain ⟨e', next⟩ := x
  cases next with
  | none => exact jobOf?_none.mpr hstaffs.gone
  | some next => exact (hstaffs.park (some next)).jobOf? (mem_park e' t next)

theorem afterRequest_rest (id : Nat) (x : Engine σ × RequestMove) :
    (afterRequest id x).2 = x.2.rest := by
  obtain ⟨e, move⟩ := x
  cases move <;> rfl

theorem fetch_turn (C : Core σ) (hn : Numbered [] e) (ht : t ∈ e.tasks)
    (hlive : t.isAborted = false)
    (hstep : ∀ {τ : Type} (C : Core τ) (e : Engine τ),
      stepJob C e t.id t.job = afterRequest t.id (stepRequest C e t.job)) :
    e.fetchNotes C t.id (.resume t) = (e.without t).stepNotes C t.job ∧
      (resume C e t).jobOf? t.id = (stepRequest C (e.without t) t.job).2.rest := by
  have hleft : (resume C e t).jobOf? t.id = (stepRequest C (e.without t) t.job).2.rest := by
    rw [resume_jobOf? C hn ht hlive, hstep, afterRequest_rest]
  have hturn := resume_lives C e hlive
  rw [hstep] at hturn
  refine ⟨?_, hleft⟩
  rw [fetchNotes, if_pos rfl, hleft, askedBy_own C e hlive, hstep, afterRequest_core, stepNotes,
    fetchHears_without, hturn]
  rw [List.append_cancel_left_eq]
  generalize stepRequest C (e.without t) t.job = x
  obtain ⟨e', move⟩ := x
  cases move with
  | wait job => rfl
  | done result =>
    show ((List.lookup t.id ((t.id, result) :: e'.results)).toList).map _ = _
    rw [List.lookup_cons_self]
    rfl

theorem fetchNotes_stranger {a : Action σ} (h : ∀ t, a = .resume t → t.id ≠ n) :
    e.fetchNotes C n a = [] := by
  cases a with
  | resume t => exact if_neg (h t rfl)
  | _ => rfl

theorem stepRequest_park_untouched (C : Core σ) (hlive : t.isAborted = false)
    (hstep : stepJob C (e.without t) t.id t.job =
      afterRequest t.id (stepRequest C (e.without t) t.job)) :
    Untouched (stepRequest C (e.without t) t.job).1 (resume C e t) := by
  rw [resume_lives C e hlive, hstep]
  exact (afterRequest_untouched t.id _).trans (park_untouched _ t _)

theorem fetch_starts (hsound : Sound e) (C : Core σ) (ht : t ∈ e.tasks)
    (hj : t.job = .start .prefetch) :
    Untouched e (resume C e t) ∧ ∃ selectableOnly answerAt,
      e.fetchNotes C t.id (.resume t) = [.asked (.names selectableOnly)] ∧
      (resume C e t).jobOf? t.id = some (.naming (some (e.config.scheduler.attempt 0))
        selectableOnly ⟨e.now, answerAt, some e.requestTimeout⟩) := by
  have hlive := not_aborted_of_proper (hsound.coherent.proper t ht) (by rw [hj]; rfl)
  obtain ⟨hnotes, hleft⟩ := fetch_turn C hsound.numbered ht hlive fun C e => by rw [hj]; rfl
  have huntouched := stepRequest_park_untouched (e := e) C hlive (by rw [hj]; rfl)
  rw [hj] at hnotes hleft huntouched
  obtain ⟨_, _, -, -, hasked⟩ := askNames_steps C (e.without t) (e.config.scheduler.attempt 0)
  have hwithout : Untouched e (e.without t) := ⟨rfl, rfl, rfl⟩
  exact ⟨(hwithout.trans hasked).trans huntouched, _, _, hnotes, hleft⟩

theorem fetch_act (hsound : Sound e) (C : Core σ) {a : Action σ} (ha : e.Allows a)
    (hid : n < e.nextTask) (hjob : ∀ job ∈ e.jobOf? n, job.Fetches s) :
    FetchStep s e.requestTimeout e.now (e.jobOf? n) (e.fetchNotes C n a)
      ((e.perform C a).jobOf? n) := by
  have hn := hsound.numbered
  -- only its own turn moves a prefetch: nobody tells it anything, and its number is not given again
  by_cases hown : ∃ t, a = .resume t ∧ t.id = n
  · obtain ⟨t, rfl, rfl⟩ := hown
    have hfetches : t.job.Fetches s := hjob _ (hn.jobOf? ha)
    have hlive := not_aborted_of_proper (hsound.coherent.proper t ha) hfetches.ordinary.1
    obtain ⟨hnotes, hleft⟩ := fetch_turn C hn ha hlive fun C e => hfetches.stepJob C e t.id
    show FetchStep s _ _ _ _ ((resume C e t).jobOf? t.id)
    rw [hn.jobOf? ha, hnotes, hleft]
    exact stepRequest_fetches hfetches C (e.without t)
  · have hother : ∀ t, a = .resume t → t.id ≠ n := fun t ht htid => hown ⟨t, ht, htid⟩
    rw [fetchNotes_stranger hother]
    cases hwas : e.jobOf? n with
    | none =>
      have hgone := perform_within (F := fun _ => False) (fun _ h => h.elim)
        (fun _ _ _ h => h.elim) (C := C) ha hid fun t ht htid => jobOf?_none.mp hwas t ht htid
      rw [jobOf?_none.mpr fun t ht htid => hgone t ht htid]
      exact .rest
    | some job =>
      obtain ⟨t, ht, rfl, rfl⟩ := jobOf?_mem hwas
      have hfetches : t.job.Fetches s := hjob _ hwas
      obtain ⟨u, hu, htid, hkept⟩ := perform_leaves C hsound.coherent hn ha ht
        hfetches.ordinary.1 hfetches.ordinary.2 hother
      have hstays := (hn.perform C hsound.coherent ha).jobOf? hu
      rw [htid, hkept] at hstays
      rw [hstays]
      exact .rest

theorem retrying_untouched (C : Core σ) (hp : t.Proper) (hjob : t.job.Fetches s)
    (hretries : ∀ loads, t.job ≠ .loading .all loads)
    (hnone : ∀ answer, .named answer ∈ e.fetchHears C t.job → namesOf answer = []) :
    Untouched e (resume C e t) := by
  have hlive := not_aborted_of_proper hp hjob.ordinary.1
  have hwithout : Untouched e (e.without t) := ⟨rfl, rfl, rfl⟩
  refine hwithout.trans (.trans ?_ (stepRequest_park_untouched C hlive (hjob.stepJob C _ t.id)))
  rw [← fetchHears_without C e t] at hnone
  generalize e.without t = e at hnone ⊢
  generalize t.job = job at hjob hretries hnone ⊢
  cases hjob with
  | naming failed selectableOnly call =>
    have hheard := hear_untouched call (C.names selectableOnly) e
    unfold stepRequest fetchHears at *
    dsimp only at *
    split
    · next he => rw [he] at hheard; exact hheard
    · next e' answer he =>
      rw [he] at hheard hnone
      have hanswer : namesOf answer = [] := hnone answer (List.mem_singleton_self _)
      have hnoted : Untouched e' (note (.names selectableOnly) answer e') := by
        cases answer <;> exact ⟨rfl, rfl, rfl⟩
      rw [takeNames_nameless C _ _ hanswer]
      exact (hheard.trans hnoted).trans (retry_steps C _ s failed).1
  | pausing failed due =>
    unfold stepRequest
    dsimp only
    split
    · exact ⟨rfl, rfl, rfl⟩
    · exact .refl e
  | loading loads => exact absurd rfl (hretries loads)

theorem found_applied (C : Core σ) (hc : Coherent e) (ht : t ∈ e.tasks) (hjob : t.job.Fetches s)
    {names : List String} (hnames : names ≠ [])
    (hheard : .named (.ok names) ∈ e.fetchHears C t.job) :
    ∃ e', Untouched e e' ∧ Untouched (e'.applyNames names).1 (resume C e t) := by
  rw [← fetchHears_without C e t] at hheard
  generalize hj : t.job = job at hjob hheard
  cases hjob with
  | naming failed selectableOnly call =>
    unfold fetchHears at hheard
    dsimp only at hheard
    rcases he : (e.without t).hear call (C.names selectableOnly) with ⟨e', call' | answer⟩
    · rw [he] at hheard
      cases hheard
    · rw [he] at hheard
      cases List.mem_singleton.mp hheard
      exact ⟨e', resume_names_untouched C hc ht hj he fun _ => hnames⟩
  | pausing failed due => cases hheard
  | loading loads =>
    obtain ⟨x, -, hx⟩ := List.mem_map.mp hheard
    cases hx

end Engine

end ProxyPulse
