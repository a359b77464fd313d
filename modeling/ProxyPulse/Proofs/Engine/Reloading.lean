import ProxyPulse.Proofs.Engine.Fidelity
import ProxyPulse.Proofs.Engine.Retracking

namespace ProxyPulse

def Job.loads : Job → List Load
  | .loading _ loads => loads
  | _ => []

inductive Load.Goes : Load → Load → Prop
  | done (ok : Bool) : Goes (.done ok) (.done ok)
  | asking {index : Nat} {query query' : Query} : query'.group = query.group →
    Goes (.asking index query) (.asking index query')
  | ends {index : Nat} {query : Query} (ok : Bool) : Goes (.asking index query) (.done ok)

theorem Load.Goes.refl (load : Load) : load.Goes load := by
  cases load with
  | asking index query => exact .asking rfl
  | done ok => exact .done ok

theorem Load.Goes.trans {x y z : Load} (h : x.Goes y) (h' : y.Goes z) : x.Goes z := by
  cases h with
  | done ok => exact h'
  | ends ok =>
    cases h'
    exact .ends ok
  | asking hg =>
    cases h' with
    | asking hg' => exact .asking (hg'.trans hg)
    | ends ok => exact .ends ok

namespace Engine

variable {σ : Type} {C : Core σ} {e e' : Engine σ} {goal : LoadGoal} {loads loads' : List Load}
  {index id : Nat} {query : Query} {job next : Job} {t : Task}

def Named (e : Engine σ) (loads : List Load) : Prop :=
  ∀ index query, .asking index query ∈ loads → e.registry.names[index]? = some query.group

theorem startLoad_named {i : Nat} (h : (startLoad C e i).2 = .asking index query) :
    e.registry.names[index]? = some query.group := by
  unfold startLoad at h
  split at h
  · cases h
  · next group hname =>
    obtain ⟨rfl, rfl⟩ := Load.asking.inj h
    exact hname.trans (congrArg some (query_group C group _ _ e).symm)

theorem startLoads_named (C : Core σ) (e : Engine σ) (indices : List Nat) :
    (startLoads C e indices).1.Named (startLoads C e indices).2 := by
  induction indices generalizing e with
  | nil => exact fun _ _ h => absurd h List.not_mem_nil
  | cons i rest ih =>
    intro index query h
    rcases List.mem_cons.mp h with hfirst | hmem
    · have hquiet := (startLoad_quiet C e i).trans (startLoads_quiet C (startLoad C e i).1 rest)
      show (startLoads C (startLoad C e i).1 rest).1.registry.names[index]? = _
      rw [hquiet.registry]
      exact startLoad_named hfirst.symm
    · exact ih _ index query hmem

theorem load_one {i : Nat} {name : String} (hname : e.registry.names[i]? = some name) :
    ∃ query, query.group = name ∧
      (load C e .one [i]).2 = .wait (.loading .one [.asking i query]) := by
  refine ⟨(e.query C name e.config.view.sort e.requestTimeout).2, query_group C name _ _ e, ?_⟩
  simp [load, startLoads, startLoad, hname, loadMove, Load.isDone]

def Starts (x : Engine σ × RequestMove) : Prop :=
  ∀ job, x.2 = .wait job → x.1.Named job.loads

theorem named_nil (e : Engine σ) : e.Named [] :=
  fun _ _ h => absurd h List.not_mem_nil

theorem load_starts (C : Core σ) (e : Engine σ) (goal : LoadGoal) (indices : List Nat) :
    Starts (load C e goal indices) := by
  intro job h
  simp only [load, loadMove] at h
  split at h
  · cases h
  · cases h
    exact startLoads_named C e indices

theorem takeNames_starts (C : Core σ) (e : Engine σ) (attempt : Option Attempt)
    (answer : Answer (List String)) : Starts (takeNames C e attempt answer) := by
  have hretry (attempt : Attempt) : Starts (retry C e attempt) := by
    intro job h
    unfold retry at h
    split at h <;> cases h
    exact named_nil _
  unfold takeNames
  split
  · exact hretry _
  · exact hretry _
  · exact load_starts C _ _ _
  · exact fun _ h => nomatch h
  · dsimp only
    split
    · exact load_starts C _ _ _
    · exact fun _ h => nomatch h

theorem startRequest_starts (C : Core σ) (e : Engine σ) (request : Request) :
    Starts (startRequest C e request) := by
  cases request with
  | reload index => exact load_starts C e _ _
  | reloadAll => exact load_starts C e _ _
  | _ =>
    intro job h
    simp only [startRequest, startPrefetch, askNames, startChoice, startWalk] at h
    repeat' split at h
    all_goals cases h
    all_goals exact named_nil _

theorem stepRequest_starts (C : Core σ) (e : Engine σ) (hjob : job.loads = []) :
    Starts (stepRequest C e job) := by
  cases job with
  | start request => exact startRequest_starts C e request
  | loading goal loads =>
    obtain rfl : loads = [] := hjob
    exact fun _ h => nomatch h
  | naming attempt selectableOnly call =>
    unfold stepRequest
    dsimp only
    split
    · exact fun _ h => by cases h; exact named_nil _
    · exact takeNames_starts C _ attempt _
  | _ =>
    intro next h
    simp only [stepRequest, askNames, takeChoice, takeStep, startWalk] at h
    repeat' split at h
    all_goals cases h
    all_goals exact named_nil _

theorem stepJob_starts (C : Core σ) (e : Engine σ) (id : Nat) (hjob : job.loads = [])
    (hn : next ∈ (stepJob C e id job).2) : (stepJob C e id job).1.Named next.loads := by
  cases hp : job.plan? with
  | some plan =>
    rw [stepJob_session C e id hp] at hn
    rcases hs : e.stepSession C job with ⟨e', move⟩
    rw [hs] at hn
    cases move with
    | wait job' =>
      obtain rfl := Option.some.inj hn
      have hplan := stepSession_plan hp (congrArg Prod.snd hs)
      have hnone : job'.loads = [] := by
        cases job' with
        | loading => cases hplan
        | _ => rfl
      rw [hnone]
      exact named_nil _
    | stop outcome => cases hn
    | breakOff => cases hn
  | none =>
    have hrequest (h : stepJob C e id job = afterRequest id (stepRequest C e job)) :
        (stepJob C e id job).1.Named next.loads := by
      have hstarts := stepRequest_starts C e hjob
      rw [h] at hn ⊢
      have hquiet := afterRequest_quiet id (stepRequest C e job)
      have hnamed := hstarts next (afterRequest_wait hn)
      intro index query hmem
      rw [hquiet.registry]
      exact hnamed index query hmem
    cases job with
    | batch probes | triggering session group limit call | coordinating c =>
      obtain ⟨_, _, rfl⟩ := Option.map_eq_some_iff.mp hn
      exact named_nil _
    | opening plan | ticking plan polling | polling plan polling query
    | collecting plan missing deadline inbox => cases hp
    | _ => exact hrequest rfl

theorem stepLoad_goes (C : Core σ) (e : Engine σ) (index : Nat) (query : Query) :
    (Load.asking index query).Goes (stepLoad C e index query).2 := by
  unfold stepLoad
  split
  · next he => exact .asking (advanceQuery_group he)
  · exact .ends false
  · exact .ends true

theorem goes_refl (loads : List Load) : List.Forall₂ Load.Goes loads loads :=
  List.forall₂_same.mpr fun load _ => Load.Goes.refl load

theorem goes_trans {loads'' : List Load} (h : List.Forall₂ Load.Goes loads loads')
    (h' : List.Forall₂ Load.Goes loads' loads'') : List.Forall₂ Load.Goes loads loads'' := by
  induction h generalizing loads'' with
  | nil => exact h'
  | cons hx _ ih =>
    cases h' with
    | cons hy hrest => exact .cons (hx.trans hy) (ih hrest)

theorem stepLoads_goes (C : Core σ) (e : Engine σ) (loads : List Load) :
    List.Forall₂ Load.Goes loads (stepLoads C e loads).2 := by
  have h := stepLoads_turn C e loads
  generalize stepLoads C e loads = x at h
  cases h with
  | none => exact goes_refl _
  | one => exact List.rel_append (goes_refl _) (.cons (stepLoad_goes C e _ _) (goes_refl _))

theorem stepJob_goes (C : Core σ) (e : Engine σ) (id : Nat)
    (hn : next ∈ (stepJob C e id (.loading goal loads)).2) :
    ∃ loads', next = .loading goal loads' ∧ List.Forall₂ Load.Goes loads loads' := by
  have hwait : (stepRequest C e (.loading goal loads)).2 = .wait next := afterRequest_wait hn
  simp only [stepRequest, loadMove] at hwait
  split at hwait
  · cases hwait
  · cases hwait
    exact ⟨_, rfl, stepLoads_goes C e loads⟩

def Loading (e : Engine σ) (id : Nat) (goal : LoadGoal) (loads : List Load) : Prop :=
  ∀ t ∈ e.tasks, t.id = id →
    ∃ loads', t.job = .loading goal loads' ∧ List.Forall₂ Load.Goes loads loads'

theorem Run.loading {calls : List (TestCall σ)} (h : Run C e calls e') (hc : Coherent e)
    (hid : id < e.nextTask) (hl : e.Loading id goal loads) : e'.Loading id goal loads := by
  refine h.within (F := fun job =>
    ∃ loads', job = .loading goal loads' ∧ List.Forall₂ Load.Goes loads loads') ?_ ?_ hc hid hl
  · rintro job ⟨loads', rfl, -⟩
    exact ⟨rfl, rfl⟩
  · rintro e job next ⟨loads', rfl, hgoes⟩ hnext
    obtain ⟨loads'', rfl, hgoes'⟩ := stepJob_goes C e _ hnext
    exact ⟨loads'', rfl, goes_trans hgoes hgoes'⟩

structure Hears (C : Core σ) (e : Engine σ) (t : Task) (goal : LoadGoal) (before : List Load)
    (index : Nat) (query : Query) (after : List Load) (answer : Answer GroupReport) : Prop where
  job : t.job = .loading goal (before ++ .asking index query :: after)
  first : ∀ load ∈ before, ∀ w ∈ load.waits, e.isOver w = false
  heard : (e.advanceQuery C query).2 = .inr answer

def Settles (e : Engine σ) (id : Nat) (goal : LoadGoal) (loads : List Load) : Prop :=
  if loads.all Load.isDone then e.result? id = some (loadResult goal loads)
  else ({ id, job := .loading goal loads } : Task) ∈ e.tasks

variable {answer : Answer GroupReport} {before after : List Load}

theorem hear_over {α : Type} {call : Call} {answer : σ → σ × Option (Answer α)} {a : Answer α}
    (h : (e.hear call answer).2 = .inr a) : e.isOver (.answer call) = true := by
  unfold hear at h
  rw [isOver, Bool.or_eq_true]
  split at h
  · next hanswered => exact .inl hanswered
  · split at h
    · next hoverdue => exact .inr hoverdue
    · cases h

theorem advanceQuery_over (h : (e.advanceQuery C query).2 = .inr answer) :
    e.isOver query.wait = true := by
  unfold advanceQuery at h
  split at h
  · split at h <;> cases h
  · next call hstage =>
    rw [Query.wait, hstage]
    split at h
    · cases h
    · next he =>
      cases h
      exact hear_over (congrArg Prod.snd he)

theorem stepLoads_first (hover : e.isOver query.wait = true)
    (hfirst : ∀ load ∈ before, ∀ w ∈ load.waits, e.isOver w = false) :
    stepLoads C e (before ++ .asking index query :: after) =
      ((stepLoad C e index query).1, before ++ (stepLoad C e index query).2 :: after) := by
  induction before with
  | nil =>
    rw [List.nil_append, stepLoads]
    simp only [hover, if_true]
    rfl
  | cons load rest ih =>
    obtain ⟨hload, hrest⟩ := List.forall_mem_cons.mp hfirst
    rw [List.cons_append]
    cases load with
    | done ok =>
      rw [stepLoads]
      simp only [ih hrest]
      rfl
    | asking i q =>
      have hwaits : e.isOver q.wait = false := hload _ (List.mem_singleton_self _)
      rw [stepLoads]
      simp only [hwaits, ih hrest]
      rfl

theorem loadMove_settles (e : Engine σ) (t : Task) (goal : LoadGoal) (loads : List Load) :
    Settles ((afterRequest t.id (e, loadMove goal loads)).1.park t
      (afterRequest t.id (e, loadMove goal loads)).2) t.id goal loads := by
  unfold loadMove Settles
  split
  · simp [afterRequest, park, result?]
  · exact mem_park e t _

theorem isOver_without (e : Engine σ) (t : Task) (w : Wait) :
    (e.without t).isOver w = e.isOver w := by
  cases w <;> rfl

theorem Hears.turn (h : Hears C e t goal before index query after answer) (hp : t.Proper) :
    Untouched (stepLoad C (e.without t) index query).1 (resume C e t) ∧
    Settles (resume C e t) t.id goal
      (before ++ (stepLoad C (e.without t) index query).2 :: after) := by
  have ha := not_aborted_of_proper hp (by rw [h.job]; rfl)
  have hover := (isOver_without e t query.wait).trans (advanceQuery_over h.heard)
  have hstep : stepLoads C (e.without t) (before ++ .asking index query :: after) =
      ((stepLoad C (e.without t) index query).1,
        before ++ (stepLoad C (e.without t) index query).2 :: after) :=
    stepLoads_first hover fun load hload w hw =>
      (isOver_without e t w).trans (h.first load hload w hw)
  have hturn : resume C e t = (afterRequest t.id (stepRequest C (e.without t) t.job)).1.park t
      (afterRequest t.id (stepRequest C (e.without t) t.job)).2 := by
    rw [resume_lives C e ha, h.job]
    rfl
  obtain ⟨x, hx⟩ : ∃ x, x = stepRequest C (e.without t) t.job := ⟨_, rfl⟩
  have hmove : x = ((stepLoad C (e.without t) index query).1,
      loadMove goal (before ++ (stepLoad C (e.without t) index query).2 :: after)) := by
    rw [hx, h.job]
    simp only [stepRequest, hstep]
  rw [hturn, ← hx, hmove]
  exact ⟨(afterRequest_untouched t.id (_, _)).trans (park_untouched _ t _),
    loadMove_settles _ t goal _⟩

def fill (e : Engine σ) (p : Proxy) : Proxy :=
  if 0 < p.delay then p
  else { p with delay := (e.cache.fresh? e.config.cache.ttl e.now p.name).getD p.delay }

def reportedGroup (e : Engine σ) (group : String) (report : GroupReport) : Group :=
  ⟨group, report.members.map e.fill, report.selectable, report.now?⟩

theorem fillDelay_eq (e : Engine σ) (p : Proxy) : (e.fillDelay p).2 = e.fill p := by
  unfold fillDelay fill Proxy.hasKnownDelay isKnownDelay
  by_cases hp : 0 < p.delay <;> simp [hp, lookUp]

theorem fillDelay_untouched (e : Engine σ) (p : Proxy) : Untouched e (e.fillDelay p).1 := by
  unfold fillDelay
  split <;> exact ⟨rfl, rfl, rfl⟩

theorem Untouched.fill (h : Untouched e e') (hnow : e'.now = e.now) : e'.fill = e.fill := by
  funext p
  unfold Engine.fill config board
  rw [h.cache, h.registry, hnow]

theorem fillDelays_eq (e : Engine σ) (members : List Proxy) :
    (e.fillDelays members).2 = members.map e.fill := by
  induction members generalizing e with
  | nil => rfl
  | cons p rest ih =>
    have hfill := (fillDelay_untouched e p).fill (fillDelay_quiet e p).now
    show (e.fillDelay p).2 :: ((e.fillDelay p).1.fillDelays rest).2 = _
    rw [fillDelay_eq, ih, hfill, List.map_cons]

theorem fillDelays_untouched (e : Engine σ) (members : List Proxy) :
    Untouched e (e.fillDelays members).1 := by
  induction members generalizing e with
  | nil => exact .refl e
  | cons p rest ih => exact (fillDelay_untouched e p).trans (ih _)

theorem advanceQuery_untouched (C : Core σ) (e : Engine σ) (query : Query) :
    Untouched e (e.advanceQuery C query).1 := by
  unfold advanceQuery
  split
  · split <;> exact ⟨rfl, rfl, rfl⟩
  · next call _ =>
    have hheard := hear_untouched call (C.report query.group query.sort) e
    split
    · next he => rw [he] at hheard; exact hheard
    · next answer he =>
      rw [he] at hheard
      cases answer <;> exact ⟨hheard.registry, hheard.sessions, hheard.cache⟩

theorem advanceQuery_without (C : Core σ) (e : Engine σ) (t : Task) (query : Query) :
    ((e.without t).advanceQuery C query).2 = (e.advanceQuery C query).2 := by
  unfold advanceQuery
  split
  · show (if e.permits.isGranted _ then _ else _ : Engine σ × _).2 = _
    split <;> rfl
  · next call _ =>
    rw [hear_without]
    rcases e.hear call (C.report query.group query.sort) with ⟨e', call | answer⟩ <;> rfl

end Engine

theorem Registry.publish_other {r : Registry} {index : Nat} {g : Group}
    (h : r.names[index]? ≠ some g.name) : (r.publish index g).1 = r := by
  rw [publish, write, if_neg]
  simpa [holds] using h

theorem Registry.publish_board {r : Registry} {index : Nat} {g : Group}
    (h : r.names[index]? = some g.name) :
    (r.publish index g).1 = { r with board := (r.board.publish index g).1 } := by
  rw [publish, write, if_pos (by simp [holds, h])]

theorem Board.publish_record {b : Board} {index : Nat} {g : Group} {x : Record}
    (hx : b.records[index]? = some x) (hname : x.group.name = g.name) :
    ∃ x', (b.publish index g).1.records[index]? = some x' ∧ x'.group = b.arrange g ∧
      x'.testing = x.testing ∧ (x.group = b.arrange g → (b.publish index g).1 = b) := by
  by_cases hsame : x.group = b.arrange g
  · have hquiet : (b.publish index g).1 = b := by simp [publish, hx, hsame]
    rw [hquiet]
    exact ⟨x, hx, hsame, rfl, fun _ => rfl⟩
  · have hput : (b.publish index g).1 = b.put .topology ⟨index, b.arrange g,
        linksFor (b.arrange g).members, x.testing, 0⟩ := by
      simp [publish, hx, hsame, arrange_name, hname]
    rw [hput]
    exact ⟨_, (records_put b _ _ index).trans (if_pos rfl), rfl, rfl, fun h => absurd h hsame⟩

namespace Engine

variable {σ : Type} {C : Core σ} {e e' : Engine σ} {goal : LoadGoal} {index : Nat} {query : Query}
  {t : Task} {before after : List Load} {group : String}

theorem applyReport_eq (e : Engine σ) (index : Nat) (group : String) (report : GroupReport) :
    e.applyReport index group report =
      (e.fillDelays report.members).1.write (·.publish index (e.reportedGroup group report)) := by
  simp only [applyReport, fillDelays_eq]
  rfl

theorem applyReport_other (report : GroupReport) (hname : e.registry.names[index]? ≠ some group) :
    Untouched e (e.applyReport index group report) := by
  have hfilled := fillDelays_untouched e report.members
  rw [applyReport_eq]
  refine hfilled.trans ⟨?_, rfl, rfl⟩
  exact Registry.publish_other (g := e.reportedGroup group report) (hfilled.registry ▸ hname)

theorem applyReport_board (report : GroupReport) (hname : e.registry.names[index]? = some group) :
    (e.applyReport index group report).registry =
      { e.registry with board := (e.board.publish index (e.reportedGroup group report)).1 } ∧
    (e.applyReport index group report).sessions = e.sessions ∧
    (e.applyReport index group report).cache = e.cache := by
  have hfilled := fillDelays_untouched e report.members
  rw [applyReport_eq]
  refine ⟨?_, hfilled.sessions, hfilled.cache⟩
  show ((e.fillDelays report.members).1.registry.publish index (e.reportedGroup group report)).1 = _
  rw [hfilled.registry]
  exact Registry.publish_board (g := e.reportedGroup group report) hname

/-- The record of an index shows what a report says of its group, and nothing else has changed. -/
structure Reloaded (e e' : Engine σ) (index : Nat) (group : String) (report : GroupReport)
    (x x' : Record) : Prop where
  was : e.board.records[index]? = some x
  is : e'.board.records[index]? = some x'
  name : x'.group.name = group
  members : if e.board.sortsByDelay then
      StablySorted (report.members.map e.fill) x'.group.members
    else x'.group.members = report.members.map e.fill
  selectable : x'.group.selectable = report.selectable
  now : x'.group.now = if report.now = "" then none else some report.now
  testing : x'.testing = x.testing
  others : ∀ j, j ≠ index → e'.board.records[j]? = e.board.records[j]?
  sessions : e'.sessions = e.sessions
  cache : e'.cache = e.cache

theorem applyReport_reloaded (ha : e.registry.Aligned) (report : GroupReport)
    (hname : e.registry.names[index]? = some group) :
    ∃ x x', Reloaded e (e.applyReport index group report) index group report x x' ∧
      x'.group = e.board.arrange (e.reportedGroup group report) ∧
      (x.group = x'.group → (e.applyReport index group report).registry = e.registry) := by
  obtain ⟨hregistry, hsessions, hcache⟩ := applyReport_board report hname
  have hmem : index < e.registry.names.length := (List.getElem?_eq_some_iff.mp hname).1
  obtain ⟨x, hx⟩ : ∃ x, e.board.records[index]? = some x := by
    have hin := (ha.mem_iff index).mpr hmem
    rwa [Std.ExtTreeMap.mem_iff_isSome_getElem?, Option.isSome_iff_exists] at hin
  have hxname : x.group.name = group := Option.some.inj ((ha.name hx).symm.trans hname)
  obtain ⟨x', hx', hgroup, htesting, hsame⟩ :=
    Board.publish_record (g := e.reportedGroup group report) hx hxname
  have hboard : (e.applyReport index group report).board =
      (e.board.publish index (e.reportedGroup group report)).1 := congrArg Registry.board hregistry
  refine ⟨x, x', ⟨hx, hboard ▸ hx', ?_, ?_, ?_, ?_, htesting, ?_, hsessions, hcache⟩, hgroup, ?_⟩
  · rw [hgroup, Board.arrange_name]
    rfl
  · rw [hgroup, Registry.arrange_members]
    split
    · exact sortProxies_stable _
    · rfl
  · rw [hgroup, Registry.arrange_selectable]
    rfl
  · rw [hgroup, Registry.arrange_now]
    simp [reportedGroup, GroupReport.now?, String.isEmpty_iff]
  · intro j hj
    rw [hboard]
    exact Board.publish_records_of_ne e.board hj _
  · intro heq
    rw [hregistry, hsame (heq.trans hgroup)]
    rfl

theorem stepLoad_error {error : CallError} (index : Nat)
    (h : (e.advanceQuery C query).2 = .inr (.error error)) :
    (stepLoad C e index query).2 = .done false ∧ Untouched e (stepLoad C e index query).1 := by
  have hquery := advanceQuery_untouched C e query
  unfold stepLoad
  split
  · next he => rw [he] at h; cases h
  · next he => rw [he] at hquery; exact ⟨rfl, hquery⟩
  · next he => rw [he] at h; cases h

theorem stepLoad_ok {report : GroupReport} (index : Nat)
    (h : (e.advanceQuery C query).2 = .inr (.ok report)) :
    ∃ e', Untouched e e' ∧ e'.now = e.now ∧
      stepLoad C e index query = (e'.applyReport index query.group report, .done true) := by
  have hquery := advanceQuery_untouched C e query
  have hquiet := advanceQuery_quiet C query e
  unfold stepLoad
  split
  · next he => rw [he] at h; cases h
  · next he => rw [he] at h; cases h
  · next he =>
    rw [he] at h hquery hquiet
    cases h
    exact ⟨_, hquery, hquiet.now, rfl⟩

theorem Hears.fails {error : CallError}
    (h : Hears C e t goal before index query after (.error error)) (hp : t.Proper) :
    Untouched e (resume C e t) ∧
      Settles (resume C e t) t.id goal (before ++ .done false :: after) := by
  obtain ⟨hload, huntouched⟩ :=
    stepLoad_error index ((advanceQuery_without C e t query).trans h.heard)
  obtain ⟨hturn, hsettles⟩ := h.turn hp
  rw [hload] at hsettles
  have hwithout : Untouched e (e.without t) := ⟨rfl, rfl, rfl⟩
  exact ⟨(hwithout.trans huntouched).trans hturn, hsettles⟩

theorem Hears.applies {report : GroupReport}
    (h : Hears C e t goal before index query after (.ok report)) (hp : t.Proper) :
    ∃ e', Untouched e e' ∧ e'.now = e.now ∧
      Untouched (e'.applyReport index query.group report) (resume C e t) ∧
      Settles (resume C e t) t.id goal (before ++ .done true :: after) := by
  obtain ⟨e', huntouched, hnow, hload⟩ :=
    stepLoad_ok index ((advanceQuery_without C e t query).trans h.heard)
  obtain ⟨hturn, hsettles⟩ := h.turn hp
  rw [hload] at hturn hsettles
  have hwithout : Untouched e (e.without t) := ⟨rfl, rfl, rfl⟩
  exact ⟨e', hwithout.trans huntouched, hnow, hturn, hsettles⟩

theorem Untouched.reportedGroup (h : Untouched e e') (hnow : e'.now = e.now) (group : String)
    (report : GroupReport) : e'.reportedGroup group report = e.reportedGroup group report := by
  rw [Engine.reportedGroup, h.fill hnow]
  rfl

theorem Hears.dropped {report : GroupReport}
    (h : Hears C e t goal before index query after (.ok report)) (hp : t.Proper)
    (hname : e.registry.names[index]? ≠ some query.group) : Untouched e (resume C e t) := by
  obtain ⟨e', huntouched, -, hturn, -⟩ := h.applies hp
  have hother := applyReport_other (e := e') report (huntouched.registry ▸ hname)
  exact (huntouched.trans hother).trans hturn

theorem Hears.shown {report : GroupReport}
    (h : Hears C e t goal before index query after (.ok report)) (hc : Coherent e) (hp : t.Proper)
    (hname : e.registry.names[index]? = some query.group) :
    ∃ x x', Reloaded e (resume C e t) index query.group report x x' ∧
      x'.group = e.board.arrange (e.reportedGroup query.group report) ∧
      (x.group = x'.group → (resume C e t).registry = e.registry) := by
  obtain ⟨e', huntouched, hnow, hturn, -⟩ := h.applies hp
  have hboard : e'.board = e.board := congrArg Registry.board huntouched.registry
  have ha : e'.registry.Aligned := huntouched.registry ▸ hc.aligned
  obtain ⟨x, x', hx, hgroup, hsame⟩ :=
    applyReport_reloaded ha report (huntouched.registry ▸ hname)
  have hafter : (resume C e t).board = (e'.applyReport index query.group report).board :=
    congrArg Registry.board hturn.registry
  rw [hboard, huntouched.reportedGroup hnow] at hgroup
  refine ⟨x, x', ?_, hgroup, fun heq => ?_⟩
  · constructor
    case was => exact hboard ▸ hx.was
    case is => exact hafter ▸ hx.is
    case name => exact hx.name
    case members =>
      have hmembers := hx.members
      rwa [hboard, huntouched.fill hnow] at hmembers
    case selectable => exact hx.selectable
    case now => exact hx.now
    case testing => exact hx.testing
    case others => exact fun j hj => by rw [hafter, hx.others j hj, hboard]
    case sessions => exact (hturn.sessions.trans hx.sessions).trans huntouched.sessions
    case cache => exact (hturn.cache.trans hx.cache).trans huntouched.cache
  · rw [hturn.registry, hsame heq, huntouched.registry]

theorem Hears.repeated {report report' : GroupReport} {d : Engine σ} {u : Task} {goal' : LoadGoal}
    {before' after' : List Load} {query' : Query}
    (h : Hears C e t goal before index query after (.ok report)) (hc : Coherent e) (hp : t.Proper)
    (h' : Hears C d u goal' before' index query' after' (.ok report')) (hc' : Coherent d)
    (hp' : u.Proper) (hname : d.registry.names[index]? = some query'.group)
    (hrecord : e.board.records[index]? = (resume C d u).board.records[index]?)
    (hsorts : e.board.sortsByDelay = d.board.sortsByDelay)
    (hsame : e.reportedGroup query.group report = d.reportedGroup query'.group report') :
    (resume C e t).registry = e.registry := by
  obtain ⟨_, y', hy, hgroup', -⟩ := h'.shown hc' hp' hname
  by_cases hstands : e.registry.names[index]? = some query.group
  · obtain ⟨x, x', hx, hgroup, hquiet⟩ := h.shown hc hp hstands
    obtain rfl : x = y' := Option.some.inj (hx.was.symm.trans (hrecord.trans hy.is))
    refine hquiet ?_
    rw [hgroup', hgroup, hsame, Board.arrange, Board.arrange, hsorts]
  · exact (h.dropped hp hstands).registry

theorem asked_before {loads loads' : List Load} (h : List.Forall₂ Load.Goes loads loads')
    (hmem : .asking index query ∈ loads') :
    ∃ query₀, .asking index query₀ ∈ loads ∧ query.group = query₀.group := by
  induction h with
  | nil => cases hmem
  | cons hx _ ih =>
    rcases List.mem_cons.mp hmem with rfl | hrest
    · cases hx with
      | asking hgroup => exact ⟨_, List.mem_cons_self, hgroup⟩
    · obtain ⟨query₀, hmem₀, hgroup⟩ := ih hrest
      exact ⟨query₀, List.mem_cons_of_mem _ hmem₀, hgroup⟩

theorem resume_left (hn : Numbered [] e) (ht : t ∈ e.tasks) {job : Job}
    (hleft : ({ id := t.id, job } : Task) ∈ (resume C e t).tasks) :
    job ∈ (stepJob C (e.without t) t.id t.job).2 ∧
      (resume C e t).registry = (stepJob C (e.without t) t.id t.job).1.registry := by
  have hwithout := hn.without ht
  unfold resume at hleft ⊢
  dsimp only at hleft ⊢
  split at hleft
  · rw [(abandonJob_quiet _ _).tasks] at hleft
    exact (hwithout.gone _ hleft rfl).elim
  · next hgo =>
    rw [if_neg hgo]
    have hstaffs := (stepJob_staffs C (e.without t) t.id t.job).numbered hwithout
    generalize stepJob C (e.without t) t.id t.job = x at hleft hstaffs ⊢
    obtain ⟨e', next⟩ := x
    refine ⟨?_, park_registry e' t next⟩
    cases next with
    | none => exact (hstaffs.gone _ hleft rfl).elim
    | some next =>
      rcases List.mem_append.mp hleft with hmem | hmem
      · exact (hstaffs.gone _ hmem rfl).elim
      · cases List.mem_singleton.mp hmem
        rfl

section

variable {e₀ : Engine σ} {u : Task} {loads : List Load}

/-- Whatever happens, a load asks for the group whose name stood at its index when it started, and
is then done. One that fails changes nothing. An answer is dropped where another name stands at the
index; where the name still stands there, its record shows the members that were answered, with delays
that are remembered and fresh where the answer tells none. An answer that tells what the last one told
is no news. -/
theorem reloads_show_what_is_answered (hr : Reachable C e₀) (ht : t ∈ e₀.tasks)
    (hnew : t.job.loads = [])
    (hstart : ({ id := t.id, job := .loading goal loads } : Task) ∈ (resume C e₀ t).tasks)
    (hrun : Reaches C (resume C e₀ t) e) (hu : u ∈ e.tasks) (hid : u.id = t.id) :
    (∀ i name, t.job = .start (.reload i) → e₀.registry.names[i]? = some name →
      ∃ query, goal = .one ∧ loads = [.asking i query] ∧ query.group = name) ∧
    (∃ loads', u.job = .loading goal loads' ∧ List.Forall₂ Load.Goes loads loads') ∧
    ∀ before index query after answer, Hears C e u goal before index query after answer →
      (resume C e₀ t).registry.names[index]? = some query.group ∧
      match answer with
      | .error _ => Untouched e (resume C e u) ∧
          Settles (resume C e u) u.id goal (before ++ .done false :: after)
      | .ok report =>
        Settles (resume C e u) u.id goal (before ++ .done true :: after) ∧
        (e.registry.names[index]? ≠ some query.group → Untouched e (resume C e u)) ∧
        (e.registry.names[index]? = some query.group →
          ∃ x x', Reloaded e (resume C e u) index query.group report x x') ∧
        ∀ d w goal' before' query' after' report', Reachable C d → w ∈ d.tasks →
          Hears C d w goal' before' index query' after' (.ok report') →
          d.registry.names[index]? = some query'.group →
          e.board.records[index]? = (resume C d w).board.records[index]? →
          e.board.sortsByDelay = d.board.sortsByDelay →
          e.reportedGroup query.group report = d.reportedGroup query'.group report' →
          (resume C e u).registry = e.registry := by
  have hstarted : Reachable C (resume C e₀ t) := hr.reaches (reaches_perform C (a := .resume t) ht)
  have hreached : Reachable C e := hstarted.reaches hrun
  obtain ⟨hnext, hregistry⟩ := resume_left hr.numbered ht hstart
  have hnamed := stepJob_starts C (e₀.without t) t.id hnew hnext
  have hloading : (resume C e₀ t).Loading t.id goal loads := by
    intro v hv hvid
    rw [hstarted.numbered.mem_eq hstart hv hvid]
    exact ⟨loads, rfl, goes_refl loads⟩
  have hlater : e.Loading t.id goal loads := by
    obtain ⟨calls, hrun⟩ := hrun
    exact hrun.loading hstarted.coherent
      (hstarted.numbered.given t.id (List.mem_map.mpr ⟨_, hstart, rfl⟩)) hloading
  obtain ⟨loads', hjob, hgoes⟩ := hlater u hu hid
  refine ⟨?_, ⟨loads', hjob, hgoes⟩, fun before index query after answer h => ⟨?_, ?_⟩⟩
  · intro i name hreload hname
    obtain ⟨query, hgroup, hload⟩ := load_one (C := C) (e := e₀.without t) hname
    rw [hreload] at hnext
    have hwait : (load C (e₀.without t) .one [i]).2 = .wait (.loading goal loads) :=
      afterRequest_wait hnext
    cases hload.symm.trans hwait
    exact ⟨query, rfl, rfl, hgroup⟩
  · have hmem : .asking index query ∈ loads' := by
      obtain ⟨-, rfl⟩ := Job.loading.inj (hjob.symm.trans h.job)
      exact List.mem_append_right _ List.mem_cons_self
    obtain ⟨query₀, hmem₀, hgroup⟩ := asked_before hgoes hmem
    rw [hregistry, hgroup]
    exact hnamed index query₀ hmem₀
  · have hc := hreached.coherent
    have hp := hc.proper u hu
    cases answer with
    | error error => exact h.fails hp
    | ok report =>
      refine ⟨(h.applies hp).choose_spec.2.2.2, h.dropped hp, fun hname => ?_, ?_⟩
      · obtain ⟨x, x', hx, -⟩ := h.shown hc hp hname
        exact ⟨x, x', hx⟩
      · intro d w goal' before' query' after' report' hd hw h'
        exact h.repeated hc hp h' hd.coherent (hd.coherent.proper w hw)

end

def remembering : Engine Unit :=
  ((refreshed (Core.single 10) () {}).perform (Core.single 10) (.remember "direct" 70)).perform
    (Core.single 10) (.request (.reload 0))

def reloader : Task :=
  { id := 1, job := .start (.reload 0) }

def answered : Engine Unit :=
  (resume (Core.single 10) remembering reloader).perform (Core.single 10) (.wait 30)

theorem remembering_reachable : Reachable (Core.single 10) remembering := by
  have hremembers := (refreshed_reachable (Core.single 10) () {}).reaches
    (reaches_perform _ (a := .remember "direct" 70) trivial)
  exact hremembers.reaches (reaches_perform _ (a := .request (.reload 0)) trivial)

theorem reloads_show_what_is_answered_single :
    let query : Query := ⟨"auto", .listed, 5000, .inr ⟨20, some 30, some 5000⟩⟩
    let loader : Task := { id := 1, job := .loading .one [.asking 0 query] }
    ∃ x x', Reloaded answered (resume (Core.single 10) answered loader) 0 "auto"
        ⟨"auto", .selector, "", [⟨"direct", .terminal, "", 0⟩]⟩ x x' ∧
      x'.group.members = [⟨"direct", .terminal, "", 70⟩] := by
  intro query loader
  have hwait : Reaches (Core.single 10) (resume (Core.single 10) remembering reloader) answered :=
    reaches_perform (Core.single 10) (a := .wait 30) (show 20 ≤ 30 by decide)
  have hasked : reloader ∈ remembering.tasks := List.mem_of_getElem? (i := 0) rfl
  have hstart : loader ∈ (resume (Core.single 10) remembering reloader).tasks :=
    List.mem_of_getElem? (i := 0) rfl
  have hload : loader ∈ answered.tasks := List.mem_of_getElem? (i := 0) rfl
  obtain ⟨-, -, hturn⟩ :=
    reloads_show_what_is_answered remembering_reachable hasked rfl hstart hwait hload rfl
  obtain ⟨hname, -, -, hshown, -⟩ := hturn [] 0 query []
    (.ok ⟨"auto", .selector, "", [⟨"direct", .terminal, "", 0⟩]⟩) ⟨rfl, by simp, rfl⟩
  obtain ⟨x, x', h⟩ := hshown (by decide)
  have hmembers := h.members
  rw [if_neg (by decide)] at hmembers
  exact ⟨x, x', h, hmembers.trans (by decide)⟩

end Engine

end ProxyPulse
