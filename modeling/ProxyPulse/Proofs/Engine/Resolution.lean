import ProxyPulse.Proofs.Engine.Course
import ProxyPulse.Proofs.Engine.Fidelity

namespace ProxyPulse.Engine

variable {σ : Type} {C : Core σ} {e e' : Engine σ} {table : GroupTable} {start : String}
  {limit id : Nat} {goal : Option (String × String)} {answers : List (Answer GroupReport)}
  {result : Result}

def walkHears (C : Core σ) (e : Engine σ) : Job → List (Answer GroupReport)
  | .walking _ trail _ call =>
    match (e.hear call (C.report trail.here .listed)).2 with
    | .inl _ => []
    | .inr answer => [answer]
  | _ => []

def heardBy (C : Core σ) (id : Nat) (e : Engine σ) : Action σ → List (Answer GroupReport)
  | .resume t => if t.id = id then e.walkHears C t.job else []
  | _ => []

/-- A task has made its last turn: what its walk has heard by then, and what came of it. -/
def Returns (C : Core σ) (e : Engine σ) (id : Nat) (answers : List (Answer GroupReport))
    (result : Result) : Prop :=
  ∃ D e' t, Course (Acts C (heardBy C id) fun _ _ => True) e D e' ∧ t ∈ e'.tasks ∧ t.id = id ∧
    (∀ u ∈ (resume C e' t).tasks, u.id ≠ id) ∧ (resume C e' t).result? id = some result ∧
    answers = D.map Prod.snd ++ e'.heardBy C id (.resume t)

def asked (C : Core σ) (e : Engine σ) (start : String) : Engine σ :=
  resume C (e.request (.resolve start)).1 { id := e.nextTask, job := .start (.resolve start) }

structure Walks (table : GroupTable) (start : String) (limit : Nat)
    (goal : Option (String × String)) (rest : GroupTable) (trail : Trail) (call : Call) : Prop where
  limited : call.limit = some limit
  passes : table.Passes start trail.here
  fresh : trail.here ∉ trail.passed
  left : ∀ name, name ∉ trail.passed → rest[name]? = table[name]?
  place : trail.place? rest = goal

inductive Strides (table : GroupTable) (start : String) (limit : Nat)
    (goal : Option (String × String)) (id : Nat) (rest : GroupTable) :
    List (Answer GroupReport) → Engine σ × Option Job → Prop
  | waits {e : Engine σ} {trail : Trail} {call : Call} :
    Walks table start limit goal rest trail call →
    Strides table start limit goal id rest [] (e, some (.walking false trail limit call))
  | arrives {e : Engine σ} {report : GroupReport} {x : Option Endpoint} :
    e.result? id = some (.endpoint x) → x.map Endpoint.place = goal →
    Strides table start limit goal id rest [.ok report] (e, none)
  | goesOn {e : Engine σ} {report : GroupReport} {rest' : GroupTable} {trail : Trail}
    {call : Call} : Walks table start limit goal rest' trail call → rest'.size < rest.size →
    Strides table start limit goal id rest [.ok report]
      (e, some (.walking false trail limit call))
  | lost {e : Engine σ} {error : CallError} : e.result? id = some (.endpoint none) →
    Strides table start limit goal id rest [.error error] (e, none)

theorem size_erase_lt {rest : GroupTable} {name : String} {g : Group} (h : rest[name]? = some g) :
    (rest.erase name).size < rest.size := by
  have hm : name ∈ rest := by
    rw [Std.ExtTreeMap.mem_iff_isSome_getElem?, h]
    rfl
  have hs : rest.size ≠ 0 := by
    intro hz
    rw [Std.ExtTreeMap.eq_empty_iff_size_eq_zero.mpr hz] at hm
    exact Std.ExtTreeMap.not_mem_empty hm
  rw [Std.ExtTreeMap.size_erase, if_pos (Std.ExtTreeMap.contains_iff_mem.mpr hm)]
  omega

theorem hear_due {α : Type} {call : Call} (hl : call.limit = some limit)
    (hd : call.startedAt + limit ≤ e.now) (answer : σ → σ × Option (Answer α)) :
    ∃ a, (e.hear call answer).2 = .inr a := by
  have hover : call.isOverdue e.now = true := by
    rw [Call.isOverdue, Call.deadline, hl]
    exact decide_eq_true hd
  have hlate : ({ call with answerAt := none } : Call).isOverdue e.now = true := hover
  unfold hear
  simp only [hover, hlate, if_true]
  split
  · split <;> exact ⟨_, rfl⟩
  · exact ⟨_, rfl⟩

theorem takeStep_strides (hC : C.Fixed table) {rest : GroupTable} {trail : Trail} {call : Call}
    (h : Walks table start limit goal rest trail call) (e : Engine σ) (id : Nat) {r : GroupReport}
    {s : σ} (hr : (C.report trail.here .listed s).2 = some (.ok r)) :
    Strides table start limit goal id rest [.ok r]
      (afterRequest id (takeStep C e false trail limit (.ok r))) := by
  obtain ⟨g, hg, ha⟩ := hC.report _ _ _ _ hr
  have hleft : rest[trail.here]? = some g := (h.left _ h.fresh).trans hg
  have hm := Trail.move_agrees ha (hC.distinct _ g hg) trail
  have hplace := (Trail.place?_of_some hleft).symm.trans h.place
  have hfound : Option.map GroupReport.toGroup (Except.toOption (.ok r : Answer GroupReport)) =
      some r.toGroup := rfl
  have hresult (x : Option Endpoint) :
      Engine.result? { e with results := (id, .endpoint x) :: e.results } id =
        some (.endpoint x) := by
    simp [result?]
  unfold takeStep
  rw [hfound]
  generalize hmove : trail.move (some g) = m, trail.move (some r.toGroup) = m' at hm hplace
  cases hm with
  | arrived hp => exact .arrives (hresult _) ((congrArg some hp).trans hplace)
  | lost => exact .arrives (hresult none) hplace
  | onward next =>
    -- what is looked up now is what is taken out of the rest
    obtain ⟨p, hp, hgroup, hfresh, rfl⟩ := Trail.move_onward hmove
    refine .goesOn ⟨rfl, h.passes.onward hg hp hgroup, hfresh, fun name hn => ?_, hplace⟩
      (size_erase_lt hleft)
    rw [List.mem_cons, not_or] at hn
    have hne : ¬ compare trail.here name = .eq := by simpa using Ne.symm hn.1
    rw [Std.ExtTreeMap.getElem?_erase, if_neg hne]
    exact h.left name hn.2

theorem stepJob_strides (hC : C.Fixed table) {rest : GroupTable} {trail : Trail} {call : Call}
    (h : Walks table start limit goal rest trail call) (e : Engine σ) (id : Nat) :
    Strides table start limit goal id rest (e.walkHears C (.walking false trail limit call))
      (stepJob C e id (.walking false trail limit call)) := by
  show Strides _ _ _ _ _ _ _ (afterRequest id (stepRequest C e (.walking false trail limit call)))
  rcases heard : e.hear call (C.report trail.here .listed) with ⟨e', call' | error | r⟩
  · obtain ⟨-, hlimit⟩ := hear_waits (congrArg Prod.snd heard)
    simp only [walkHears, stepRequest, heard]
    exact .waits ⟨hlimit.trans h.limited, h.passes, h.fresh, h.left, h.place⟩
  · simp only [walkHears, stepRequest, heard]
    exact .lost (List.lookup_cons_self)
  · simp only [walkHears, stepRequest, heard]
    exact takeStep_strides hC h _ id (hear_ok heard)

def OnWay (table : GroupTable) (start : String) (limit : Nat) (goal : Option (String × String))
    (job : Job) : Prop :=
  ∃ rest trail call, job = .walking false trail limit call ∧
    Walks table start limit goal rest trail call

theorem walkHears_without (C : Core σ) (e : Engine σ) (t : Task) (job : Job) :
    (e.without t).walkHears C job = e.walkHears C job := by
  cases job with
  | walking current trail limit call => simp only [walkHears, hear_without]
  | _ => rfl

theorem OnWay.lives {t : Task} (h : OnWay table start limit goal t.job) (hp : t.Proper) :
    t.isAborted = false := by
  obtain ⟨_, _, _, hj, -⟩ := h
  exact not_aborted_of_proper hp (by rw [hj]; rfl)

theorem OnWay.turn (hC : C.Fixed table) {job : Job} (h : OnWay table start limit goal job)
    (e : Engine σ) (id : Nat) : ∃ rest,
      Strides table start limit goal id rest (e.walkHears C job) (stepJob C e id job) := by
  obtain ⟨rest, trail, call, rfl, hw⟩ := h
  exact ⟨rest, stepJob_strides hC hw e id⟩

theorem OnWay.next (hC : C.Fixed table) {job next : Job} (h : OnWay table start limit goal job)
    (hn : next ∈ (stepJob C e id job).2) :
    OnWay table start limit goal next ∧ ∀ error, .error error ∉ e.walkHears C job := by
  obtain ⟨rest, hs⟩ := h.turn hC e id
  generalize stepJob C e id job = x at hs hn
  generalize e.walkHears C job = heard at hs
  cases hs with
  | arrives | lost => cases hn
  | waits hw | goesOn hw =>
    obtain rfl := Option.some.inj hn
    exact ⟨⟨_, _, _, rfl, hw⟩, by simp⟩

theorem resume_own (hr : Reachable C e) {u t : Task} (hu : u ∈ e.tasks)
    (hlive : u.isAborted = false) (ht : t ∈ (resume C e u).tasks) (hid : t.id = u.id) :
    t.job ∈ (stepJob C (e.without u) u.id u.job).2 := by
  have hgone := ((stepJob_staffs C (e.without u) u.id u.job).numbered
    (hr.numbered.without hu)).gone
  rw [resume_lives C e hlive, park_tasks] at ht
  rcases List.mem_append.mp ht with ht | ht
  · exact absurd hid (hgone t ht)
  · obtain ⟨next, hnext, rfl⟩ := List.mem_map.mp ht
    exact Option.mem_toList.mp hnext

theorem Course.onWay {P : Engine σ → Action σ → Prop} {D : List (Nat × Answer GroupReport)}
    (h : Course (Acts C (heardBy C id) P) e D e') (hC : C.Fixed table) (hr : Reachable C e)
    (hid : id < e.nextTask) (hw : ∀ t ∈ e.tasks, t.id = id → OnWay table start limit goal t.job) :
    ∀ t ∈ e'.tasks, t.id = id →
      OnWay table start limit goal t.job ∧ ∀ error, .error error ∉ D.map Prod.snd := by
  refine (h.keeps (Q := fun D e => (Reachable C e ∧ id < e.nextTask) ∧
    ∀ t ∈ e.tasks, t.id = id →
      OnWay table start limit goal t.job ∧ ∀ error, .error error ∉ D.map Prod.snd) ?_
    ⟨⟨hr, hid⟩, fun t ht htid => ⟨hw t ht htid, fun _ => List.not_mem_nil⟩⟩).2
  rintro D e new e' ⟨ha, -⟩ ⟨⟨hr, hid⟩, hw⟩
  rename_i a
  refine ⟨⟨hr.reaches (reaches_perform C ha),
    Nat.lt_of_lt_of_le hid (perform_nextTask C hr.coherent ha)⟩, fun t ht htid => ?_⟩
  by_cases hown : ∃ u, a = .resume u ∧ u.id = id
  · obtain ⟨u, rfl, rfl⟩ := hown
    obtain ⟨honway, hnone⟩ := hw u ha rfl
    have hlive := honway.lives (hr.coherent.proper u ha)
    obtain ⟨hnext, hheard⟩ := honway.next hC (resume_own hr ha hlive ht htid)
    refine ⟨hnext, fun error hmem => ?_⟩
    rw [List.map_append, List.mem_append] at hmem
    refine hmem.elim (hnone error) fun hmem => ?_
    rw [walkHears_without] at hheard
    simp only [heardBy, if_true, List.map_map, Function.comp_def, List.map_id'] at hmem
    exact hheard error hmem
  · have hnew : e.heardBy C id a = [] := by
      cases a with
      | resume u => exact if_neg fun huid => hown ⟨u, rfl, huid⟩
      | _ => rfl
    rw [hnew, List.map_nil, List.append_nil]
    refine perform_within (F := fun job => OnWay table start limit goal job ∧
      ∀ error, .error error ∉ D.map Prod.snd) ?_ ?_ ha hid hw t ht htid
    · rintro job ⟨⟨_, _, _, rfl, _⟩, -⟩
      exact ⟨rfl, rfl⟩
    · exact fun _ _ _ hjob hnext => ⟨(hjob.1.next hC hnext).1, hjob.2⟩

theorem Returns.before {D : List (Nat × Answer GroupReport)}
    (h : Course (Acts C (heardBy C id) fun _ _ => True) e D e')
    (hr : Returns C e' id answers result) : Returns C e id (D.map Prod.snd ++ answers) result := by
  obtain ⟨D', e'', t, hrun, ht, hid, hgone, hresult, rfl⟩ := hr
  refine ⟨D ++ D', e'', t, h.trans hrun, ht, hid, hgone, hresult, ?_⟩
  rw [List.map_append, List.append_assoc]

theorem heardBy_own (C : Core σ) (e : Engine σ) (t : Task) :
    e.heardBy C t.id (.resume t) = (e.without t).walkHears C t.job :=
  (if_pos rfl).trans (walkHears_without C e t t.job).symm

theorem Returns.last (hr : Reachable C e) {t : Task} (ht : t ∈ e.tasks)
    (hlive : t.isAborted = false) {e₁ : Engine σ}
    (hx : stepJob C (e.without t) t.id t.job = (e₁, none)) (hresult : e₁.result? t.id = some result) :
    Returns C e t.id (e.heardBy C t.id (.resume t)) result := by
  have hnumbered := (stepJob_staffs C (e.without t) t.id t.job).numbered (hr.numbered.without ht)
  have hresume := resume_lives C e hlive
  rw [hx] at hnumbered hresume
  refine ⟨[], e, t, .refl, ht, rfl, ?_, by rw [hresume]; exact hresult, rfl⟩
  rw [hresume]
  exact hnumbered.gone

theorem walk_turns (hC : C.Fixed table) (hr : Reachable C e) {t : Task} (ht : t ∈ e.tasks)
    {rest : GroupTable} {trail : Trail} {call : Call} (hj : t.job = .walking false trail limit call)
    (h : Walks table start limit goal rest trail call) (hdue : call.startedAt + limit ≤ e.now) :
    (∃ answers result, Returns C e t.id answers result) ∨
    ∃ rest' trail' call', rest'.size < rest.size ∧ Walks table start limit goal rest' trail' call' ∧
      ({ id := t.id, job := .walking false trail' limit call' } : Task) ∈ (resume C e t).tasks := by
  have hlive : t.isAborted = false :=
    OnWay.lives ⟨rest, trail, call, hj, h⟩ (hr.coherent.proper t ht)
  obtain ⟨answer, hanswer⟩ := hear_due (e := e.without t) h.limited hdue
    (C.report trail.here .listed)
  have hheard : (e.without t).walkHears C t.job = [answer] := by
    rw [hj]
    simp only [walkHears, hanswer]
  have hs := stepJob_strides hC h (e.without t) t.id
  rw [← hj, hheard] at hs
  generalize hx : stepJob C (e.without t) t.id t.job = x at hs
  cases hs with
  | arrives hresult _ => exact .inl ⟨_, _, Returns.last hr ht hlive hx hresult⟩
  | lost hresult => exact .inl ⟨_, _, Returns.last hr ht hlive hx hresult⟩
  | goesOn hw hlt =>
    refine .inr ⟨_, _, _, hlt, hw, ?_⟩
    rw [resume_lives C e hlive, hx]
    exact mem_park _ t _

theorem walk_returns (hC : C.Fixed table) (hr : Reachable C e) {t : Task} (ht : t ∈ e.tasks)
    {rest : GroupTable} {trail : Trail} {call : Call} (hj : t.job = .walking false trail limit call)
    (h : Walks table start limit goal rest trail call) :
    ∃ answers result, Returns C e t.id answers result := by
  -- by what is left of the table: the time of the call goes by, and the walk takes its turn
  induction hsize : rest.size using Nat.strong_induction_on generalizing e t rest trail call with
  | _ size ih =>
    subst hsize
    have hwait : Course (Acts C (heardBy C t.id) fun _ _ => True) e []
        (e.perform C (.wait (max e.now (call.startedAt + limit)))) :=
      Course.refl.step (Acts.act (a := .wait _) (Nat.le_max_left _ _) trivial)
    have hr' := hr.reaches hwait.reaches
    rcases walk_turns hC hr' ht hj h (Nat.le_max_right _ _) with
      ⟨answers, result, hreturns⟩ | ⟨rest', trail', call', hlt, hw, hmem⟩
    · exact ⟨_, result, hreturns.before hwait⟩
    · have hgo := hwait.step (Acts.act (a := .resume t) ht trivial)
      obtain ⟨answers, result, hreturns⟩ := ih _ hlt (hr.reaches hgo.reaches) hmem rfl hw rfl
      exact ⟨_, result, hreturns.before hgo⟩

theorem Returns.place (h : Returns C e id answers result) (hC : C.Fixed table) (hr : Reachable C e)
    (hid : id < e.nextTask) (hw : ∀ t ∈ e.tasks, t.id = id → OnWay table start limit goal t.job) :
    ∃ x, result = .endpoint x ∧ ((∀ error, .error error ∉ answers) → x.map Endpoint.place = goal) ∧
      ∀ error, .error error ∈ answers → x = none := by
  obtain ⟨D, later, t, hrun, ht, rfl, hgone, hresult, rfl⟩ := h
  obtain ⟨honway, hnone⟩ := hrun.onWay hC hr hid hw t ht rfl
  obtain ⟨rest, hs⟩ := honway.turn hC (later.without t) t.id
  rw [heardBy_own]
  rw [resume_lives C later (honway.lives ((hr.reaches hrun.reaches).coherent.proper t ht))]
    at hgone hresult
  generalize stepJob C (later.without t) t.id t.job = x at hs hgone hresult
  generalize (later.without t).walkHears C t.job = heard at hs
  cases hs with
  | waits | goesOn => exact (hgone _ (mem_park _ t _) rfl).elim
  | arrives hx hplace =>
    refine ⟨_, Option.some.inj (hresult.symm.trans hx), fun _ => hplace, fun error hmem => ?_⟩
    rcases List.mem_append.mp hmem with hmem | hmem
    · exact absurd hmem (hnone error)
    · cases List.mem_singleton.mp hmem
  | @lost e₁ error hx =>
    refine ⟨_, Option.some.inj (hresult.symm.trans hx), fun hno => ?_, fun _ _ => rfl⟩
    exact absurd (List.mem_append_right _ (List.mem_singleton_self _)) (hno error)

theorem asked_onWay (C : Core σ) (e : Engine σ) (table : GroupTable) (start : String) :
    (∃ t ∈ (asked C e start).tasks, t.id = e.nextTask) ∧
    ∀ t ∈ (asked C e start).tasks, t.id = e.nextTask →
      OnWay table start e.requestTimeout ((table.resolve start).map Endpoint.place) t.job := by
  obtain ⟨t, ht⟩ : ∃ t : Task, t = { id := e.nextTask, job := .start (.resolve start) } := ⟨_, rfl⟩
  obtain ⟨before, hbefore⟩ : ∃ before, before = (e.request (.resolve start)).1.without t := ⟨_, rfl⟩
  obtain ⟨call, hcall⟩ : ∃ call, call =
      (before.call C (.report start .listed) (some e.requestTimeout)).2 := ⟨_, rfl⟩
  have hasked : asked C e start =
      (before.call C (.report start .listed) (some e.requestTimeout)).1.park t
        (some (.walking false ⟨start, []⟩ e.requestTimeout call)) := by
    subst hcall hbefore ht
    rfl
  have hid : t.id = e.nextTask := by rw [ht]
  rw [hasked]
  refine ⟨⟨_, mem_park _ t _, hid⟩, fun u hu hun => ?_⟩
  rcases List.mem_append.mp hu with hu | hu
  · -- the task of the request was taken out for its turn
    rw [(call_quiet C (.report start .listed) (some e.requestTimeout) before).tasks, hbefore] at hu
    have hne := (List.mem_filter.mp hu).2
    simp [hun, hid] at hne
  · rw [List.mem_singleton.mp hu]
    have hlimit : call.limit = some e.requestTimeout := by rw [hcall]; rfl
    exact ⟨table, ⟨start, []⟩, call, rfl, hlimit, .start, List.not_mem_nil, fun _ _ => rfl, rfl⟩

/-- While the groups of the core stay as they are and those that are tracked were loaded, a walk
through the groups that are shown and one that asks the core come to the same place, or both to
none, as long as the groups on the way are tracked and the core answers the second walk with a
report whenever that asks. That one comes to an end from wherever it is, whatever else went on in
the meantime; where one of its own calls fails or is late, it ends with nothing. -/
theorem resolvers_agree (hC : C.Fixed table)
    (hloaded : ∀ name ∈ e.registry.names, Loaded C name e)
    (hchain : ∀ name, table.Passes start name → name ∈ e.registry.names) :
    (∃ t ∈ (asked C e start).tasks, t.id = e.nextTask) ∧
    (∀ e', Reaches C (asked C e start) e' → ∀ t ∈ e'.tasks, t.id = e.nextTask →
      ∃ answers result, Returns C e' e.nextTask answers result) ∧
    ∀ answers result, Returns C (asked C e start) e.nextTask answers result →
      ∃ x, result = .endpoint x ∧
        ((∀ error, .error error ∉ answers) →
          x.map Endpoint.place = (e.registry.table.resolve start).map Endpoint.place) ∧
        ∀ error, .error error ∈ answers → x = none := by
  have hr := (hloaded start (hchain start .start)).reachable
  have hplace : (e.registry.table.resolve start).map Endpoint.place =
      (table.resolve start).map Endpoint.place := by
    apply GroupTable.resolve_tells
    intro name hn
    have hl := hloaded name (hchain name hn)
    obtain ⟨g, hg, hf⟩ := hl.faithful hC
    obtain ⟨g', hg', ha⟩ := Registry.table_shows hf.aligned hf.shows hl.tracked
    exact .inr ⟨g, g', hg, hg', ha, hC.distinct name g hg⟩
  obtain ⟨hthere, honway⟩ := asked_onWay C e table start
  have hrequest : Reaches C e (e.request (.resolve start)).1 :=
    reaches_perform C (a := .request (.resolve start)) trivial
  have htask : ({ id := e.nextTask, job := .start (.resolve start) } : Task) ∈
      (e.request (.resolve start)).1.tasks :=
    List.mem_append_right _ (List.mem_singleton_self _)
  have hid : e.nextTask < (asked C e start).nextTask :=
    perform_nextTask C (hr.reaches hrequest).coherent (a := .resume _) htask
  have hasked : Reachable C (asked C e start) :=
    (hr.reaches hrequest).reaches (reaches_perform C (a := .resume _) htask)
  refine ⟨hthere, fun e' hreach t ht htid => ?_, fun answers result hreturns => ?_⟩
  · obtain ⟨D, hrun⟩ := hreach.course (heardBy C e.nextTask)
    obtain ⟨rest, trail, call, hj, hw⟩ := (hrun.onWay hC hasked hid honway t ht htid).1
    exact htid ▸ walk_returns hC (hasked.reaches hreach) ht hj hw
  · rw [hplace]
    exact hreturns.place hC hasked hid honway

def autoGroup : Group :=
  ⟨"auto", [⟨"sub", .group, "Selector", 0⟩, ⟨"direct", .terminal, "Direct", 7⟩], true, some "sub"⟩

def subGroup : Group :=
  ⟨"sub", [⟨"slow", .terminal, "Trojan", 90⟩, ⟨"fast", .terminal, "Trojan", 30⟩], true, some "fast"⟩

def relayTable : GroupTable :=
  .ofList [autoGroup, subGroup]

def relaying (fails : Bool) : Core Unit :=
  { Core.single 10 with
    names := fun _ s => (s, some (.ok ["auto", "sub"]))
    report := fun group sort s => (s, some (
      let members (g : Group) := if sort = .listed then g.members else g.members.reverse
      if group = "auto" then .ok ⟨group, .selector, "sub", members autoGroup⟩
      else if group = "sub" then
        if sort = .listed && fails then .error (.unavailable group)
        else .ok ⟨group, .selector, "fast", members subGroup⟩
      else .error (.unknownGroup group)))
    choose := fun _ _ s => (s, some (.ok false)) }

theorem relayTable_find (name : String) : relayTable[name]? =
    if "sub" = name then some subGroup else if "auto" = name then some autoGroup else none := by
  simp [relayTable, GroupTable.ofList, autoGroup, subGroup, Std.ExtTreeMap.getElem?_insert]

theorem relaying_fixed (fails : Bool) : (relaying fails).Fixed relayTable where
  distinct name g h := by
    rw [relayTable_find] at h
    split at h
    · cases h
      exact (by decide : ["slow", "fast"].Nodup)
    · split at h
      · cases h
        exact (by decide : ["sub", "direct"].Nodup)
      · cases h
  report name sort s r h := by
    have hperm (g : Group) :
        (if sort = .listed then g.members else g.members.reverse).Perm g.members := by
      split
      · exact .refl _
      · exact List.reverse_perm _
    simp only [relaying, Option.some.injEq] at h
    rw [relayTable_find]
    split at h
    · next hn =>
      obtain rfl := Except.ok.inj h
      subst hn
      exact ⟨autoGroup, rfl, rfl, (hperm autoGroup).map _⟩
    · split at h
      · next hn =>
        split at h
        · cases h
        · obtain rfl := Except.ok.inj h
          subst hn
          exact ⟨subGroup, rfl, rfl, (hperm subGroup).map _⟩
      · cases h
  choose name proxy s h := by cases h

def reported (fails : Bool) : Engine Unit :=
  let C := relaying fails
  let e := ((Engine.new () { view := { sort := .title } } {}).request .refresh).1
  let e := resume C e { id := 0, job := .start .refresh }
  let e := resume C { e with now := 10 }
    { id := 0, job := .naming none false ⟨0, some 10, some 5000⟩ }
  { e with now := 20 }

def loader (isFirstDone : Bool) : Task :=
  let report (group : String) : Query := ⟨group, .title, 5000, .inr ⟨10, some 20, some 5000⟩⟩
  let first : Load := if isFirstDone then .done true else .asking 0 (report "auto")
  { id := 0, job := .loading .refresh [first, .asking 1 (report "sub")] }

def relayed (fails : Bool) : Engine Unit :=
  resume (relaying fails) (resume (relaying fails) (reported fails) (loader false)) (loader true)

theorem reported_reachable (fails : Bool) : Reachable (relaying fails) (reported fails) := by
  have h := (new_reachable (relaying fails) () { view := { sort := .title } } {}).reaches
    (reaches_perform _ (a := .request .refresh) trivial)
  have h := h.reaches (reaches_perform _ (a := .resume { id := 0, job := .start .refresh })
    (List.mem_of_getElem? (i := 0) rfl))
  have h := h.reaches (reaches_perform _ (a := .wait 10) (Nat.zero_le _))
  have h := h.reaches (reaches_perform _
    (a := .resume { id := 0, job := .naming none false ⟨0, some 10, some 5000⟩ })
    (List.mem_of_getElem? (i := 0) rfl))
  exact h.reaches (reaches_perform _ (a := .wait 20) (show 10 ≤ 20 by decide))

theorem relayed_loaded (fails : Bool) :
    ∀ name ∈ (relayed fails).registry.names, Loaded (relaying fails) name (relayed fails) := by
  have hfirst : loader false ∈ (reported fails).tasks := List.mem_of_getElem? (i := 0) rfl
  have hsecond : loader true ∈ (resume (relaying fails) (reported fails) (loader false)).tasks :=
    List.mem_of_getElem? (i := 0) rfl
  have hreached := (reported_reachable fails).reaches (reaches_perform _ (a := .resume _) hfirst)
  have hnodup : ["auto", "sub"].Nodup := by decide
  intro name hn
  rcases List.mem_pair.mp (show name ∈ ["auto", "sub"] from hn) with rfl | rfl
  · have h : Loaded (relaying fails) "auto"
        (resume (relaying fails) (reported fails) (loader false)) :=
      .load (k := 0) (reported_reachable fails) hfirst rfl rfl rfl rfl hnodup rfl
    exact h.keep (a := .resume _) hsecond (List.mem_of_getElem? (i := 0) rfl) hnodup
  · exact .load (k := 1) hreached hsecond rfl rfl rfl rfl hnodup rfl

theorem relayTable_chain (fails : Bool) {name : String} (h : relayTable.Passes "auto" name) :
    name ∈ (relayed fails).registry.names := by
  show name ∈ ["auto", "sub"]
  induction h with
  | start => exact List.mem_cons_self
  | onward _ hg hp hgroup ih =>
    rw [relayTable_find] at hg
    rcases List.mem_pair.mp ih with rfl | rfl
    · cases hg
      cases hp
      exact List.mem_of_getElem? (i := 1) rfl
    · cases hg
      cases hp
      cases hgroup

theorem relayed_place (fails : Bool) :
    ((relayed fails).registry.table.resolve "auto").map Endpoint.place =
      some ("fast", "Trojan") := by
  have ha : (relayed fails).registry.table["auto"]? = some ⟨"auto",
      [⟨"direct", .terminal, "Direct", 7⟩, ⟨"sub", .group, "Selector", 0⟩], true, some "sub"⟩ := by cases fails <;> decide +kernel
  have hs : ((relayed fails).registry.table.erase "auto")["sub"]? = some ⟨"sub",
      [⟨"fast", .terminal, "Trojan", 30⟩, ⟨"slow", .terminal, "Trojan", 90⟩], true,
      some "fast"⟩ := by cases fails <;> decide +kernel
  exact (Trail.place?_of_some (t := ⟨"auto", []⟩) ha).trans
    (Trail.place?_of_some (t := ⟨"sub", ["auto"]⟩) hs)

def relayReplies (fails : Bool) : List (Answer GroupReport) :=
  [.ok ⟨"auto", .selector, "sub", autoGroup.members⟩,
    if fails then .error (.unavailable "sub") else .ok ⟨"sub", .selector, "fast", subGroup.members⟩]

theorem relaying_walk (fails : Bool) {e : Engine Unit} (hnow : e.now = 20) (htasks : e.tasks = [])
    (hid : e.nextTask = 1) : Returns (relaying fails) (asked (relaying fails) e "auto") 1
      (relayReplies fails) (.endpoint (if fails then none else some ⟨"fast", "Trojan", 30⟩)) := by
  obtain ⟨_, _, _, registry, _, _, _, _, _, _, _, _⟩ := e
  subst hnow htasks hid
  let limit := registry.board.config.runtime.requestTimeout
  let walker (trail : Trail) (time : Nat) : Task :=
    { id := 1, job := .walking false trail limit ⟨time, some (time + 10), some limit⟩ }
  generalize hstart : asked (relaying fails) _ "auto" = start
  have h : Course (Acts (relaying fails) (heardBy (relaying fails) 1) fun _ _ => True)
      start [] start := .refl
  subst hstart
  have h := h.step (Acts.act (a := .wait 30) (by decide : 20 ≤ 30) trivial)
  have h := h.step (Acts.act (a := .resume (walker ⟨"auto", []⟩ 20))
    (List.mem_of_getElem? (i := 0) rfl) trivial)
  have h := h.step (Acts.act (a := .wait 40) (by decide : 30 ≤ 40) trivial)
  refine ⟨_, _, walker ⟨"sub", ["auto"]⟩ 30, h, List.mem_of_getElem? (i := 0) rfl, rfl, ?_, ?_, ?_⟩
  · cases fails <;> exact fun _ hu => absurd hu List.not_mem_nil
  · cases fails <;> rfl
  · cases fails <;> rfl

theorem resolvers_agree_relayed :
    (∀ error, .error error ∉ relayReplies false) ∧
    ∃ x, Returns (relaying false) (asked (relaying false) (relayed false) "auto") 1 (relayReplies false)
      (.endpoint x) ∧ x.map Endpoint.place = some ("fast", "Trojan") := by
  obtain ⟨-, -, hplace⟩ := resolvers_agree (relaying_fixed false) (relayed_loaded false)
    (fun _ hn => relayTable_chain false hn)
  have hreturns := relaying_walk false (e := relayed false) rfl rfl rfl
  obtain ⟨x, hx, hagree, -⟩ := hplace _ _ hreturns
  have hnone : ∀ error, .error error ∉ relayReplies false := by simp [relayReplies]
  exact ⟨hnone, x, hx ▸ hreturns, (hagree hnone).trans (relayed_place false)⟩

/-- The core fails to report the second group to the walk that asks for it, so that walk comes to
nothing, though the group is tracked and was loaded. -/
theorem failed_walk_disagrees : (relaying true).Fixed relayTable ∧
    (∀ name ∈ (relayed true).registry.names, Loaded (relaying true) name (relayed true)) ∧
    (∀ name, relayTable.Passes "auto" name → name ∈ (relayed true).registry.names) ∧
    ((relayed true).registry.table.resolve "auto").map Endpoint.place = some ("fast", "Trojan") ∧
    Returns (relaying true) (asked (relaying true) (relayed true) "auto") 1 (relayReplies true)
      (.endpoint none) :=
  ⟨relaying_fixed true, relayed_loaded true, fun _ hn => relayTable_chain true hn,
    relayed_place true, relaying_walk true rfl rfl rfl⟩

end ProxyPulse.Engine
