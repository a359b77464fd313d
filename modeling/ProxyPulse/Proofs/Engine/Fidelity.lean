import ProxyPulse.Proofs.Engine.Results
import ProxyPulse.Proofs.Engine.Retracking
import ProxyPulse.Proofs.Engine.Roster
import ProxyPulse.Proofs.Registry.Fidelity

/-!
A core whose groups stay as they are. Whatever the engine writes of a group comes from what the core
says of it. So once a group was loaded it is shown as the core has it, for as long as it is tracked,
whatever else goes on.
-/

namespace ProxyPulse

/-- A core whose groups are those of a table. It may report their members in any order and with any
delays, and it accepts a choice only where nothing comes of it. -/
structure Core.Fixed {σ : Type} (C : Core σ) (table : GroupTable) : Prop where
  distinct : ∀ (name : String) (g : Group), table[name]? = some g → DistinctNames g.members
  report : ∀ name sort s r, (C.report name sort s).2 = some (.ok r) →
    ∃ g, table[name]? = some g ∧ g.Alike r.toGroup
  choose : ∀ name proxy s, (C.choose name proxy s).2 = some (.ok true) →
    ∀ g, table[name]? = some g → g.now = some proxy

theorem Core.Fixed.alike {σ : Type} {C : Core σ} {table : GroupTable} {name group : String}
    {g : Group} {sort : SortMode} {s : σ} {r : GroupReport} (hC : C.Fixed table)
    (hg : table[name]? = some g) (hr : (C.report group sort s).2 = some (.ok r))
    (hn : group = name) : g.Alike r.toGroup := by
  obtain ⟨x, hx, ha⟩ := hC.report group sort s r hr
  rw [hn, hg] at hx
  exact Option.some.inj hx ▸ ha

def Job.IsApt : Job → Prop
  | .polling plan _ query => query.group = plan.group
  | _ => True

theorem Job.isApt_of_plan {job : Job} (h : job.plan? = none) : job.IsApt := by
  cases job with
  | polling plan p query => cases h
  | _ => trivial

theorem Told.isApt {K : Job → Prop} {t t' : Task} (h : Told K t t') (ht : t.job.IsApt) :
    t'.job.IsApt := by
  cases h with
  | abort isAborted => exact ht
  | report | coordinate => trivial

theorem Job.IsNew.isApt {job : Job} (h : job.IsNew) : job.IsApt := by
  cases h with
  | coordinating c => trivial
  | errand h =>
    cases h with
    | start r => trivial
    | aid h => cases h <;> trivial

def Mark.IsBland : Mark → Prop
  | .write _ _ | .swap => False
  | _ => True

structure Registry.Faithful (name : String) (g : Group) (r : Registry) : Prop where
  aligned : r.Aligned
  shows : r.board.Shows name g

namespace Registry.Faithful

variable {r : Registry} {name : String} {g : Group}

theorem write (h : r.Faithful name g) {w : Write} (hw : w.Fits name g) :
    (w.apply r).1.Faithful name g :=
  ⟨h.aligned.write w, shows_write h.aligned h.shows hw⟩

theorem replace (h : r.Faithful name g) (hn : name ∈ r.names) {names : List String}
    (hd : names.Nodup) : (r.replace names).1.Faithful name g :=
  ⟨h.aligned.replace names, shows_replace h.aligned h.shows hn hd⟩

theorem set (h : r.Faithful name g) {b : Board} (hb : r.board.Setting b) :
    Faithful name g { r with board := b } :=
  ⟨h.aligned.step (.set hb), h.shows.of_same hb.same⟩

theorem resort (h : r.Faithful name g) (now : Nat) :
    Faithful name g { r with board := r.board.serveResorting now } :=
  ⟨h.aligned.step (.resort now), h.shows.serveResorting now⟩

end Registry.Faithful

namespace Engine

variable {σ : Type} {P : Mark → Prop} {C : Core σ} {e e' : Engine σ} {table : GroupTable}
  {name : String} {g : Group}

theorem Moves.faithful (h : Moves Mark.IsBland e e') (hf : e.registry.Faithful name g) :
    e'.registry.Faithful name g := by
  induction h with
  | refl => exact hf
  | tail _ hm ih =>
    obtain ⟨m, hb, hm⟩ := hm
    cases hm with
    | quiet hq => exact hq.registry ▸ ih
    | retask | park | count | yield | clock => exact ih
    | write w hw => exact (hb _ rfl).elim
    | settings overrides hb => exact ih.set hb
    | resort now => exact ih.resort now
    | @«open» _ index x _ _ => exact ih.write (w := .setTesting index x.name true) trivial
    | @close _ index s _ _ _ => exact ih.write (w := .setTesting index s.group false) trivial
    | swap => exact (hb _ rfl).elim

theorem Quiet.faithful (h : Quiet e e') (hf : e.registry.Faithful name g) :
    e'.registry.Faithful name g :=
  h.registry ▸ hf

theorem hear_ok {α : Type} {call : Call} {answer : σ → σ × Option (Answer α)} {a : α}
    (h : e.hear call answer = (e', .inr (.ok a))) : (answer e.core).2 = some (.ok a) := by
  unfold hear at h
  split at h
  · split at h
    · next he =>
      cases h
      rw [he]
    · dsimp only at h
      split at h <;> cases h
  · split at h <;> cases h

theorem advanceQuery_ok {q : Query} {r : GroupReport}
    (h : e.advanceQuery C q = (e', .inr (.ok r))) :
    ∃ s, (C.report q.group q.sort s).2 = some (.ok r) := by
  unfold advanceQuery at h
  split at h
  · split at h <;> cases h
  · split at h
    · cases h
    · next he =>
      cases h
      exact ⟨e.core, hear_ok he⟩

theorem fillDelays_identity (e : Engine σ) (members : List Proxy) :
    (e.fillDelays members).2.map Proxy.identity = members.map Proxy.identity := by
  induction members generalizing e with
  | nil => rfl
  | cons p rest ih =>
    have hp : (e.fillDelay p).2.identity = p.identity := by
      unfold fillDelay
      split <;> rfl
    show (e.fillDelay p).2.identity :: ((e.fillDelay p).1.fillDelays rest).2.map Proxy.identity = _
    rw [hp, ih, List.map_cons]

theorem filled_alike (e : Engine σ) (group : String) {r : GroupReport} (h : g.Alike r.toGroup) :
    g.Alike ⟨group, (e.fillDelays r.members).2, r.selectable, r.now?⟩ := by
  refine ⟨h.now, ?_⟩
  rw [fillDelays_identity]
  exact h.members

theorem applyReport_faithful (hf : e.registry.Faithful name g) (index : Nat) {group : String}
    {r : GroupReport} (hr : group = name → g.Alike r.toGroup) :
    (e.applyReport index group r).registry.Faithful name g := by
  have hq := (fillDelays_quiet e r.members).faithful hf
  refine hq.write (w := .publish index ⟨group, (e.fillDelays r.members).2, r.selectable, r.now?⟩) ?_
  intro hn
  exact filled_alike e group (hr hn)

theorem stepLoad_faithful (hC : C.Fixed table) (hg : table[name]? = some g)
    (hf : e.registry.Faithful name g) (index : Nat) (query : Query) :
    (stepLoad C e index query).1.registry.Faithful name g := by
  have hq := (advanceQuery_quiet C query e).faithful hf
  unfold stepLoad
  split
  · next he => rw [he] at hq; exact hq
  · next he => rw [he] at hq; exact hq
  · next report he =>
    rw [he] at hq
    obtain ⟨s, hr⟩ := advanceQuery_ok he
    exact applyReport_faithful hq index (hC.alike hg hr)

theorem stepLoads_faithful (hC : C.Fixed table) (hg : table[name]? = some g)
    (hf : e.registry.Faithful name g) (loads : List Load) :
    (stepLoads C e loads).1.registry.Faithful name g := by
  have h := stepLoads_turn C e loads
  generalize stepLoads C e loads = x at h
  cases h with
  | none => exact hf
  | one => exact stepLoad_faithful hC hg hf _ _

theorem takeChoice_faithful (hf : e.registry.Faithful name g) {choice : Choice}
    {answer : Answer Bool}
    (hc : answer = .ok true → choice.group = name → g.now = some choice.proxy) :
    (e.takeChoice choice answer).1.registry.Faithful name g := by
  unfold takeChoice
  split
  · exact hf
  · exact hf
  · have hw : (e.write (·.setSelection choice.index choice.group choice.proxy)).registry.Faithful
        name g :=
      hf.write (w := .setSelection choice.index choice.group choice.proxy) (hc rfl)
    dsimp only
    split
    · exact (testInBackground_moves _ trivial _).faithful hw
    · exact hw

theorem choosing_faithful (hC : C.Fixed table) (hg : table[name]? = some g)
    (hf : e.registry.Faithful name g) (choice : Choice) (call : Call) :
    (stepRequest C e (.choosing choice call)).1.registry.Faithful name g := by
  have hq := (hear_quiet call (C.choose choice.group choice.proxy) e).faithful hf
  unfold stepRequest
  dsimp only
  split
  · next he => rw [he] at hq; exact hq
  · next answer he =>
    rw [he] at hq
    apply takeChoice_faithful ((note_quiet _ answer _).faithful hq)
    rintro rfl rfl
    exact hC.choose _ _ _ (hear_ok he) g hg

theorem applyPoll_faithful (hf : e.registry.Faithful name g) {plan : SessionPlan}
    {r : GroupReport} (hr : plan.group = name → g.Alike r.toGroup) :
    (e.applyPoll plan r).registry.Faithful name g := by
  have hl := (foldl_learn_quiet (DelayTable.ofMembers r.members).toList e).faithful hf
  have hd := hl.write (w := .updateDelays plan.index plan.group (.ofMembers r.members)) trivial
  unfold applyPoll
  dsimp only
  split
  · exact hd
  · next now hnow =>
    refine hd.write (w := .setSelection plan.index plan.group now) fun hn => ?_
    exact (hr hn).now.symm.trans hnow

theorem poll_faithful (hC : C.Fixed table) (hg : table[name]? = some g)
    (hf : e.registry.Faithful name g) {plan : SessionPlan} (p : Polling) {query : Query}
    (hq : query.group = plan.group) : (e.poll C plan p query).1.registry.Faithful name g := by
  have ha := (advanceQuery_quiet C query e).faithful hf
  unfold poll
  split
  · next he => rw [he] at ha; exact ha
  · next he => rw [he] at ha; exact ha
  · next report he =>
    rw [he] at ha
    obtain ⟨s, hr⟩ := advanceQuery_ok he
    exact applyPoll_faithful ha fun hn => hC.alike hg hr (hq.trans hn)

theorem collect_faithful (hf : e.registry.Faithful name g) (plan : SessionPlan)
    (missing deadline : Nat) (inbox : List (String × Int)) :
    (e.collect plan missing deadline inbox).1.registry.Faithful name g := by
  unfold collect
  split
  · next proxy delay rest =>
    exact hf.write (w := .updateDelay plan.index plan.group proxy delay) trivial
  · exact hf

theorem stepSession_faithful (hC : C.Fixed table) (hg : table[name]? = some g)
    (hf : e.registry.Faithful name g) {job : Job} {plan : SessionPlan}
    (hp : job.plan? = some plan) (ha : job.IsApt) :
    (e.stepSession C job).1.registry.Faithful name g := by
  cases job with
  | opening p =>
    cases hp
    unfold stepSession
    dsimp only
    split
    · exact (openPolling_moves e plan).faithful hf
    · exact (openProbes_moves e plan).faithful hf
  | ticking p polling =>
    cases hp
    exact (tick_moves C e plan polling).faithful hf
  | polling p polling query =>
    cases hp
    exact poll_faithful hC hg hf polling ha
  | collecting p missing deadline inbox =>
    cases hp
    exact collect_faithful hf plan missing deadline inbox
  | _ => cases hp

theorem afterSession_faithful (plan : SessionPlan) {x : Engine σ × SessionMove}
    (hf : x.1.registry.Faithful name g) : (afterSession plan x).1.registry.Faithful name g := by
  obtain ⟨e, move⟩ := x
  cases move with
  | wait job => exact hf
  | stop outcome =>
    show (e.finishSession plan outcome).registry.Faithful name g
    rcases finishSession_cases e plan outcome with he | ⟨s, _, _, he⟩ <;> rw [he]
    · exact hf
    · exact hf.write (w := .setTesting plan.index s.group false) trivial
  | breakOff => exact hf

theorem stopAll_faithful (hf : e.registry.Faithful name g) :
    e.stopAll.1.registry.Faithful name g :=
  (stopSessions_moves trivial _ _ e).faithful hf

theorem applyNames_faithful (hf : e.registry.Faithful name g) (hn : name ∈ e.registry.names)
    {names : List String} (hd : names.Nodup) :
    (e.applyNames names).1.registry.Faithful name g := by
  by_cases h : e.registry.names = names
  · rw [applyNames_of_eq e h]
    exact hf
  · rw [applyNames_of_ne e h]
    exact (stopAll_faithful hf).replace (stopAll_names e ▸ hn) hd

theorem takeNames_faithful (hf : e.registry.Faithful name g) (hn : name ∈ e.registry.names)
    {attempt : Option Attempt} {answer : Answer (List String)}
    (hd : (takeNames C e attempt answer).1.registry.names.Nodup) :
    (takeNames C e attempt answer).1.registry.Faithful name g := by
  cases answer with
  | error error =>
    cases attempt with
    | some attempt => exact (retry_yields C e attempt).moves.faithful hf
    | none => exact hf
  | ok names =>
    by_cases hs : attempt.isSome → names ≠ []
    · have hu := takeNames_untouched C e hs
      rw [hu.registry] at hd ⊢
      rw [applyNames_names] at hd
      exact applyNames_faithful hf hn hd
    · obtain ⟨ha, hempty⟩ := Classical.not_imp.mp hs
      obtain ⟨attempt, rfl⟩ := Option.isSome_iff_exists.mp ha
      obtain rfl := Classical.not_not.mp hempty
      exact (retry_yields C e attempt).moves.faithful hf

theorem naming_faithful (hf : e.registry.Faithful name g) (hn : name ∈ e.registry.names)
    {attempt : Option Attempt} {selectableOnly : Bool} {call : Call}
    (hd : (stepRequest C e (.naming attempt selectableOnly call)).1.registry.names.Nodup) :
    (stepRequest C e (.naming attempt selectableOnly call)).1.registry.Faithful name g := by
  have hq := hear_quiet call (C.names selectableOnly) e
  unfold stepRequest at hd ⊢
  dsimp only at hd ⊢
  split at hd
  · next he => rw [he] at hq; exact hq.faithful hf
  · next answer he =>
    rw [he] at hq
    have hq := hq.trans (note_quiet (.names selectableOnly) answer _)
    exact takeNames_faithful (hq.faithful hf) (hq.registry ▸ hn) hd

theorem stepJob_faithful (hC : C.Fixed table) (hg : table[name]? = some g)
    (hf : e.registry.Faithful name g) (hn : name ∈ e.registry.names) (id : Nat) {job : Job}
    (ha : job.IsApt) (hd : (stepJob C e id job).1.registry.names.Nodup) :
    (stepJob C e id job).1.registry.Faithful name g := by
  cases hp : job.plan? with
  | some plan =>
    rw [stepJob_session C e id hp]
    exact afterSession_faithful plan (stepSession_faithful hC hg hf hp ha)
  | none =>
    cases job with
    | loading goal loads =>
      exact (afterRequest_quiet id _).faithful (stepLoads_faithful hC hg hf loads)
    | choosing choice call =>
      exact (afterRequest_quiet id _).faithful (choosing_faithful hC hg hf choice call)
    | naming attempt selectableOnly call =>
      rw [stepJob_naming] at hd ⊢
      exact naming_faithful hf hn hd
    | _ =>
      have hm := (stepJob_moves C e id hp).1
      refine (hm.mono fun m hm => ?_).faithful hf
      cases hm with
      | «show» h => rw [hp] at h; cases h
      | _ => trivial

theorem resume_faithful (hC : C.Fixed table) (hg : table[name]? = some g)
    (hf : e.registry.Faithful name g) (hn : name ∈ e.registry.names) {t : Task}
    (ha : t.job.IsApt) (hd : (resume C e t).registry.names.Nodup) :
    (resume C e t).registry.Faithful name g := by
  unfold resume at hd ⊢
  dsimp only at hd ⊢
  split at hd
  · next hgone =>
    rw [if_pos hgone]
    exact (abandonJob_quiet _ _).faithful hf
  · next hgone =>
    rw [park_registry] at hd
    rw [if_neg hgone, park_registry]
    have hf : (e.without t).registry.Faithful name g := hf
    exact stepJob_faithful hC hg hf hn t.id ha hd

theorem instruct_moves (e : Engine σ) (change : Nat → Coordinator → Coordinator) :
    Moves P e (e.instruct change) := by
  apply map_moves
  · rintro ⟨id, job, isAborted⟩
    cases job <;> exact .inl rfl
  · rintro ⟨id, job, isAborted⟩ ht
    cases job <;> exact ht

theorem bland_elsewhere (C : Core σ) {a : Action σ} (ha : e.Allows a) (h : ∀ t, a ≠ .resume t) :
    Moves Mark.IsBland e (e.perform C a) := by
  by_cases hi : a.Instructs
  · rw [perform_instructs C e hi]
    exact instruct_moves e _
  · cases a with
    | resume t => exact absurd rfl (h t)
    | turnTo t c branch =>
      have hb := takeBranch_moves (P := Mark.IsBland) (e.without t) trivial trivial trivial c branch
      refine ((without_moves e t).trans hb).trans (park_moves _ t fun job hj => ?_)
      obtain ⟨x, _, rfl⟩ := Option.map_eq_some_iff.mp hj
      rfl
    | takeResorts => exact (Move.settings e.overrides (.take e.now)).marked trivial
    | serveResorts => exact (Move.resort e.now).marked trivial
    | wait time => exact (Move.clock ha).marked trivial
    | changeCore core => exact Quiet.moves ⟨rfl, rfl, rfl, rfl, rfl, rfl, rfl, rfl⟩
    | request r => exact spawn_moves e rfl
    | test index => exact requestTest_moves trivial e index
    | backgroundTest index => exact requestBackgroundTest_moves trivial e index
    | stop index => exact stopSession_moves trivial e index _
    | stopAll => exact stopSessions_moves trivial _ _ e
    | sweepSessions => exact stopSessions_moves trivial _ _ e
    | sortByDelay on => exact setSortByDelay_moves e trivial on
    | configure next => exact applyConfig_moves e trivial next
    | startCoordinator takesUpdates => exact spawn_moves e rfl
    | send handle intent | sendConfig handle next | closeUpdates handle | dropHandle handle
    | shutdown => exact absurd trivial hi
    | remember proxy delay => exact Quiet.moves ⟨rfl, rfl, rfl, rfl, rfl, rfl, rfl, rfl⟩
    | lookUp proxy => exact (lookUp_quiet e proxy).moves
    | evict => exact (evict_quiet e).moves

theorem perform_faithful (hC : C.Fixed table) (hg : table[name]? = some g)
    (hf : e.registry.Faithful name g) (hn : name ∈ e.registry.names)
    (hq : ∀ t ∈ e.tasks, t.job.IsApt) {a : Action σ} (ha : e.Allows a)
    (hd : (e.perform C a).registry.names.Nodup) : (e.perform C a).registry.Faithful name g := by
  by_cases hr : ∃ t, a = .resume t
  · obtain ⟨t, rfl⟩ := hr
    exact resume_faithful hC hg hf hn (hq t ha) hd
  · exact (bland_elsewhere C ha fun t ht => hr ⟨t, ht⟩).faithful hf

theorem query_group (C : Core σ) (group : String) (sort : SortMode) (limit : Nat) (e : Engine σ) :
    (e.query C group sort limit).2.group = group := by
  unfold query
  dsimp only
  split <;> rfl

theorem advanceQuery_group {q next : Query} (h : e.advanceQuery C q = (e', .inl next)) :
    next.group = q.group := by
  unfold advanceQuery at h
  split at h
  · split at h <;> cases h <;> rfl
  · split at h <;> cases h
    rfl

theorem afterPoll_apt {plan : SessionPlan} {p : Polling} {found : Option DelayTable} {next : Job}
    (h : e.afterPoll plan p found = .wait next) : next.IsApt := by
  unfold afterPoll at h
  dsimp only at h
  repeat' split at h
  all_goals cases h
  trivial

theorem stepSession_apt {job next : Job} (ha : job.IsApt)
    (h : (e.stepSession C job).2 = .wait next) : next.IsApt := by
  cases job with
  | opening plan =>
    unfold stepSession openPolling openProbes at h
    dsimp only at h
    repeat' split at h
    all_goals cases h
    all_goals trivial
  | ticking plan p =>
    unfold stepSession tick at h
    dsimp only at h
    split at h
    · cases h
      exact query_group C _ _ _ e
    · split at h <;> cases h
      trivial
  | polling plan p query =>
    unfold stepSession poll at h
    dsimp only at h
    split at h
    · next he =>
      cases h
      exact (advanceQuery_group he).trans ha
    · dsimp only at h; exact afterPoll_apt h
    · dsimp only at h; exact afterPoll_apt h
  | collecting plan missing deadline inbox =>
    unfold stepSession collect at h
    dsimp only at h
    repeat' split at h
    all_goals cases h
    all_goals trivial
  | _ =>
    cases h
    exact ha

theorem stepJob_apt {id : Nat} {job next : Job} (ha : job.IsApt)
    (hn : next ∈ (stepJob C e id job).2) : next.IsApt := by
  cases hp : job.plan? with
  | none => exact Job.isApt_of_plan ((stepJob_moves C e id hp).2 next hn)
  | some plan =>
    rw [stepJob_session C e id hp] at hn
    rcases hs : e.stepSession C job with ⟨e', move⟩
    rw [hs] at hn
    cases move with
    | wait job' => exact stepSession_apt ha (by rw [hs]; exact congrArg _ (Option.some.inj hn))
    | stop outcome => cases hn
    | breakOff => cases hn

theorem perform_apt {a : Action σ} (ha : e.Allows a)
    (h : ∀ t ∈ e.tasks, t.job.IsApt) : ∀ t ∈ (e.perform C a).tasks, t.job.IsApt := by
  apply perform_all C ha (Q := fun t => t.job.IsApt)
  · exact fun _ _ ht => ht.isApt
  · exact fun _ _ _ hj => hj.isApt
  · exact fun t _ ht next hn => stepJob_apt ht hn
  · exact h

theorem Run.apt {calls : List (TestCall σ)} (h : Run C e calls e') (hc : Coherent e)
    (hq : ∀ t ∈ e.tasks, t.job.IsApt) : ∀ t ∈ e'.tasks, t.job.IsApt :=
  h.keeps (fun _ _ _ ha hq => perform_apt ha hq) hc hq

theorem Reachable.apt (h : Reachable C e) : ∀ t ∈ e.tasks, t.job.IsApt := by
  obtain ⟨core, config, overrides, calls, hr⟩ := h
  refine hr.apt (new_coherent core config overrides) fun t ht => ?_
  cases ht

theorem stepLoad_done {index : Nat} {query : Query} (h : (stepLoad C e index query).2 = .done true) :
    ∃ e' r s, Quiet e e' ∧ (C.report query.group query.sort s).2 = some (.ok r) ∧
      (stepLoad C e index query).1 = e'.applyReport index query.group r := by
  have hq := advanceQuery_quiet C query e
  unfold stepLoad at h ⊢
  split
  · next he => rw [he] at h; cases h
  · next he => rw [he] at h; cases h
  · next e' report he =>
    rw [he] at hq
    obtain ⟨s, hr⟩ := advanceQuery_ok he
    exact ⟨e', report, s, hq, hr, rfl⟩

theorem stepLoads_done {loads : List Load} {k index : Nat} {query : Query}
    (hl : loads[k]? = some (.asking index query))
    (hd : (stepLoads C e loads).2[k]? = some (.done true)) :
    (stepLoads C e loads).1 = (stepLoad C e index query).1 ∧
      (stepLoad C e index query).2 = .done true := by
  induction loads generalizing k with
  | nil => cases hl
  | cons load rest ih =>
    cases load with
    | done ok =>
      cases k with
      | zero => cases hl
      | succ k => exact ih hl hd
    | asking i q =>
      unfold stepLoads at hd ⊢
      dsimp only at hd ⊢
      split at hd
      · next ho =>
        rw [if_pos ho]
        cases k with
        | zero =>
          cases hl
          exact ⟨rfl, Option.some.inj hd⟩
        | succ k =>
          -- only the first load that can go on does
          rw [List.getElem?_cons_succ] at hl hd
          rw [hl] at hd
          cases hd
      · next ho =>
        rw [if_neg ho]
        cases k with
        | zero => cases hd
        | succ k => exact ih hl hd

theorem load_faithful (hC : C.Fixed table) (ha : e.registry.Aligned) (hd : e.registry.names.Nodup)
    {index : Nat} {query : Query} (hi : e.registry.names[index]? = some query.group)
    (h : (stepLoad C e index query).2 = .done true) :
    ∃ g, table[query.group]? = some g ∧
      (stepLoad C e index query).1.registry.Faithful query.group g := by
  obtain ⟨e', r, s, hq, hr, he⟩ := stepLoad_done h
  obtain ⟨g, hg, hgr⟩ := hC.report _ _ _ _ hr
  have hfilled := hq.trans (fillDelays_quiet e' r.members)
  rw [← hfilled.registry] at ha hd hi
  refine ⟨g, hg, ?_⟩
  rw [he]
  exact ⟨ha.write (.publish index _),
    Registry.shows_publish ha hd hi (filled_alike e' query.group hgr)⟩

theorem resume_loading {t : Task} (hp : t.Proper) {goal : LoadGoal} {loads : List Load}
    (hj : t.job = .loading goal loads) :
    (resume C e t).registry = (stepLoads C (e.without t) loads).1.registry := by
  have ha := not_aborted_of_proper hp (by rw [hj]; rfl)
  rw [resume_lives C e ha, hj, park_registry]
  exact (afterRequest_quiet t.id (stepRequest C (e.without t) (.loading goal loads))).registry

/-- A group was loaded once, and has been tracked ever since, while no name came twice. -/
inductive Loaded (C : Core σ) (name : String) : Engine σ → Prop
  | load {e : Engine σ} {t : Task} {goal : LoadGoal} {loads : List Load} {k index : Nat}
    {query : Query} : Reachable C e → t ∈ e.tasks → t.job = .loading goal loads →
    loads[k]? = some (.asking index query) → query.group = name →
    e.registry.names[index]? = some name → e.registry.names.Nodup →
    (stepLoads C (e.without t) loads).2[k]? = some (.done true) → Loaded C name (resume C e t)
  | keep {e : Engine σ} {a : Action σ} : Loaded C name e → e.Allows a →
    name ∈ (e.perform C a).registry.names → (e.perform C a).registry.names.Nodup →
    Loaded C name (e.perform C a)

theorem Loaded.reachable (h : Loaded C name e) : Reachable C e := by
  induction h with
  | load hr ht => exact hr.reaches (reaches_perform C (a := .resume _) ht)
  | keep _ ha _ _ ih => exact ih.reaches (reaches_perform C ha)

theorem Loaded.tracked (h : Loaded C name e) : name ∈ e.registry.names := by
  cases h with
  | @load e t _ _ _ _ _ hr ht hj _ _ hi =>
    have hm := resume_moves C hr.coherent ht
    have hs : ¬ May t.job .swap := by
      rw [hj]
      exact nofun
    rw [(hm.content hs May.not_resort).1]
    exact List.mem_of_getElem? hi
  | keep _ _ hn => exact hn

theorem Loaded.faithful (h : Loaded C name e) (hC : C.Fixed table) :
    ∃ g, table[name]? = some g ∧ e.registry.Faithful name g := by
  induction h with
  | @load e t goal loads k index query hr ht hj hl hq hi hd hdone =>
    subst hq
    obtain ⟨hstep, hdone⟩ := stepLoads_done hl hdone
    rw [resume_loading (hr.coherent.proper t ht) hj, hstep]
    have ha : (e.without t).registry.Aligned := hr.coherent.aligned
    exact load_faithful hC ha hd hi hdone
  | keep h ha _ hd ih =>
    obtain ⟨g, hg, hf⟩ := ih
    exact ⟨g, hg, perform_faithful hC hg hf h.tracked h.reachable.apt ha hd⟩

end Engine

end ProxyPulse
