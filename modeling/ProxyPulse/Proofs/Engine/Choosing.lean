import ProxyPulse.Proofs.Engine.Aftermath
import ProxyPulse.Proofs.Engine.Course
import ProxyPulse.Proofs.Engine.Overheard
import ProxyPulse.Proofs.Engine.Reloading

/-!
What comes of a choice. The core is asked to choose in the group that stands at the index then,
and whatever happens until it answers, the choice stays the same. One that is not accepted leaves
nothing behind. One that is accepted is shown where the group still stands, and may have the chosen
group tested: by a session where that group is tracked by then, or else by a trigger that goes out
once.
-/

namespace ProxyPulse

theorem Board.setSelection_record {b : Board} {index : Nat} {x : Record}
    (hx : b.records[index]? = some x) (now : String) :
    ∃ x', (b.setSelection index now).1.records[index]? = some x' ∧
      x'.group = { x.group with now := some now } ∧ x'.links = x.links ∧
      x'.testing = x.testing := by
  by_cases hn : x.group.now = some now
  · refine ⟨x, ?_, by rw [← hn], rfl, rfl⟩
    simp [setSelection, modify, hx, hn]
  · refine ⟨{ x with group.now := some now, index, revision := b.revision + 1 }, ?_, rfl, rfl, rfl⟩
    simp [setSelection, modify, hx, hn, records_put]

namespace Engine

variable {σ : Type} {C : Core σ} {e e' : Engine σ} {t u : Task} {n limit : Nat} {group : String}
  {choice : Choice} {call : Call}

def askedBy (C : Core σ) (id : Nat) (e : Engine σ) : Action σ → List Operation :=
  e.noted C.traced (·.id = id)

/-- A turn that touches no group, no session and no delay, and has nothing tested. At most the task
is left with something to do, and with what it has asked of the core. -/
structure Passes (C : Core σ) (e : Engine σ) (t : Task) (left : Option Job)
    (asks : List Operation) : Prop where
  untouched : Untouched e (resume C e t)
  tasks : (resume C e t).tasks = (e.without t).tasks ++ left.toList.map ({ id := t.id, job := · })
  untested : e.calls C (.resume t) = []
  asks : e.askedBy C t.id (.resume t) = asks

theorem askedBy_own (C : Core σ) (e : Engine σ) (hlive : t.isAborted = false) :
    e.askedBy C t.id (.resume t) =
      (stepJob C.traced (e.without t).withLog t.id t.job).1.core.2 := by
  rw [askedBy, noted, if_pos rfl, resume_core C.traced e.withLog hlive]
  rfl

theorem calls_lives (C : Core σ) (e : Engine σ) (hlive : t.isAborted = false) :
    e.calls C (.resume t) = jobCalls C (e.without t) t.job := by
  simp only [calls, hlive]
  rfl

theorem passes_of_step {next : Option Job} {asks : List Operation} (hlive : t.isAborted = false)
    (hstep : stepJob C (e.without t) t.id t.job = (e', next)) (hquiet : Quiet (e.without t) e')
    (hcache : e'.cache = e.cache) (hcalls : jobCalls C (e.without t) t.job = [])
    (hasks : (stepJob C.traced (e.without t).withLog t.id t.job).1.core.2 = asks) :
    Passes C e t next asks := by
  have hturn : resume C e t = e'.park t next := by rw [resume_lives C e hlive, hstep]
  have hpark := park_untouched e' t next
  constructor
  · rw [hturn]
    exact ⟨hpark.registry.trans hquiet.registry, hpark.sessions.trans hquiet.sessions,
      hpark.cache.trans hcache⟩
  · rw [hturn, park_tasks, hquiet.tasks]
  · rw [calls_lives C e hlive, hcalls]
  · rw [askedBy_own C e hlive, hasks]

theorem note_cache {α : Type} (operation : Operation) (answer : Answer α) (e : Engine σ) :
    (note operation answer e).cache = e.cache := by
  cases answer <;> rfl

theorem stepTrigger_quiet (C : Core σ) (e : Engine σ) (group : String) (limit : Nat)
    (call : Option Call) : Quiet e (stepTrigger C e group limit call).1 ∧
      (stepTrigger C e group limit call).1.cache = e.cache := by
  unfold stepTrigger
  split
  · exact ⟨call_quiet C (.trigger group) (some limit) e, rfl⟩
  · next call =>
    have hquiet := hear_quiet call (C.trigger group) e
    have hcache := (hear_untouched call (C.trigger group) e).cache
    split
    · next he => rw [he] at hquiet hcache; exact ⟨hquiet, hcache⟩
    · next answer he =>
      rw [he] at hquiet hcache
      exact ⟨hquiet.trans (note_quiet _ answer _), (note_cache _ answer _).trans hcache⟩

theorem trigger_passes (hlive : t.isAborted = false) {call : Option Call}
    (hj : t.job = .triggering none group limit call) : ∃ call' : Option Call,
      Passes C e t (call'.map fun call => .triggering none group limit (some call))
        (if call.isNone then [.trigger group] else []) ∧ (call = none → call'.isSome) := by
  obtain ⟨hquiet, hcache⟩ := stepTrigger_quiet C (e.without t) group limit call
  refine ⟨(stepTrigger C (e.without t) group limit call).2, passes_of_step hlive ?_ hquiet hcache
    ?_ ?_, ?_⟩
  · rw [hj]; rfl
  · rw [hj]; rfl
  · rw [hj]
    cases call with
    | none => rfl
    | some call => exact stepTrigger_log C _ _ group limit call
  · rintro rfl
    rfl

def TriggerWaits (n : Nat) (group : String) (limit : Nat) (e : Engine σ) : Prop :=
  ∃ t ∈ e.tasks, t.id = n ∧ t.job = .triggering none group limit none

def TriggerSent (n : Nat) (group : String) (limit : Nat) (e : Engine σ) : Prop :=
  ∀ t ∈ e.tasks, t.id = n → ∃ call, t.job = .triggering none group limit (some call)

theorem TriggerWaits.turn (h : TriggerWaits n group limit e) (hc : Coherent e)
    (hn : Numbered [] e) (ht : t ∈ e.tasks) (hid : t.id = n) :
    TriggerSent n group limit (resume C e t) ∧
      e.askedBy C n (.resume t) = [.trigger group] := by
  obtain ⟨u, hu, rfl, hj⟩ := h
  obtain rfl := hn.mem_eq hu ht hid
  have hlive := not_aborted_of_proper (hc.proper t ht) (by rw [hj]; rfl)
  obtain ⟨call, hpasses, hsent⟩ := trigger_passes (C := C) hlive hj
  obtain ⟨call, rfl⟩ := Option.isSome_iff_exists.mp (hsent rfl)
  refine ⟨fun v hv hvid => ?_, hpasses.asks⟩
  rw [hpasses.tasks] at hv
  rcases List.mem_append.mp hv with hv | hv
  · exact absurd hvid (bne_iff_ne.mp (List.mem_filter.mp hv).2)
  · rw [List.mem_singleton.mp hv]
    exact ⟨call, rfl⟩

theorem TriggerWaits.other (h : TriggerWaits n group limit e) (C : Core σ) (hc : Coherent e)
    (hn : Numbered [] e) {a : Action σ} (ha : e.Allows a)
    (hother : ∀ t, a = .resume t → t.id ≠ n) : TriggerWaits n group limit (e.perform C a) := by
  obtain ⟨t, ht, rfl, hj⟩ := h
  obtain ⟨u, hu, hid, hkept⟩ :=
    perform_leaves C hc hn ha ht (by rw [hj]; rfl) (by rw [hj]; rfl) hother
  exact ⟨u, hu, hid, hkept.trans hj⟩

theorem TriggerSent.perform (h : TriggerSent n group limit e) (C : Core σ) {a : Action σ}
    (ha : e.Allows a) (hid : n < e.nextTask) : TriggerSent n group limit (e.perform C a) := by
  refine perform_within (F := fun job => ∃ call, job = .triggering none group limit (some call))
    ?_ ?_ ha hid h
  · rintro job ⟨call, rfl⟩
    exact ⟨rfl, rfl⟩
  · rintro e job next ⟨call, rfl⟩ hnext
    obtain ⟨call', -, rfl⟩ := Option.map_eq_some_iff.mp hnext
    exact ⟨call', rfl⟩

theorem TriggerSent.quiet (h : TriggerSent n group limit e) (C : Core σ) (hc : Coherent e)
    {a : Action σ} (ha : e.Allows a) : e.askedBy C n a = [] := by
  by_cases hown : ∃ t, a = .resume t ∧ t.id = n
  · obtain ⟨t, rfl, rfl⟩ := hown
    obtain ⟨call, hj⟩ := h t ha rfl
    have hlive := not_aborted_of_proper (hc.proper t ha) (by rw [hj]; rfl)
    obtain ⟨_, hpasses, -⟩ := trigger_passes (C := C) hlive hj
    exact hpasses.asks
  · exact noted_stranger fun t ht hid => hown ⟨t, ht, hid⟩

def TriggersOnce (C : Core σ) (n : Nat) (group : String) (e : Engine σ) : Prop :=
  ∀ P D e', Course (Acts C (askedBy C n) P) e D e' →
    (D = [] ∨ ∃ time, D = [(time, .trigger group)]) ∧
    (∀ t ∈ e'.tasks, t.id = n → ∃ left asks, Passes C e' t left asks) ∧
    ((∀ e a, P e a → Prompt e a) → e.now < e'.now → D = [(e.now, .trigger group)])

inductive TriggerCourse (n : Nat) (group : String) (limit : Nat) (prompt : Prop) (start : Nat)
    (e : Engine σ) : List (Nat × Operation) → Prop
  | waits : TriggerWaits n group limit e → (prompt → e.now = start) →
    TriggerCourse n group limit prompt start e []
  | sent {time : Nat} : TriggerSent n group limit e → (prompt → time = start) →
    TriggerCourse n group limit prompt start e [(time, .trigger group)]

theorem TriggerCourse.act {start : Nat} {P : Engine σ → Action σ → Prop}
    {D : List (Nat × Operation)}
    (h : TriggerCourse n group limit (∀ e a, P e a → Prompt e a) start e D) (hsound : Sound e)
    (hid : n < e.nextTask) (C : Core σ) {a : Action σ} (ha : e.Allows a) (hP : P e a) :
    TriggerCourse n group limit (∀ e a, P e a → Prompt e a) start (e.perform C a)
      (D ++ (e.askedBy C n a).map (e.now, ·)) := by
  cases h with
  | waits hwaits hnow =>
    by_cases hown : ∃ t, a = .resume t ∧ t.id = n
    · obtain ⟨t, rfl, ht⟩ := hown
      obtain ⟨hsent, hasks⟩ := hwaits.turn hsound.coherent hsound.numbered ha ht
      rw [hasks]
      exact .sent hsent hnow
    · have hother : ∀ t, a = .resume t → t.id ≠ n := fun t ht htid => hown ⟨t, ht, htid⟩
      rw [askedBy, noted_stranger hother]
      refine .waits (hwaits.other C hsound.coherent hsound.numbered ha hother) fun hprompt => ?_
      rw [← hnow hprompt]
      refine perform_now C hsound.coherent ha fun time htime => ?_
      -- the trigger waits for nothing but its turn
      subst htime
      obtain ⟨t, ht, -, hj⟩ := hwaits
      exact (hprompt e _ hP).no_turn ht (by rw [hj]; exact List.mem_singleton_self _)
  | sent hsent htime =>
    rw [hsent.quiet C hsound.coherent ha]
    exact .sent (hsent.perform C ha hid) htime

theorem triggersOnce (hsound : Sound e) (hid : n < e.nextTask) (h : TriggerWaits n group limit e) :
    TriggersOnce C n group e := by
  intro P D e' hrun
  have hcourse := hrun.keeps_sound hsound
    (Q := fun D e' => n < e'.nextTask ∧
      TriggerCourse n group limit (∀ e a, P e a → Prompt e a) e.now e' D)
    (fun D e' a hsound ha hP hq => by
      obtain ⟨hid, hcourse⟩ := hq
      exact ⟨Nat.lt_of_lt_of_le hid (perform_nextTask C hsound.coherent ha),
        hcourse.act hsound hid C ha hP⟩)
    ⟨hid, .waits h fun _ => rfl⟩
  obtain ⟨hsound', -, hcourse⟩ := hcourse
  have hpasses (t : Task) (ht : t ∈ e'.tasks) {call : Option Call}
      (hj : t.job = .triggering none group limit call) : ∃ left asks, Passes C e' t left asks := by
    have hlive := not_aborted_of_proper (hsound'.coherent.proper t ht) (by rw [hj]; rfl)
    obtain ⟨_, hpasses, -⟩ := trigger_passes (C := C) hlive hj
    exact ⟨_, _, hpasses⟩
  cases hcourse with
  | waits hwaits hnow =>
    refine ⟨.inl rfl, fun t ht htid => ?_, fun hprompt hlt => ?_⟩
    · obtain ⟨u, hu, rfl, hj⟩ := hwaits
      rw [hsound'.numbered.mem_eq hu ht htid]
      exact hpasses u hu hj
    · exact absurd (hnow hprompt) (Nat.ne_of_gt hlt)
  | @sent time hsent htime =>
    refine ⟨.inr ⟨time, rfl⟩, fun t ht htid => ?_, fun hprompt _ => ?_⟩
    · obtain ⟨call, hj⟩ := hsent t ht htid
      exact hpasses t ht hj
    · rw [htime hprompt]

theorem startChoice_unknown {i : Nat} {p : String} (hp : t.Proper)
    (hj : t.job = .start (.select i p)) (hg : e.registry.group? i = none) :
    Passes C e t none [] ∧
      (resume C e t).result? t.id = some (.changed (.error (.unknownIndex i))) := by
  have hlive := not_aborted_of_proper hp (by rw [hj]; rfl)
  have hstep {τ : Type} (C : Core τ) (e : Engine τ) (hg : e.registry.group? i = none) :
      stepJob C e t.id t.job = ({ e with results := (t.id,
        .changed (.error (.unknownIndex i))) :: e.results }, none) := by
    rw [hj]
    show afterRequest t.id (startChoice C e i p) = _
    rw [startChoice, hg]
    rfl
  have hturn := hstep C (e.without t) hg
  refine ⟨passes_of_step hlive hturn ⟨rfl, rfl, rfl, rfl, rfl, rfl, rfl, rfl⟩ rfl ?_ ?_, ?_⟩
  · rw [hj]; rfl
  · rw [hstep C.traced (e.without t).withLog hg]; rfl
  · rw [resume_lives C e hlive, hturn, result?, park, List.lookup_cons_self]

theorem startChoice_asks {i : Nat} {p : String} {g : Group} (hp : t.Proper)
    (hj : t.job = .start (.select i p)) (hg : e.registry.group? i = some g) :
    ∃ call : Call, call.limit = some e.requestTimeout ∧
      Passes C e t (some (.choosing ⟨i, g.name, p, (g.member? p).any Proxy.isGroup⟩ call))
        [.choose g.name p] := by
  have hlive := not_aborted_of_proper hp (by rw [hj]; rfl)
  have hstep {τ : Type} (C : Core τ) (e : Engine τ) (hg : e.registry.group? i = some g) :
      stepJob C e t.id t.job = ((e.call C (.choose g.name p) (some e.requestTimeout)).1,
        some (.choosing ⟨i, g.name, p, (g.member? p).any Proxy.isGroup⟩
          (e.call C (.choose g.name p) (some e.requestTimeout)).2)) := by
    rw [hj]
    show afterRequest t.id (startChoice C e i p) = _
    rw [startChoice, hg]
    rfl
  refine ⟨_, rfl, passes_of_step hlive (hstep C (e.without t) hg) (call_quiet C _ _ _) rfl ?_ ?_⟩
  · rw [hj]; rfl
  · rw [hstep C.traced (e.without t).withLog hg]; rfl

def Choosing (e : Engine σ) (id : Nat) (choice : Choice) : Prop :=
  ∀ t ∈ e.tasks, t.id = id → ∃ call, t.job = .choosing choice call

theorem Run.choosing {calls : List (TestCall σ)} (h : Run C e calls e') (hc : Coherent e)
    (hid : n < e.nextTask) (hl : e.Choosing n choice) : e'.Choosing n choice := by
  refine h.within (F := fun job => ∃ call, job = .choosing choice call) ?_ ?_ hc hid hl
  · rintro job ⟨call, rfl⟩
    exact ⟨rfl, rfl⟩
  · rintro e job next ⟨call, rfl⟩ hnext
    have hwait : (stepRequest C e (.choosing choice call)).2 = .wait next := afterRequest_wait hnext
    unfold stepRequest at hwait
    dsimp only at hwait
    split at hwait
    · cases hwait
      exact ⟨_, rfl⟩
    · unfold takeChoice at hwait
      split at hwait <;> cases hwait

theorem requestTest_core (e : Engine σ) (index : Nat) : (e.requestTest index).1.core = e.core := by
  unfold requestTest
  split
  · rfl
  · split
    · rfl
    · dsimp only
      split
      · rfl
      · split <;> rfl

theorem testInBackground_core (e : Engine σ) (group : String) :
    (e.testInBackground group).core = e.core := by
  unfold testInBackground
  split
  · unfold requestBackgroundTest
    dsimp only
    split
    · rfl
    · exact requestTest_core e _
  · rfl

theorem takeChoice_core (e : Engine σ) (choice : Choice) (answer : Answer Bool) :
    (e.takeChoice choice answer).1.core = e.core := by
  unfold takeChoice
  split
  · rfl
  · rfl
  · dsimp only
    split
    · exact testInBackground_core _ _
    · rfl

theorem afterRequest_core (id : Nat) (x : Engine σ × RequestMove) :
    (afterRequest id x).1.core = x.1.core := by
  obtain ⟨e, move⟩ := x
  cases move <;> rfl

theorem choosing_log (C : Core σ) (e : Engine (σ × List Operation)) (id : Nat) (choice : Choice)
    (call : Call) : (stepJob C.traced e id (.choosing choice call)).1.core.2 = e.core.2 := by
  have hlog := hear_log call (C.traced.choose choice.group choice.proxy) (fun _ => rfl) e
  show (afterRequest id (stepRequest C.traced e (.choosing choice call))).1.core.2 = _
  rw [afterRequest_core]
  unfold stepRequest
  dsimp only
  split
  · next he => rw [he] at hlog; exact hlog
  · next he =>
    rw [he] at hlog
    rw [takeChoice_core, note_core]
    exact hlog

theorem hear_aside {α : Type} {answer : σ → σ × Option (Answer α)} {x : Call ⊕ Answer α}
    (h : (e.hear call answer).2 = x) (t : Task) : ∃ e', (e.without t).hear call answer = (e', x) ∧
      Quiet (e.without t) e' ∧ e'.cache = e.cache := by
  have hheard := hear_without call answer e t
  have hquiet := hear_quiet call answer (e.without t)
  have hcache := (hear_untouched call answer (e.without t)).cache
  rw [hheard] at hquiet hcache
  exact ⟨_, hheard.trans (by rw [h]), hquiet, hcache⟩

section

variable (hp : t.Proper) (hj : t.job = .choosing choice call)

include hp hj

theorem choosing_waits {call' : Call}
    (h : (e.hear call (C.choose choice.group choice.proxy)).2 = .inl call') :
    Passes C e t (some (.choosing choice call')) [] := by
  obtain ⟨e', hheard, hquiet, hcache⟩ := hear_aside h t
  refine passes_of_step (not_aborted_of_proper hp (by rw [hj]; rfl)) ?_ hquiet hcache ?_ ?_
  · rw [hj]
    show afterRequest t.id (stepRequest C (e.without t) (.choosing choice call)) = _
    simp only [stepRequest, hheard]
    rfl
  · rw [hj]
    simp only [jobCalls, choiceCalls, hheard]
  · rw [hj]
    exact choosing_log C _ t.id choice call

theorem choosing_refused {answer : Answer Bool}
    (h : (e.hear call (C.choose choice.group choice.proxy)).2 = .inr answer)
    (hno : answer ≠ .ok true) : Passes C e t none [] ∧
      (resume C e t).result? t.id = some (.changed (answer.mapError .call)) := by
  have hlive := not_aborted_of_proper hp (by rw [hj]; rfl)
  obtain ⟨e₁, hheard, hquiet, hcache⟩ := hear_aside h t
  obtain ⟨e', hnoted⟩ : ∃ e', e' = note (.choose choice.group choice.proxy) answer e₁ := ⟨_, rfl⟩
  have htaken : takeChoice e' choice answer = (e', .done (.changed (answer.mapError .call))) := by
    cases answer with
    | error error => rfl
    | ok accepted =>
      cases accepted with
      | false => rfl
      | true => exact absurd rfl hno
  have hstep : stepJob C (e.without t) t.id t.job =
      ({ e' with results := (t.id, .changed (answer.mapError .call)) :: e'.results }, none) := by
    rw [hj]
    show afterRequest t.id (stepRequest C (e.without t) (.choosing choice call)) = _
    simp only [stepRequest, hheard, ← hnoted, htaken]
    rfl
  have huntested : jobCalls C (e.without t) t.job = [] := by
    rw [hj]
    simp only [jobCalls, choiceCalls, hheard]
    cases answer with
    | error error => rfl
    | ok accepted =>
      cases accepted with
      | false => rfl
      | true => exact absurd rfl hno
  have hquiet : Quiet (e.without t) e' := hnoted ▸ hquiet.trans (note_quiet _ answer _)
  have hcache : e'.cache = e.cache := hnoted ▸ (note_cache _ answer _).trans hcache
  refine ⟨passes_of_step hlive hstep ?_ hcache huntested ?_, ?_⟩
  · exact hquiet.trans ⟨rfl, rfl, rfl, rfl, rfl, rfl, rfl, rfl⟩
  · rw [hj]
    exact choosing_log C _ t.id choice call
  · rw [resume_lives C e hlive, hstep, result?, park, List.lookup_cons_self]

end

structure Selected (choice : Choice) (e e' : Engine σ) : Prop where
  names : e'.registry.names = e.registry.names
  sessions : e'.sessions = e.sessions
  cache : e'.cache = e.cache
  others : ∀ j, j ≠ choice.index → e'.board.records[j]? = e.board.records[j]?
  moved : e.registry.names[choice.index]? ≠ some choice.group → e'.registry = e.registry
  stays : e.registry.names[choice.index]? = some choice.group → ∃ x x',
    e.board.records[choice.index]? = some x ∧ x.group.name = choice.group ∧
    e'.board.records[choice.index]? = some x' ∧
    x'.group = { x.group with now := some choice.proxy } ∧ x'.links = x.links ∧
    x'.testing = x.testing

def select (e : Engine σ) (choice : Choice) : Engine σ :=
  e.write (·.setSelection choice.index choice.group choice.proxy)

theorem select_selected (ha : e.registry.Aligned) (choice : Choice) :
    Selected choice e (e.select choice) := by
  let w : Registry.Write := .setSelection choice.index choice.group choice.proxy
  have hwritten : (e.select choice).registry = (w.apply e.registry).1 := rfl
  constructor
  case names => exact w.names_apply e.registry
  case sessions => rfl
  case cache => rfl
  case others =>
    intro j hj
    by_contra hne
    exact hj (Registry.Write.target_of_changed (w := w) hne).1
  case moved =>
    intro hname
    have hnot : e.registry.holds choice.index choice.group = false := by
      simpa [Registry.holds] using hname
    rw [hwritten, Registry.Write.apply_of_not_holds hnot]
  case stays =>
    intro hname
    obtain ⟨x, hx⟩ : ∃ x, e.board.records[choice.index]? = some x := by
      have hin := (ha.mem_iff choice.index).mpr (List.getElem?_eq_some_iff.mp hname).1
      rwa [Std.ExtTreeMap.mem_iff_isSome_getElem?, Option.isSome_iff_exists] at hin
    have hholds : e.registry.holds choice.index choice.group = true := by
      simpa [Registry.holds] using hname
    obtain ⟨x', hx', hkept⟩ := Board.setSelection_record hx choice.proxy
    refine ⟨x, x', hx, Option.some.inj ((ha.name hx).symm.trans hname), ?_, hkept⟩
    rw [board, hwritten, Registry.Write.apply_of_holds hholds]
    exact hx'

theorem Untouched.selected {e₁ : Engine σ} (h : Untouched e e₁) (hs : Selected choice e₁ e') :
    Selected choice e e' := by
  have hboard : e₁.board = e.board := congrArg Registry.board h.registry
  constructor
  case names => rw [hs.names, h.registry]
  case sessions => rw [hs.sessions, h.sessions]
  case cache => rw [hs.cache, h.cache]
  case others => exact fun j hj => by rw [hs.others j hj, hboard]
  case moved => exact fun hname => by rw [hs.moved (h.registry ▸ hname), h.registry]
  case stays => exact fun hname => hboard ▸ hs.stays (h.registry ▸ hname)

theorem requestTest_shows (e : Engine σ) (index j : Nat) :
    (e.requestTest index).1.board.content j = e.board.content j ∧
      (e.requestTest index).1.cache = e.cache := by
  have hopened (e : Engine σ) (session : Nat) (g : Group) :
      (e.openSession index session g).board.content j = e.board.content j :=
    Registry.setTesting_content e.registry index g.name true j
  unfold requestTest
  split
  · exact ⟨rfl, rfl⟩
  · split
    · exact ⟨rfl, rfl⟩
    · dsimp only
      split
      · exact ⟨hopened _ _ _, rfl⟩
      · split
        · exact ⟨rfl, rfl⟩
        · exact ⟨hopened _ _ _, rfl⟩

theorem testInBackground_shows (e : Engine σ) (group : String) (j : Nat) :
    (e.testInBackground group).board.content j = e.board.content j ∧
      (e.testInBackground group).cache = e.cache := by
  unfold testInBackground
  split
  · unfold requestBackgroundTest
    dsimp only
    split
    · exact ⟨rfl, rfl⟩
    · exact requestTest_shows e _ j
  · exact ⟨rfl, rfl⟩

/-- The turn in which an accepted choice is written, and the chosen group is tested if it was one
when it was chosen: at the index that it has now, or by a trigger where it has none. -/
structure Accepted (C : Core σ) (e : Engine σ) (t : Task) (choice : Choice) (e' : Engine σ) :
    Prop where
  selected : Selected choice e e'
  tasks : e'.tasks = (e.without t).tasks
  now : e'.now = e.now
  result : (resume C e t).result? t.id = some (.changed (.ok true))
  asks : e.askedBy C t.id (.resume t) = []
  shown : ∀ j, (resume C e t).board.content j = e'.board.content j
  cache : (resume C e t).cache = e.cache
  follows :
    if choice.leadsOn then
      match e.registry.indexOf? choice.proxy with
      | some j =>
        let test : TestCall σ := ⟨e', j, true⟩
        e.calls C (.resume t) = [test] ∧ Untouched test.after (resume C e t) ∧
          (resume C e t).tasks = test.after.tasks
      | none =>
        e.calls C (.resume t) = [] ∧ Untouched e' (resume C e t) ∧
          (resume C e t).tasks = e'.tasks ++ [{
            id := e.nextTask
            job := .triggering none choice.proxy
              (e'.requestTimeout + e'.config.runtime.probeTimeout) none }] ∧
          TriggersOnce C e.nextTask choice.proxy (resume C e t)
    else
      e.calls C (.resume t) = [] ∧ Untouched e' (resume C e t) ∧ (resume C e t).tasks = e'.tasks

def take (e : Engine σ) (choice : Choice) : Engine σ :=
  if choice.leadsOn then (e.select choice).testInBackground choice.proxy else e.select choice

theorem take_shows (e : Engine σ) (choice : Choice) (j : Nat) :
    (e.take choice).board.content j = (e.select choice).board.content j ∧
      (e.take choice).cache = e.cache := by
  unfold take
  split
  · exact testInBackground_shows (e.select choice) choice.proxy j
  · exact ⟨rfl, rfl⟩

theorem choosing_takes (hp : t.Proper) (hj : t.job = .choosing choice call)
    (h : (e.hear call (C.choose choice.group choice.proxy)).2 = .inr (.ok true)) :
    ∃ e₁, Quiet (e.without t) e₁ ∧ e₁.cache = e.cache ∧
      resume C e t = { e₁.take choice with
        results := (t.id, .changed (.ok true)) :: (e₁.take choice).results } ∧
      e.calls C (.resume t) = if choice.leadsOn then
        ((e₁.select choice).registry.indexOf? choice.proxy).toList.map
          (⟨e₁.select choice, ·, true⟩)
        else [] := by
  have hlive := not_aborted_of_proper hp (by rw [hj]; rfl)
  obtain ⟨e₁, hheard, hquiet, hcache⟩ := hear_aside h t
  refine ⟨e₁, hquiet, hcache, ?_, ?_⟩
  · have hstep : stepJob C (e.without t) t.id t.job =
        afterRequest t.id (stepRequest C (e.without t) (.choosing choice call)) := by rw [hj]; rfl
    rw [resume_lives C e hlive, hstep]
    simp only [stepRequest, hheard]
    rfl
  · rw [calls_lives C e hlive, hj]
    simp only [jobCalls, choiceCalls, hheard]
    rfl

theorem spawns_trigger {results : List (Nat × Result)} (hsound : Sound (resume C e t))
    (hnext : e'.nextTask = e.nextTask) (hturn : resume C e t =
      { e'.spawn (.triggering none group limit none) with results }) :
    Untouched e' (resume C e t) ∧ (resume C e t).tasks =
        e'.tasks ++ [{ id := e.nextTask, job := .triggering none group limit none }] ∧
      TriggersOnce C e.nextTask group (resume C e t) := by
  have hwaits : TriggerWaits e.nextTask group limit (resume C e t) := by
    rw [hturn]
    exact ⟨_, List.mem_append_right _ (List.mem_singleton_self _), hnext, rfl⟩
  have hgiven : e.nextTask < (resume C e t).nextTask := by
    rw [hturn, ← hnext]
    exact Nat.lt_succ_self e'.nextTask
  refine ⟨?_, ?_, triggersOnce hsound hgiven hwaits⟩
  · rw [hturn]
    exact ⟨rfl, rfl, rfl⟩
  · rw [hturn, ← hnext]
    rfl

theorem choosing_accepted (hsound : Sound e) (ht : t ∈ e.tasks)
    (hj : t.job = .choosing choice call)
    (h : (e.hear call (C.choose choice.group choice.proxy)).2 = .inr (.ok true)) :
    ∃ e', Accepted C e t choice e' := by
  have hp := hsound.coherent.proper t ht
  have hlive := not_aborted_of_proper hp (by rw [hj]; rfl)
  obtain ⟨e₁, hquiet, hcache, hturn, hcalls⟩ := choosing_takes hp hj h
  have hheard : Untouched e e₁ := ⟨hquiet.registry, hquiet.sessions, hcache⟩
  have haligned : e₁.registry.Aligned := hheard.registry ▸ hsound.coherent.aligned
  have hselected := hheard.selected (select_selected haligned choice)
  have hindex : (e₁.select choice).registry.indexOf? choice.proxy =
      e.registry.indexOf? choice.proxy := by
    rw [Registry.indexOf?, hselected.names, ← Registry.indexOf?]
  rw [hindex] at hcalls
  refine ⟨e₁.select choice, hselected, hquiet.tasks, hquiet.now, ?_, ?_, fun j => ?_, ?_, ?_⟩
  · rw [hturn, result?, List.lookup_cons_self]
  · rw [askedBy_own C e hlive, hj]
    exact choosing_log C _ t.id choice call
  · rw [hturn]
    exact (take_shows e₁ choice j).1
  · rw [hturn]
    exact (take_shows e₁ choice 0).2.trans hcache
  · split
    · next hleads =>
      rw [if_pos hleads] at hcalls
      cases hplace : e.registry.indexOf? choice.proxy with
      | some j =>
        have htest : e₁.take choice = TestCall.after ⟨e₁.select choice, j, true⟩ := by
          rw [take, if_pos hleads, testInBackground, hindex, hplace]
          rfl
        rw [hplace] at hcalls
        rw [hturn, htest]
        exact ⟨hcalls, ⟨rfl, rfl, rfl⟩, rfl⟩
      | none =>
        have htrigger : e₁.take choice = (e₁.select choice).spawn (.triggering none choice.proxy
            ((e₁.select choice).requestTimeout + (e₁.select choice).config.runtime.probeTimeout)
            none) := by
          rw [take, if_pos hleads, testInBackground, hindex, hplace]
        rw [hplace] at hcalls
        rw [htrigger] at hturn
        exact ⟨hcalls, spawns_trigger (hsound.perform C (a := .resume t) ht) hquiet.nextTask hturn⟩
    · next hleads =>
      rw [if_neg hleads] at hcalls
      rw [hturn, take, if_neg hleads]
      exact ⟨hcalls, ⟨rfl, rfl, rfl⟩, rfl⟩

section

variable {e₀ : Engine σ} {i : Nat} {p : String}

/-- Of an unknown index nothing is asked. Otherwise the core is asked once to choose in the group
that stands at the index then, and whatever happens until it answers, its answer is for that choice.
While there is none, and when it is a failure, a timeout or a refusal, no record, no session and no
delay is touched. A choice that is accepted is written to the record of its index, if that still has
the name of the group, and only the active member changes; and if the member was a group when it was
chosen, a test of it is requested at the index that it has by now, or where it has none, one trigger
goes out. -/
theorem choices_keep_to_their_group (hr : Reachable C e₀) (ht : t ∈ e₀.tasks)
    (hj : t.job = .start (.select i p)) :
    (e₀.registry.group? i = none → Passes C e₀ t none [] ∧
      (resume C e₀ t).result? t.id = some (.changed (.error (.unknownIndex i)))) ∧
    ∀ g, e₀.registry.group? i = some g →
      let choice : Choice := ⟨i, g.name, p, (g.member? p).any Proxy.isGroup⟩
      (∃ call : Call, call.limit = some e₀.requestTimeout ∧
        Passes C e₀ t (some (.choosing choice call)) [.choose g.name p]) ∧
      ∀ e, Reaches C (resume C e₀ t) e → ∀ u ∈ e.tasks, u.id = t.id →
        ∃ call, u.job = .choosing choice call ∧
          match (e.hear call (C.choose g.name p)).2 with
          | .inl call => Passes C e u (some (.choosing choice call)) []
          | .inr (.ok true) => ∃ e', Accepted C e u choice e'
          | .inr answer => Passes C e u none [] ∧
            (resume C e u).result? u.id = some (.changed (answer.mapError .call)) := by
  have hp := hr.coherent.proper t ht
  refine ⟨startChoice_unknown hp hj, fun g hg => ?_⟩
  intro choice
  obtain ⟨call, hlimit, hpasses⟩ := startChoice_asks (C := C) hp hj hg
  refine ⟨⟨call, hlimit, hpasses⟩, fun e hrun u hu hid => ?_⟩
  have hstarted : Reachable C (resume C e₀ t) :=
    hr.reaches (reaches_perform C (a := .resume t) ht)
  have hsound : Sound e := (hstarted.reaches hrun).sound
  have hasked : ({ id := t.id, job := .choosing choice call } : Task) ∈ (resume C e₀ t).tasks := by
    rw [hpasses.tasks]
    exact List.mem_append_right _ (List.mem_singleton_self _)
  have hchoosing : (resume C e₀ t).Choosing t.id choice := fun v hv hvid =>
    ⟨call, congrArg Task.job (hstarted.numbered.mem_eq hasked hv hvid)⟩
  obtain ⟨calls, hrun⟩ := hrun
  obtain ⟨call, hj⟩ := hrun.choosing hstarted.coherent
    (hstarted.numbered.given t.id (List.mem_map.mpr ⟨_, hasked, rfl⟩)) hchoosing u hu hid
  refine ⟨call, hj, ?_⟩
  have hp := hsound.coherent.proper u hu
  split
  · next h => exact choosing_waits hp hj h
  · next h => exact choosing_accepted hsound hu hj h
  · next answer hno h => exact choosing_refused hp hj h hno

end

def slow : Core (List String) :=
  { listing with
    start := fun _ op s =>
      (s, some (match op with | .choose _ _ => 100 | .trigger _ => 30 | _ => 0))
    report := fun group _ s =>
      (s, some (.ok ⟨group, .selector, "", [⟨"sub", .group, "", 0⟩]⟩)) }

def asking : Engine (List String) :=
  ((refreshed slow ["auto", "sub"] {}).request (.select 0 "sub")).1

def askingTask : Task :=
  { id := 1, job := .start (.select 0 "sub") }

def elsewhere : Engine (List String) :=
  let e := { resume slow asking askingTask with core := ["other"] }
  { (await slow e .refresh).1 with now := 100 }

theorem asking_reachable : Reachable slow asking :=
  (refreshed_reachable slow ["auto", "sub"] {}).reaches
    (reaches_perform slow (a := .request (.select 0 "sub")) trivial)

theorem elsewhere_reaches : Reaches slow (resume slow asking askingTask) elsewhere := by
  have hcore := reaches_perform slow (e := resume slow asking askingTask)
    (a := .changeCore ["other"]) trivial
  refine (hcore.trans (await_reaches slow _ .refresh)).trans (wait_reaches slow ?_)
  decide

theorem choices_keep_to_their_group_elsewhere :
    let u : Task := { id := 1, job := .choosing ⟨0, "auto", "sub", true⟩ ⟨0, some 100, some 5000⟩ }
    let run := play slow (askedBy slow 3) 2 (resume slow elsewhere u)
    Untouched elsewhere (resume slow elsewhere u) ∧ elsewhere.registry.names = ["other"] ∧
      run.1 = [(100, .trigger "sub")] ∧ run.2.now = 130 := by
  intro u run
  have ht : askingTask ∈ asking.tasks := List.mem_of_getElem? (i := 0) rfl
  have hu : u ∈ elsewhere.tasks := List.mem_of_getElem? (i := 0) rfl
  obtain ⟨-, hknown⟩ := choices_keep_to_their_group asking_reachable ht rfl
  obtain ⟨-, hlater⟩ := hknown ⟨"auto", [⟨"sub", .group, "", 0⟩], true, none⟩ (by decide)
  obtain ⟨call, hj, hanswer⟩ := hlater elsewhere elsewhere_reaches u hu rfl
  obtain ⟨-, rfl⟩ := Job.choosing.inj hj
  have hyes : (elsewhere.hear ⟨0, some 100, some 5000⟩ (slow.choose "auto" "sub")).2 =
      .inr (.ok true) := rfl
  rw [hyes] at hanswer
  obtain ⟨e', haccepted⟩ := hanswer
  have hmoved : e'.registry = elsewhere.registry := haccepted.selected.moved (by decide)
  have hfollows := haccepted.follows
  rw [if_pos (by decide)] at hfollows
  have hgone : elsewhere.registry.indexOf? "sub" = none := by decide
  rw [hgone] at hfollows
  obtain ⟨-, huntouched, -, honce⟩ := hfollows
  have hwritten : Untouched elsewhere e' :=
    ⟨hmoved, haccepted.selected.sessions, haccepted.selected.cache⟩
  have hrun : Course (Acts slow (askedBy slow 3) Prompt) (resume slow elsewhere u) run.1 run.2 :=
    play_course _ _ 2 _
  have hend : run.2.now = 130 := by decide
  refine ⟨hwritten.trans huntouched, by decide, ?_, hend⟩
  obtain ⟨-, -, hprompt⟩ := honce Prompt run.1 run.2 hrun
  exact hprompt (fun _ _ h => h) (hend ▸ by decide)

end Engine

end ProxyPulse
