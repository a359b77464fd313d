import Mathlib.Data.List.Induction
import ProxyPulse.Config.Load
import ProxyPulse.Proofs.Engine.Coordinators

namespace ProxyPulse

namespace Config

def lastValid (initial : Config) (contents : List (Except ConfigError Config)) : Config :=
  (contents.filterMap Except.toOption).getLast?.getD initial

def Reload.forwarded? : Reload → Option Config
  | .forwarded next => some next
  | _ => none

def changes (last : Config) : List (Except ConfigError Config) → List Config
  | [] => []
  | content :: rest =>
    (reload last content).forwarded?.toList ++ changes ((reload last content).last last) rest

theorem reload_forwarded_iff {last next : Config} {content : Except ConfigError Config} :
    reload last content = .forwarded next ↔ content = .ok next ∧ next ≠ last := by
  cases content with
  | error e => simp [reload]
  | ok c =>
    by_cases hc : c = last
    · simp only [reload, if_pos hc, Except.ok.injEq, reduceCtorEq, false_iff, not_and, not_not]
      rintro rfl
      exact hc
    · simp only [reload, if_neg hc, Reload.forwarded.injEq, Except.ok.injEq]
      constructor
      · rintro rfl
        exact ⟨rfl, hc⟩
      · exact And.left

theorem reload_last (last : Config) (content : Except ConfigError Config) :
    (reload last content).last last = content.toOption.getD last := by
  cases content with
  | error e => rfl
  | ok c =>
    by_cases hc : c = last
    · rw [reload, if_pos hc]
      exact hc.symm
    · rw [reload, if_neg hc]
      rfl

theorem lastValid_cons (initial : Config) (content : Except ConfigError Config)
    (rest : List (Except ConfigError Config)) :
    lastValid initial (content :: rest) = lastValid ((reload initial content).last initial) rest := by
  rw [reload_last]
  unfold lastValid
  cases content with
  | error e => rfl
  | ok c =>
    change (c :: rest.filterMap Except.toOption).getLast?.getD initial = _
    rw [List.getLast?_cons, Option.getD_some]
    rfl

theorem lastValid_concat (initial : Config) (contents : List (Except ConfigError Config))
    (content : Except ConfigError Config) :
    lastValid initial (contents ++ [content]) =
      (reload (lastValid initial contents) content).last (lastValid initial contents) := by
  induction contents generalizing initial with
  | nil => exact lastValid_cons initial content []
  | cons c rest ih =>
    rw [List.cons_append, lastValid_cons, lastValid_cons]
    exact ih _

theorem changes_concat (initial : Config) (contents : List (Except ConfigError Config))
    (content : Except ConfigError Config) :
    changes initial (contents ++ [content]) =
      changes initial contents ++
        (reload (lastValid initial contents) content).forwarded?.toList := by
  induction contents generalizing initial with
  | nil => exact List.append_nil _
  | cons c rest ih =>
    rw [List.cons_append, changes, changes, ih, lastValid_cons, List.append_assoc]

theorem changes_last (initial : Config) (contents : List (Except ConfigError Config)) :
    (changes initial contents).getLast?.getD initial = lastValid initial contents := by
  induction contents using List.reverseRecOn with
  | nil => rfl
  | append_singleton contents content ih =>
    rw [changes_concat, lastValid_concat, ← ih]
    cases reload ((changes initial contents).getLast?.getD initial) content with
    | unchanged | rejected e => exact congrArg (·.getLast?.getD initial) (List.append_nil _)
    | forwarded next => exact congrArg (Option.getD · initial) List.getLast?_concat

end Config

def Action.LeavesFile {σ : Type} (handle : Option Nat) : Action σ → Prop
  | .configure _ | .sendConfig _ _ => False
  | .closeUpdates closed => handle ≠ some closed
  | _ => True

def Coordinator.Holds (handle : Option Nat) (pending : List Config) (id : Nat) (c : Coordinator) :
    Prop :=
  if handle = some id then c.takesUpdates = true ∧ c.updates = pending else c.updates = []

theorem Coordinator.Holds.of_same {handle : Option Nat} {pending : List Config} {id : Nat}
    {c c' : Coordinator} (h : c.Holds handle pending id) (hu : c'.updates = c.updates)
    (ht : c'.takesUpdates = c.takesUpdates) : c'.Holds handle pending id := by
  rw [Holds, hu, ht]
  exact h

theorem Coordinator.Holds.of_other {handle : Option Nat} {pending pending' : List Config} {id : Nat}
    {c : Coordinator} (h : c.Holds handle pending id) (hne : handle ≠ some id) :
    c.Holds handle pending' id := by
  rw [Holds, if_neg hne] at h ⊢
  exact h

structure Watched (σ : Type) where
  engine : Engine σ
  last : Config
  handle : Option Nat := none
  early : List Config := []

namespace Watched

variable {σ : Type}

def forward (w : Watched σ) (next : Config) : Watched σ :=
  match w.handle with
  | none => { w with early := w.early ++ [next] }
  | some handle => { w with engine := (w.engine.sendConfig handle next).1 }

def notice (w : Watched σ) (content : Except ConfigError Config) : Watched σ :=
  match w.last.reload content with
  | .forwarded next => { w with last := next }.forward next
  | _ => w

def attach (w : Watched σ) : Watched σ :=
  let (e, handle) := w.engine.startCoordinator true
  { w with
    engine := w.early.foldl (fun e next => (e.sendConfig handle next).1) e
    handle := handle
    early := [] }

end Watched

/-- Runs of an engine beside a file, with all that was read in the file, the toggles that were made,
and the settings that were taken on. -/
inductive Watching {σ : Type} (C : Core σ) (core : σ) (overrides : Overrides) (initial : Config) :
    List (Except ConfigError Config) → List Bool → List Config → Watched σ → Prop
  | start :
    Watching C core overrides initial [] [] [] ⟨Engine.new core initial overrides, initial, none, []⟩
  | act {contents : List (Except ConfigError Config)} {toggles : List Bool} {taken : List Config}
    {w : Watched σ} {a : Action σ} : Watching C core overrides initial contents toggles taken w →
    w.engine.Allows a → a.LeavesFile w.handle →
    Watching C core overrides initial contents (toggles ++ w.engine.toggles a)
      (taken ++ w.engine.taken a) { w with engine := w.engine.perform C a }
  | notice {contents : List (Except ConfigError Config)} {toggles : List Bool} {taken : List Config}
    {w : Watched σ} (content : Except ConfigError Config) :
    Watching C core overrides initial contents toggles taken w →
    Watching C core overrides initial (contents ++ [content]) toggles taken (w.notice content)
  | attach {contents : List (Except ConfigError Config)} {toggles : List Bool} {taken : List Config}
    {w : Watched σ} : Watching C core overrides initial contents toggles taken w →
    w.handle = none → Watching C core overrides initial contents toggles taken w.attach

namespace Engine

variable {σ : Type} {C : Core σ} {overrides : Overrides} {initial : Config} {e : Engine σ}
  {toggles : List Bool} {taken pending : List Config} {handle : Option Nat}

structure Tracks (overrides : Overrides) (initial : Config) (toggles : List Bool)
    (taken pending : List Config) (handle : Option Nat) (e : Engine σ) : Prop where
  overrides : e.overrides =
    { overrides with sortByDelay := toggles.getLast?.or overrides.sortByDelay }
  config : e.config = e.overrides.apply (taken.getLast?.getD initial)
  known : ∀ id ∈ handle, id < e.nextTask
  waits : ∀ p ∈ e.coordinators, p.2.Holds handle pending p.1

theorem Tracks.toggle (h : Tracks overrides initial toggles taken pending handle e)
    (e' : Engine σ) (on : Bool)
    (hc : e'.config = { e.config with view := { e.config.view with sortByDelay := on } })
    (ho : e'.overrides = { e.overrides with sortByDelay := some on }) :
    e'.overrides = { overrides with
        sortByDelay := (toggles ++ [on]).getLast?.or overrides.sortByDelay } ∧
      e'.config = e'.overrides.apply (taken.getLast?.getD initial) := by
  rw [List.getLast?_concat, Option.some_or, hc, ho, h.config, h.overrides]
  exact ⟨rfl, rfl⟩

theorem told_holds {a : Action σ} (hi : a.Instructs) (hl : a.LeavesFile handle) {id : Nat}
    {c : Coordinator} (h : c.Holds handle pending id) : (e.told a id c).Holds handle pending id := by
  cases a with
  | send sent intent =>
    unfold told
    dsimp only
    split <;> exact h
  | closeUpdates closed =>
    unfold told
    dsimp only
    split
    · next hid =>
      have hne : handle ≠ some id := hid ▸ hl
      rw [Coordinator.Holds, if_neg hne] at h ⊢
      exact h
    · exact h
  | dropHandle dropped =>
    unfold told
    dsimp only
    split <;> exact h
  | shutdown => exact h
  | sendConfig => cases hl
  | _ => cases hi

theorem Coordinates.tracks {t : Task} {c : Coordinator} {x : Engine σ × Option Coordinator}
    (hx : Coordinates (e.without t) c x) (hknown : ∀ id ∈ handle, id < e.nextTask)
    (hov : x.1.overrides =
      { overrides with sortByDelay := toggles.getLast?.or overrides.sortByDelay })
    (hconfig : x.1.config = x.1.overrides.apply (taken.getLast?.getD initial))
    (hothers : ∀ p ∈ (e.without t).coordinators, p.2.Holds handle pending p.1)
    (hleft : ∀ c' ∈ x.2, c'.Holds handle pending t.id) :
    Tracks overrides initial toggles taken pending handle
      (x.1.park t (x.2.map .coordinating)) := by
  obtain ⟨hparked, hovparked, hnext⟩ :
      (x.1.park t (x.2.map .coordinating)).config = x.1.config ∧
      (x.1.park t (x.2.map .coordinating)).overrides = x.1.overrides ∧
      (x.1.park t (x.2.map .coordinating)).nextTask = x.1.nextTask := by
    cases x.2 <;> exact ⟨rfl, rfl, rfl⟩
  refine ⟨hovparked.trans hov, ?_, fun id hid => ?_, fun p hp => ?_⟩
  · rw [hparked, hovparked]
    exact hconfig
  · rw [hnext]
    exact Nat.lt_of_lt_of_le (hknown id hid) hx.staffs.nextTask_le
  · rw [hx.coordinators] at hp
    rcases List.mem_append.mp hp with hp | hp
    · exact hothers p hp
    · obtain ⟨c', hc', rfl⟩ := List.mem_map.mp hp
      exact hleft c' (Option.mem_toList.mp hc')

theorem Tracks.turn {t : Task} {c : Coordinator} {x : Engine σ × Option Coordinator}
    {toggles' : List Bool} {taken' : List Config}
    (h : Tracks overrides initial toggles taken pending handle e)
    (hm : (t.id, c) ∈ e.coordinators) (hx : Coordinates (e.without t) c x)
    (hs : Retunes (e.without t) c x toggles' taken') :
    ∃ pending', pending = taken' ++ pending' ∧ (handle = none → pending' = pending) ∧
      Tracks overrides initial (toggles ++ toggles') (taken ++ taken') pending' handle
        (x.1.park t (x.2.map .coordinating)) := by
  have hown := h.waits _ hm
  have hothers : ∀ p ∈ (e.without t).coordinators, p.2.Holds handle pending p.1 :=
    fun p hp => h.waits p (without_coordinators_subset e t hp)
  cases hs with
  | keep hc ho hk =>
    rw [List.append_nil, List.append_nil]
    refine ⟨pending, rfl, fun _ => rfl, hx.tracks h.known (ho.trans h.overrides) ?_ hothers
      fun c' hc' => hown.of_same (hk c' hc').1 (hk c' hc').2⟩
    rw [hc, ho]
    exact h.config
  | toggle on hc ho hk =>
    obtain ⟨hov, hset⟩ := h.toggle x.1 on hc ho
    rw [List.append_nil]
    exact ⟨pending, rfl, fun _ => rfl, hx.tracks h.known hov hset hothers
      fun c' hc' => hown.of_same (hk c' hc').1 (hk c' hc').2⟩
  | @take next rest hq hc ho hk =>
    -- only where the settings of the file go is there anything to take
    have hhandle : handle = some t.id := by
      by_contra hne
      rw [Coordinator.Holds, if_neg hne, hq] at hown
      cases hown
    rw [Coordinator.Holds, if_pos hhandle, hq] at hown
    obtain ⟨htakes, rfl⟩ := hown
    rw [List.append_nil]
    refine ⟨rest, rfl, ?_, hx.tracks h.known (ho.trans h.overrides) ?_ (fun p hp => ?_)
      fun c' hc' => ?_⟩
    · rw [hhandle]
      exact nofun
    · rw [hc, ho, List.getLast?_concat]
      rfl
    · refine (hothers p hp).of_other fun heq => ?_
      obtain ⟨u, hu, hid, _⟩ := mem_coordinators.mp hp
      have hut : u.id ≠ t.id := by simpa using (List.mem_filter.mp hu).2
      rw [hhandle, ← hid] at heq
      exact hut (Option.some.inj heq).symm
    · obtain ⟨hu, ht⟩ := hk c' hc'
      rw [Coordinator.Holds, if_pos hhandle]
      exact ⟨ht.trans htakes, hu⟩

theorem Tracks.perform (h : Tracks overrides initial toggles taken pending handle e)
    (hc : Coherent e) (hn : Numbered [] e) {a : Action σ} (ha : e.Allows a)
    (hl : a.LeavesFile handle) :
    ∃ pending', pending = e.taken a ++ pending' ∧ (handle = none → pending' = pending) ∧
      Tracks overrides initial (toggles ++ e.toggles a) (taken ++ e.taken a) pending' handle
        (e.perform C a) := by
  have hknown : ∀ id ∈ handle, id < (e.perform C a).nextTask :=
    fun id hid => Nat.lt_of_lt_of_le (h.known id hid) (perform_nextTask C hc ha)
  cases perform_bears C hc hn ha with
  | told hi he =>
    have hnone : e.toggles a = [] ∧ e.taken a = [] := by
      cases a with
      | send | sendConfig | closeUpdates | dropHandle | shutdown => exact ⟨rfl, rfl⟩
      | _ => cases hi
    rw [hnone.1, hnone.2, List.append_nil, List.append_nil]
    refine ⟨pending, rfl, fun _ => rfl, he ▸ h.overrides, he ▸ h.config, hknown, fun p hp => ?_⟩
    rw [he, instruct_coordinators] at hp
    obtain ⟨q, hq, rfl⟩ := List.mem_map.mp hp
    exact told_holds hi hl (h.waits q hq)
  | started takesUpdates he =>
    subst he
    have hnone : e.toggles (.startCoordinator takesUpdates) = [] ∧
        e.taken (.startCoordinator takesUpdates) = [] := ⟨rfl, rfl⟩
    rw [hnone.1, hnone.2, List.append_nil, List.append_nil]
    refine ⟨pending, rfl, fun _ => rfl, h.overrides, h.config, hknown, fun p hp => ?_⟩
    change p ∈ (e.startCoordinator takesUpdates).1.coordinators at hp
    rw [startCoordinator_coordinators] at hp
    rcases List.mem_append.mp hp with hp | hp
    · exact h.waits p hp
    · have hne : handle ≠ some e.nextTask := fun heq => Nat.lt_irrefl _ (h.known _ heq)
      rw [List.mem_singleton.mp hp, Coordinator.Holds, if_neg hne]
  | turn ht hj hx hs he =>
    rw [he]
    exact h.turn (mem_coordinators.mpr ⟨_, ht, rfl, hj⟩) hx hs
  | aside hcs hset =>
    by_cases hs : a.Sets
    · cases a with
      | sortByDelay on =>
        obtain ⟨hov, hconfig⟩ := h.toggle (e.setSortByDelay on) on
          (setSortByDelay_config e on) rfl
        have htaken : e.taken (.sortByDelay on) = [] := rfl
        rw [htaken, List.append_nil]
        exact ⟨pending, rfl, fun _ => rfl, hov, hconfig, hknown, fun p hp => h.waits p (hcs ▸ hp)⟩
      | configure next => cases hl
      | _ => cases hs
    · obtain ⟨hconfig, hov, htoggles, htaken⟩ := hset hs
      rw [htoggles, htaken, List.append_nil, List.append_nil]
      refine ⟨pending, rfl, fun _ => rfl, hov ▸ h.overrides, ?_, hknown, fun p hp => ?_⟩
      · rw [hconfig, hov]
        exact h.config
      · exact h.waits p (hcs ▸ hp)

theorem Tracks.send (C : Core σ) {id : Nat}
    (h : Tracks overrides initial toggles taken pending (some id) e) (hn : Numbered [] e)
    (next : Config) :
    Tracks overrides initial toggles taken (pending ++ [next]) (some id)
      (e.sendConfig id next).1 := by
  have he : (e.sendConfig id next).1 = e.instruct (e.told (.sendConfig id next)) :=
    perform_instructs C e (a := .sendConfig id next) trivial
  rw [he]
  refine ⟨h.overrides, h.config, h.known, fun p hp => ?_⟩
  rw [instruct_coordinators] at hp
  obtain ⟨⟨id', c⟩, hq, rfl⟩ := List.mem_map.mp hp
  have hw := h.waits _ hq
  dsimp only [told] at hw ⊢
  by_cases hid : id' = id
  · subst hid
    rw [Coordinator.Holds, if_pos rfl] at hw
    have htakes : (e.coordinator? id').any Coordinator.takesUpdates = true := by
      rw [hn.coordinator?_iff.mpr hq]
      exact hw.1
    rw [if_pos ⟨rfl, htakes⟩, Coordinator.Holds, if_pos rfl, hw.2]
    exact ⟨hw.1, rfl⟩
  · have hne : (some id : Option Nat) ≠ some id' := fun heq => hid (Option.some.inj heq).symm
    rw [if_neg fun hand => hid hand.1]
    exact hw.of_other hne

theorem Tracks.unattached (h : Tracks overrides initial toggles taken pending none e)
    (pending' : List Config) : Tracks overrides initial toggles taken pending' none e :=
  ⟨h.overrides, h.config, h.known, h.waits⟩

theorem Tracks.attach (h : Tracks overrides initial toggles taken pending none e)
    (hn : Numbered [] e) :
    Tracks overrides initial toggles taken [] (some e.nextTask) (e.startCoordinator true).1 := by
  refine ⟨h.overrides, h.config, ?_, fun p hp => ?_⟩
  · rintro _ ⟨⟩
    exact Nat.lt_succ_self e.nextTask
  · rw [startCoordinator_coordinators] at hp
    rcases List.mem_append.mp hp with hp | hp
    · have hw := h.waits p hp
      obtain ⟨t, ht, hid, _⟩ := mem_coordinators.mp hp
      have hlt : t.id < e.nextTask := hn.given _ (List.mem_map_of_mem ht)
      have hne : (some e.nextTask : Option Nat) ≠ some p.1 := fun heq =>
        Nat.ne_of_lt (hid ▸ hlt) (Option.some.inj heq).symm
      rw [Coordinator.Holds, if_neg (Option.some_ne_none _).symm] at hw
      rw [Coordinator.Holds, if_neg hne]
      exact hw
    · rw [List.mem_singleton.mp hp, Coordinator.Holds, if_pos rfl]
      exact ⟨rfl, rfl⟩

theorem new_tracks (core : σ) (config : Config) (overrides : Overrides) :
    Tracks overrides config [] [] [] none (Engine.new core config overrides) :=
  ⟨rfl, rfl, nofun, nofun⟩

end Engine

section

open Engine

variable {σ : Type} {C : Core σ} {core : σ} {overrides : Overrides} {initial : Config}
  {contents : List (Except ConfigError Config)} {toggles : List Bool} {taken : List Config}
  {w : Watched σ}

theorem Watched.forward_run {next : Config} {e : Engine σ} {calls : List (TestCall σ)}
    (h : Run C e calls w.engine) : ∃ calls, Run C e calls (w.forward next).engine := by
  unfold forward
  split
  · exact ⟨_, h⟩
  · next handle hh => exact ⟨_, h.step (a := .sendConfig handle next) trivial⟩

theorem sendAll_run {e e' : Engine σ} {calls : List (TestCall σ)} (h : Run C e calls e')
    (handle : Nat) (updates : List Config) :
    ∃ calls, Run C e calls (updates.foldl (fun e next => (e.sendConfig handle next).1) e') := by
  induction updates generalizing e' calls with
  | nil => exact ⟨_, h⟩
  | cons next rest ih => exact ih (h.step (a := .sendConfig handle next) trivial)

theorem Watching.run (h : Watching C core overrides initial contents toggles taken w) :
    ∃ calls, Run C (Engine.new core initial overrides) calls w.engine := by
  induction h with
  | start => exact ⟨[], .refl⟩
  | act _ ha _ ih =>
    obtain ⟨calls, hr⟩ := ih
    exact ⟨_, hr.step ha⟩
  | @notice contents toggles taken w content _ ih =>
    obtain ⟨calls, hr⟩ := ih
    unfold Watched.notice
    split
    · exact Watched.forward_run hr
    · exact ⟨_, hr⟩
  | attach _ _ ih =>
    obtain ⟨calls, hr⟩ := ih
    exact sendAll_run (hr.step (a := .startCoordinator true) trivial) _ _

theorem Watching.coherent (h : Watching C core overrides initial contents toggles taken w) :
    Coherent w.engine ∧ Numbered [] w.engine ∧ Ticking w.engine := by
  obtain ⟨calls, hr⟩ := h.run
  have hc := new_coherent core initial overrides
  have hn := new_numbered core initial overrides
  exact ⟨hr.coherent hc, hr.numbered hc hn, hr.ticking hc hn nofun⟩

theorem sendAll_tracks (C : Core σ) {e : Engine σ} {calls : List (TestCall σ)} {id : Nat}
    {pending : List Config} (hr : Run C (Engine.new core initial overrides) calls e)
    (h : Tracks overrides initial toggles taken pending (some id) e) (updates : List Config) :
    Tracks overrides initial toggles taken (pending ++ updates) (some id)
      (updates.foldl (fun e next => (e.sendConfig id next).1) e) := by
  induction updates generalizing e calls pending with
  | nil =>
    rw [List.append_nil]
    exact h
  | cons next rest ih =>
    have hn := hr.numbered (new_coherent core initial overrides)
      (new_numbered core initial overrides)
    rw [List.append_cons]
    exact ih (hr.step (a := .sendConfig id next) trivial) (h.send C hn next)

theorem Watching.tracks (h : Watching C core overrides initial contents toggles taken w) :
    w.last = initial.lastValid contents ∧
    ∃ pending, taken ++ pending = initial.changes contents ∧
      (w.handle = none → w.early = pending) ∧
      Tracks overrides initial toggles taken pending w.handle w.engine := by
  induction h with
  | start => exact ⟨rfl, [], rfl, fun _ => rfl, new_tracks core initial overrides⟩
  | @act contents toggles taken w a h ha hl ih =>
    obtain ⟨hlast, pending, hforward, hearly, ht⟩ := ih
    obtain ⟨hc, hn, _⟩ := h.coherent
    obtain ⟨pending', hsplit, hnone, ht'⟩ := ht.perform (C := C) hc hn ha hl
    refine ⟨hlast, pending', ?_, fun hh => (hearly hh).trans (hnone hh).symm, ht'⟩
    rw [List.append_assoc, ← hsplit]
    exact hforward
  | @notice contents toggles taken w content h ih =>
    obtain ⟨hlast, pending, hforward, hearly, ht⟩ := ih
    obtain ⟨_, hn, _⟩ := h.coherent
    rw [Config.lastValid_concat, Config.changes_concat, ← hlast, ← hforward]
    unfold Watched.notice Watched.forward
    cases hr : w.last.reload content with
    | unchanged | rejected e => exact ⟨rfl, pending, (List.append_nil _).symm, hearly, ht⟩
    | forwarded next =>
      refine ⟨?_, pending ++ [next], (List.append_assoc _ _ _).symm, ?_⟩
      · cases w.handle <;> rfl
      · cases hh : w.handle with
        | none =>
          rw [hh] at ht
          exact ⟨fun _ => congrArg (· ++ [next]) (hearly hh), ht.unattached _⟩
        | some id =>
          rw [hh] at ht
          exact ⟨nofun, ht.send C hn next⟩
  | @attach contents toggles taken w h hh ih =>
    obtain ⟨hlast, pending, hforward, hearly, ht⟩ := ih
    obtain ⟨_, hn, _⟩ := h.coherent
    obtain ⟨calls, hr⟩ := h.run
    rw [hh] at ht
    have hsent := sendAll_tracks C (hr.step (a := .startCoordinator true) trivial)
      (ht.attach hn) w.early
    exact ⟨hlast, pending, hforward, nofun, hearly hh ▸ hsent⟩

theorem Watching.turn (h : Watching C core overrides initial contents toggles taken w)
    (id fuel : Nat) : ∃ toggles' taken',
      Watching C core overrides initial contents (toggles ++ toggles') (taken ++ taken')
        { w with engine := Engine.turn C id fuel w.engine } := by
  refine turn_keeps C (Q := fun e => ∃ toggles' taken',
    Watching C core overrides initial contents (toggles ++ toggles') (taken ++ taken')
      { w with engine := e }) ?_ id fuel
    ⟨[], [], by rw [List.append_nil, List.append_nil]; exact h⟩
  rintro e t ht ⟨toggles', taken', h⟩
  have hlater := h.act (a := .resume t) ht trivial
  rw [List.append_assoc, List.append_assoc] at hlater
  exact ⟨_, _, hlater⟩

theorem Watching.taken_all (h : Watching C core overrides initial contents toggles taken w)
    {id : Nat} {c : Coordinator} (hh : w.handle = some id) (hm : (id, c) ∈ w.engine.coordinators)
    (hu : c.updates = []) : taken = initial.changes contents := by
  obtain ⟨_, pending, hforward, _, ht⟩ := h.tracks
  have hw := ht.waits _ hm
  rw [Coordinator.Holds, if_pos hh, hu] at hw
  rw [← hforward, ← hw.2, List.append_nil]

/-- While a file is watched, what is forwarded of it is what is valid and differs from what was valid
last. It is taken on in that order, as it comes from the file, and once all of it is, the settings
in use are those that were valid last, but for the flags and the last toggle of the delay order. The
coordinator that takes them on comes to that point whenever it is let go on. -/
theorem file_flags_and_toggle_decide
    (h : Watching C core overrides initial contents toggles taken w) :
    (∀ content next, w.last.reload content = .forwarded next ↔
      content = .ok next ∧ next ≠ initial.lastValid contents) ∧
    taken <+: initial.changes contents ∧
    (taken = initial.changes contents →
      let file := initial.lastValid contents
      w.engine.config = { file with
        runtime := { file.runtime with
          controllerUrl := overrides.controllerUrl.getD file.runtime.controllerUrl
          secret := overrides.secret.or file.runtime.secret }
        view := { file.view with
          sortByDelay := (toggles.getLast?.or overrides.sortByDelay).getD
            file.view.sortByDelay } }) ∧
    (w.handle = none → w.early = [] → taken = initial.changes contents) ∧
    ∀ id c, w.handle = some id → (id, c) ∈ w.engine.coordinators →
      (c.updates = [] → taken = initial.changes contents) ∧
      ∃ fuel toggles' taken',
        Watching C core overrides initial contents (toggles ++ toggles') (taken ++ taken')
          { w with engine := turn C id fuel w.engine } ∧
        ∀ c', (id, c') ∈ (turn C id fuel w.engine).coordinators →
          c'.updates = [] ∧ c'.intents = [] := by
  obtain ⟨hlast, pending, hforward, hearly, ht⟩ := h.tracks
  obtain ⟨hc, hn, hticks⟩ := h.coherent
  refine ⟨fun content next => ?_, ⟨pending, hforward⟩, fun hall => ?_, fun hh he => ?_,
    fun id c hh hm => ⟨h.taken_all hh hm, ?_⟩⟩
  · rw [hlast]
    exact Config.reload_forwarded_iff
  · have hconfig := ht.config
    rw [ht.overrides, hall, Config.changes_last] at hconfig
    exact hconfig
  · rw [← hforward, ← hearly hh, he, List.append_nil]
  · obtain ⟨fuel, hquiet⟩ := coordinator_settles C hc hn hticks hm
    obtain ⟨toggles', taken', hlater⟩ := h.turn id fuel
    obtain ⟨hc', _, _⟩ := hlater.coherent
    refine ⟨fuel, toggles', taken', hlater, fun c' hm' => ?_⟩
    obtain ⟨t, htask, hid, hj⟩ := mem_coordinators.mp hm'
    have ha : t.isAborted = false := not_aborted_of_proper (hc'.proper t htask) (by rw [hj]; rfl)
    have hr := hquiet t htask hid
    rw [isReady_coordinating hj ha] at hr
    exact nothing_waits hr

def editedFile : Config :=
  { view := { sortByDelay := true }, cache := { ttlSecs := 5 } }

def taker (ticker : Option Ticker) (intents : List Intent) : Task :=
  { id := 0, job := .coordinating { ticker, intents, takesUpdates := true, updates := [editedFile] } }

def edited : Watched Unit :=
  let C := Core.single 0
  let w : Watched Unit := ⟨Engine.new () {} { secret := "flag" }, {}, none, []⟩
  let w := ((w.notice (.ok editedFile)).attach).notice (.error .parse)
  let e := w.engine.perform C (.send 0 (.sortByDelay false))
  let e := e.perform C (.resume (taker none [.sortByDelay false]))
  let e := e.perform C (.resume (taker (some ⟨0, 5000⟩) [.sortByDelay false]))
  let c := { ticker := some ⟨0, 5000⟩, takesUpdates := true, updates := [editedFile] }
  { w with engine := e.perform C (.turnTo (taker (some ⟨0, 5000⟩) []) c .update) }

theorem edited_watching : Watching (Core.single 0) () { secret := "flag" } {}
    [.ok editedFile, .error .parse] [false] [editedFile] edited := by
  have h : Watching (Core.single 0) () { secret := "flag" } {} [] [] [] _ := .start
  have h := ((h.notice (.ok editedFile)).attach rfl).notice (.error .parse)
  have h := h.act (a := .send 0 (.sortByDelay false)) trivial trivial
  have h := h.act (a := .resume (taker none [.sortByDelay false]))
    (List.mem_of_getElem? (i := 0) rfl) trivial
  have h := h.act (a := .resume (taker (some ⟨0, 5000⟩) [.sortByDelay false]))
    (List.mem_of_getElem? (i := 0) rfl) trivial
  exact h.act (a := .turnTo (taker (some ⟨0, 5000⟩) []) _ .update)
    ⟨List.mem_of_getElem? (i := 0) rfl, rfl, rfl, rfl⟩ trivial

theorem file_flags_and_toggle_decide_edited :
    edited.engine.config =
      { editedFile with runtime := { secret := "flag" }, view := { sortByDelay := false } } := by
  obtain ⟨_, _, hall, _, _⟩ := file_flags_and_toggle_decide edited_watching
  exact hall (by decide +kernel)

end

end ProxyPulse
