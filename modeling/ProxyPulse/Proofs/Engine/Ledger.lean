import Mathlib.Data.List.Count
import ProxyPulse.Proofs.Engine.Ownership
import ProxyPulse.Proofs.Measurement

namespace ProxyPulse

def TestRequest.started? : TestRequest → Option Nat
  | .started session => some session
  | _ => none

namespace Engine

variable {σ : Type} {e e' e'' : Engine σ} {started started' : List Nat}

def running (e : Engine σ) : List Nat :=
  e.sessions.toList.map fun (_, s) => s.id

def ends (e : Engine σ) : List Measurement :=
  e.measurements.filter Measurement.isEnd

def level? (e : Engine σ) : Option Nat :=
  e.measurements.findSome? Measurement.active?

def startedBy (calls : List (TestCall σ)) : List Nat :=
  calls.filterMap fun c => c.answer.started?

structure Accounts (started : List Nat) (e e' : Engine σ) : Prop where
  ends : ∃ ended : List (Nat × SessionOutcome),
    e'.ends = ended.map (fun x => .sessionEnded x.2) ++ e.ends ∧
      (ended.map Prod.fst ++ e'.running).Perm (started ++ e.running)
  level : started = [] ∧ e'.sessions = e.sessions ∧ e'.level? = e.level? ∨
    started ++ e.running ≠ [] ∧ e'.level? = some e'.sessions.size

theorem ends_eq (e : Engine σ) : e.ends = e.books.filter Measurement.isEnd := by
  rw [ends, books, List.filter_filter]
  refine List.filter_congr fun m _ => ?_
  cases m <;> rfl

theorem level_eq (e : Engine σ) : e.level? = e.books.findSome? Measurement.active? := by
  rw [level?, books, ← List.head?_filterMap, ← List.head?_filterMap, List.filterMap_filter]
  congr 1
  refine List.filterMap_congr fun m _ => ?_
  cases m <;> rfl

theorem toList_nodup (sessions : Std.ExtTreeMap Nat Session) : sessions.toList.Nodup := by
  refine sessions.distinct_keys_toList.imp fun hne he => hne ?_
  rw [he]
  exact Std.ReflCmp.compare_self

theorem erase_perm {sessions : Std.ExtTreeMap Nat Session} {index : Nat} {s : Session}
    (h : sessions[index]? = some s) :
    ((index, s) :: (sessions.erase index).toList).Perm sessions.toList := by
  refine (List.perm_ext_iff_of_nodup ?_ (toList_nodup _)).mpr fun (i, x) => ?_
  · refine List.nodup_cons.mpr ⟨fun hm => ?_, toList_nodup _⟩
    exact (entry_erase (Std.ExtTreeMap.mem_toList_iff_getElem?_eq_some.mp hm)).1 rfl
  · rw [List.mem_cons, Std.ExtTreeMap.mem_toList_iff_getElem?_eq_some,
      Std.ExtTreeMap.mem_toList_iff_getElem?_eq_some]
    constructor
    · rintro (he | hx)
      · cases he
        exact h
      · exact (entry_erase hx).2
    · intro hx
      by_cases hi : i = index
      · subst hi
        exact .inl (congrArg _ (Option.some.inj (hx.symm.trans h)))
      · right
        simpa [Std.ExtTreeMap.getElem?_erase, Ne.symm hi] using hx

theorem insert_perm (sessions : Std.ExtTreeMap Nat Session) (index : Nat) (s : Session) :
    (sessions.insert index s).toList.Perm ((index, s) :: (sessions.erase index).toList) := by
  have hs : (sessions.insert index s)[index]? = some s := Std.ExtTreeMap.getElem?_insert_self
  have he : (sessions.insert index s).erase index = sessions.erase index := by
    refine Std.ExtTreeMap.ext_getElem? fun i => ?_
    simp only [Std.ExtTreeMap.getElem?_insert, Std.ExtTreeMap.getElem?_erase]
    split <;> rfl
  exact he ▸ (erase_perm hs).symm

theorem erase_of_none {sessions : Std.ExtTreeMap Nat Session} {index : Nat}
    (h : sessions[index]? = none) : sessions.erase index = sessions := by
  refine Std.ExtTreeMap.ext_getElem? fun i => ?_
  rw [Std.ExtTreeMap.getElem?_erase]
  split
  · next hi => rw [← Std.compare_eq_iff_eq.mp hi, h]
  · rfl

theorem Accounts.of_same (hs : e'.sessions = e.sessions) (hb : e'.books = e.books) :
    Accounts [] e e' := by
  refine ⟨⟨[], ?_, ?_⟩, .inl ⟨rfl, hs, ?_⟩⟩
  · rw [ends_eq, ends_eq, hb]
    rfl
  · rw [running, running, hs]
    exact .refl _
  · rw [level_eq, level_eq, hb]

theorem Accounts.trans (h : Accounts started e e') (h' : Accounts started' e' e'') :
    Accounts (started ++ started') e e'' := by
  obtain ⟨ended, hends, hperm⟩ := h.ends
  obtain ⟨ended', hends', hperm'⟩ := h'.ends
  refine ⟨⟨ended' ++ ended, ?_, ?_⟩, ?_⟩
  · rw [hends', hends, List.map_append, List.append_assoc]
  · rw [List.map_append, List.append_assoc, List.append_assoc]
    have hlater := (hperm'.append_left (ended.map Prod.fst)).trans (List.perm_append_comm_assoc ..)
    have hsooner := (hperm.append_left started').trans (List.perm_append_comm_assoc ..)
    exact (List.perm_append_comm_assoc ..).trans (hlater.trans hsooner)
  · rcases h'.level with ⟨rfl, hs', hl'⟩ | ⟨hne', hl'⟩
    · rw [List.append_nil, hs', hl']
      rcases h.level with ⟨rfl, hs, hl⟩ | ⟨hne, hl⟩
      · exact .inl ⟨rfl, hs, hl⟩
      · exact .inr ⟨hne, hl⟩
    · -- where nothing ran and nothing was started, nothing runs in between
      refine .inr ⟨fun hnil => hne' ?_, hl'⟩
      rw [List.append_assoc, List.append_eq_nil_iff, List.append_eq_nil_iff] at hnil
      obtain ⟨hstarted, hstarted', hrunning⟩ := hnil
      rw [hstarted, hrunning] at hperm
      rw [hstarted', (List.append_eq_nil_iff.mp hperm.eq_nil).2]
      rfl

theorem closeSession_accounts {index : Nat} {s : Session} (outcome : SessionOutcome)
    (hs : e.sessions[index]? = some s) : Accounts [] e (e.closeSession index s outcome) := by
  have hbooks : (e.closeSession index s outcome).books =
      .activeSessions (e.sessions.erase index).size :: .sessionEnded outcome :: e.books := rfl
  have hperm := (erase_perm hs).map fun (x : Nat × Session) => x.2.id
  refine ⟨⟨[(s.id, outcome)], ?_, hperm⟩, .inr ⟨fun hnil => ?_, ?_⟩⟩
  · rw [ends_eq, ends_eq, hbooks]
    rfl
  · -- one that is closed has run, so there was something to measure
    have hnil : e.running = [] := hnil
    rw [running] at hnil
    rw [hnil] at hperm
    exact absurd hperm.eq_nil (List.cons_ne_nil _ _)
  · rw [level_eq, hbooks]
    rfl

theorem Move.accounts {m : Option Mark} (hm : Move m e e') (hask : m ≠ some .ask) :
    Accounts [] e e' := by
  cases hm with
  | quiet hq => exact .of_same hq.sessions hq.books
  | close outcome hs hu => exact closeSession_accounts outcome hs
  | count | yield | «open» => exact absurd rfl hask
  | _ => exact .of_same rfl rfl

theorem Moves.accounts (h : Moves (· ≠ .ask) e e') : Accounts [] e e' := by
  induction h with
  | refl => exact .of_same rfl rfl
  | tail _ hm ih =>
    obtain ⟨m, hP, hm⟩ := hm
    exact ih.trans (hm.accounts fun hask => hP _ hask rfl)

theorem testCall_accounts (c : TestCall σ) :
    Accounts c.answer.started?.toList c.engine c.after := by
  have h := testCall_asked c
  generalize c.after = e at h ⊢
  generalize c.answer = answer at h ⊢
  cases h with
  | skipped | unknown | empty | coalesced => exact .of_same rfl rfl
  | started hg hy hins hnext hbooks =>
    have hnew : e.running.Perm (c.engine.nextSession ::
        (c.engine.sessions.erase c.index).toList.map fun (_, s) => s.id) := by
      rw [running, hins]
      exact (insert_perm _ _ _).map _
    refine ⟨?_, .inr ⟨List.cons_ne_nil _ _, by rw [level_eq, hbooks]; rfl⟩⟩
    cases hs : c.engine.sessions[c.index]? with
    | none =>
      refine ⟨[], by rw [ends_eq, ends_eq, hbooks, hs]; rfl, ?_⟩
      rw [erase_of_none hs] at hnew
      exact hnew
    | some s =>
      -- the one that gives way has its end in the same step
      refine ⟨[(s.id, .stopped)], by rw [ends_eq, ends_eq, hbooks, hs]; rfl, ?_⟩
      have hold := (erase_perm hs).map fun (x : Nat × Session) => x.2.id
      exact ((hnew.cons _).trans (.swap _ _ _)).trans (hold.cons _)

theorem Via.accounts {calls : List (TestCall σ)} (h : Via e calls e') :
    Accounts (startedBy calls) e e' := by
  cases h with
  | silent hm => exact hm.accounts
  | ask c hm hm' =>
    have h := (hm.accounts.trans (testCall_accounts c)).trans hm'.accounts
    have hc : startedBy [c] = c.answer.started?.toList := by
      rw [startedBy, List.filterMap_cons]
      cases c.answer.started? <;> rfl
    rw [hc]
    simpa using h

theorem Run.accounts {C : Core σ} {calls : List (TestCall σ)} (h : Run C e calls e')
    (hc : Coherent e) : Accounts (startedBy calls) e e' := by
  induction h with
  | refl => exact .of_same rfl rfl
  | step hr ha ih =>
    rw [startedBy, List.filterMap_append]
    exact ih.trans (perform_via C (hr.coherent hc) ha).accounts

theorem started_iff {answer : TestRequest} {s : Nat} :
    answer.started? = some s ↔ answer = .started s := by
  cases answer <;> simp [TestRequest.started?]

theorem startedBy_nodup {calls : List (TestCall σ)} (h : History calls e) :
    (startedBy calls).Nodup := by
  refine List.pairwise_filterMap.mpr (h.fresh.imp fun hcd s hs t ht he => ?_)
  exact hcd s (started_iff.mp hs) (he ▸ started_iff.mp ht)

theorem length_running (e : Engine σ) : e.running.length = e.sessions.size := by
  rw [running, List.length_map, Std.ExtTreeMap.length_toList]

theorem mem_running {s : Nat} : s ∈ e.running ↔ ¬ e.Gone s := by
  simp only [running, Gone, List.mem_map, Prod.exists, Std.ExtTreeMap.mem_toList_iff_getElem?_eq_some]
  grind

def counter (e : Engine σ) (outcome : SessionOutcome) : Nat :=
  (Metrics.ofLog e.measurements).count (Measurement.sessionEnded outcome).series

theorem counter_eq (e : Engine σ) (outcome : SessionOutcome) :
    e.counter outcome = e.ends.count (.sessionEnded outcome) := by
  rw [counter, Metrics.count_sessionEnded, ends, List.count_filter rfl]

theorem counter_of_ends {ended : List (Nat × SessionOutcome)}
    (h : e'.ends = ended.map (fun x => .sessionEnded x.2) ++ e.ends) (outcome : SessionOutcome) :
    e'.counter outcome = (ended.map Prod.snd).count outcome + e.counter outcome := by
  have hmap : ended.map (fun x => Measurement.sessionEnded x.2) =
      (ended.map Prod.snd).map Measurement.sessionEnded := by
    rw [List.map_map]
    rfl
  rw [counter_eq, counter_eq, h, List.count_append, hmap, List.count_map_of_injective]
  exact fun _ _ => Measurement.sessionEnded.inj

theorem sum_counter (e : Engine σ) :
    (SessionOutcome.all.map e.counter).sum = e.ends.length := by
  rw [ends, ← List.countP_eq_length_filter]
  exact Metrics.sum_sessionEnded e.measurements

theorem counter_of_mute (h : Mute e e') (outcome : SessionOutcome) :
    e'.counter outcome = e.counter outcome := by
  rw [counter_eq, counter_eq, ends_eq, ends_eq, h.books]

theorem level_shown (e : Engine σ) :
    (Metrics.ofLog e.measurements)["engine_active_test_sessions"]? = e.level?.map .level :=
  Metrics.getElem?_ofLog_active 0 e.measurements

/-- Each session that was started runs still or was counted once, under one outcome: so the counters
of all outcomes and the sessions that run come to the number of sessions that were started. What is
left of a session that is over counts nothing more, and the level of sessions shows how many run, once
the first was started. -/
theorem sessions_add_up {C : Core σ} {core : σ} {config : Config} {overrides : Overrides}
    {calls : List (TestCall σ)} (h : Run C (Engine.new core config overrides) calls e) :
    (startedBy calls).length = e.sessions.size + (SessionOutcome.all.map e.counter).sum ∧
    (startedBy calls).Nodup ∧
    (∃ ended : List (Nat × SessionOutcome),
      (∀ o, e.counter o = (ended.map Prod.snd).count o) ∧
      (ended.map Prod.fst ++ e.running).Perm (startedBy calls)) ∧
    (∀ later e', Run C e later e' → ∃ ended : List (Nat × SessionOutcome),
      (∀ o, e'.counter o = (ended.map Prod.snd).count o + e.counter o) ∧
      (ended.map Prod.fst ++ e'.running).Perm (startedBy later ++ e.running)) ∧
    (∀ s ∈ startedBy calls, s ∉ e.running → ∀ later e', Run C e later e' → s ∉ e'.running ∧
      ∀ t ∈ e'.tasks, t.job.owner? = some s →
        (resume C e' t).sessions = e'.sessions ∧ ∀ o, (resume C e' t).counter o = e'.counter o) ∧
    (Metrics.ofLog e.measurements)["engine_active_test_sessions"]? =
      if startedBy calls = [] then none else some (.level e.sessions.size) := by
  have hcoh := h.coherent (new_coherent core config overrides)
  have haccounts := h.accounts (new_coherent core config overrides)
  obtain ⟨ended, hends, hperm⟩ := haccounts.ends
  -- nothing runs in a new engine, so what was started is all there is to account for
  rw [show (Engine.new core config overrides).running = [] from rfl, List.append_nil] at hperm
  refine ⟨?_, startedBy_nodup h.history, ⟨ended, fun o => ?_, hperm⟩, fun later e' hr => ?_, ?_, ?_⟩
  · rw [sum_counter, hends, ← length_running, ← hperm.length_eq, List.length_append,
      List.length_append, List.length_map, List.length_map, Nat.add_comm]
    rfl
  · rw [counter_of_ends hends]
    exact congrArg _ (counter_eq _ o)
  · obtain ⟨ended, hends, hperm⟩ := (hr.accounts hcoh).ends
    exact ⟨ended, counter_of_ends hends, hperm⟩
  · intro s hs hover later e' hr
    obtain ⟨c, hc, hstarted⟩ := List.mem_filterMap.mp hs
    have hused := h.history.used c hc s (started_iff.mp hstarted)
    have hgone := hr.gone hcoh hused (not_not.mp fun hn => hover (mem_running.mpr hn))
    refine ⟨fun hm => mem_running.mp hm hgone, fun t ht ho => ?_⟩
    have hmute := resume_gone C (hr.coherent hcoh) hgone ht ho
    exact ⟨hmute.sessions, counter_of_mute hmute⟩
  · rw [level_shown]
    rcases haccounts.level with ⟨hnil, _, hl⟩ | ⟨hne, hl⟩
    · rw [if_pos hnil, hl]
      rfl
    · rw [hl, if_neg fun hnil => hne (by rw [hnil]; rfl)]
      rfl

theorem sessions_add_up_single : ∃ core config overrides calls,
    Run (Core.single 5) (Engine.new core config overrides) calls stoppedSingle ∧
      (startedBy calls).length = 1 ∧ stoppedSingle.running = [] ∧
      (SessionOutcome.all.map stoppedSingle.counter).sum = 1 ∧
      (Metrics.ofLog stoppedSingle.measurements)["engine_active_test_sessions"]? =
        some (.level 0) := by
  obtain ⟨core, config, overrides, before, hr⟩ := single_reachable 5 .perProxy
  obtain ⟨after, hr'⟩ := stoppedSingle_reaches
  have hrun := hr.trans hr'
  obtain ⟨hsum, _, _, _, _, hlevel⟩ := sessions_add_up hrun
  have hsize : stoppedSingle.sessions.size = 0 := by decide
  have hended : (SessionOutcome.all.map stoppedSingle.counter).sum = 1 := by
    rw [sum_counter]
    decide
  rw [hsize, hended] at hsum
  refine ⟨core, config, overrides, _, hrun, hsum, ?_, hended, ?_⟩
  · exact List.eq_nil_of_length_eq_zero ((length_running _).trans hsize)
  · rw [hlevel, hsize, if_neg]
    intro hnil
    rw [hnil] at hsum
    cases hsum

end Engine

end ProxyPulse
