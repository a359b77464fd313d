import ProxyPulse.Proofs.Engine.Fetching
import ProxyPulse.Proofs.Engine.Standstill

namespace ProxyPulse

def FetchNote.all {α : Type} (pick : FetchNote → Option α) (notes : List (Nat × FetchNote)) :
    List (Nat × α) :=
  notes.filterMap fun (time, note) => (pick note).map (time, ·)

structure FetchLog where
  asks : List (Nat × Bool)
  answers : List (Nat × Answer (List String))
  reports : List (Nat × String × Answer GroupReport)
  results : List (Nat × Result)

namespace FetchLog

def of (notes : List (Nat × FetchNote)) : FetchLog where
  asks := FetchNote.all FetchNote.ask? notes
  answers := FetchNote.all FetchNote.answer? notes
  reports := FetchNote.all FetchNote.report? notes
  results := FetchNote.all FetchNote.result? notes

def heard (log : FetchLog) : List String :=
  log.reports.map fun (_, group, _) => group

def told (log : FetchLog) : Nat :=
  log.reports.countP fun (_, _, answer) => answer.isOk

def add (log : FetchLog) (now : Nat) (notes : List FetchNote) : FetchLog where
  asks := log.asks ++ (notes.filterMap FetchNote.ask?).map (now, ·)
  answers := log.answers ++ (notes.filterMap FetchNote.answer?).map (now, ·)
  reports := log.reports ++ (notes.filterMap FetchNote.report?).map (now, ·)
  results := log.results ++ (notes.filterMap FetchNote.result?).map (now, ·)

theorem of_append (notes : List (Nat × FetchNote)) (now : Nat) (new : List FetchNote) :
    of (notes ++ new.map (now, ·)) = (of notes).add now new := by
  have hall {α : Type} (pick : FetchNote → Option α) :
      FetchNote.all pick (notes ++ new.map (now, ·)) =
        FetchNote.all pick notes ++ (new.filterMap pick).map (now, ·) := by
    rw [FetchNote.all, List.filterMap_append, List.filterMap_map, List.map_filterMap]
    rfl
  simp only [of, add, hall]

variable (log : FetchLog) (now : Nat)

theorem add_nil : log.add now [] = log := by
  simp [add]

theorem add_ask (selectableOnly : Bool) : log.add now [.asked (.names selectableOnly)] =
    { log with asks := log.asks ++ [(now, selectableOnly)] } := by
  simp [add, FetchNote.ask?, FetchNote.answer?, FetchNote.report?, FetchNote.result?]

theorem add_result (result : Result) : log.add now [.returned result] =
    { log with results := log.results ++ [(now, result)] } := by
  simp [add, FetchNote.ask?, FetchNote.answer?, FetchNote.report?, FetchNote.result?]

theorem add_report (heard : Option (String × Answer GroupReport)) :
    log.add now (FetchNote.ofReport heard) =
      { log with reports := log.reports ++ heard.toList.map (now, ·) } := by
  cases heard <;>
    simp [add, FetchNote.ofReport, FetchNote.ask?, FetchNote.answer?, FetchNote.report?,
      FetchNote.result?]

theorem add_inquiries {asks : List Operation} (h : Inquires asks) :
    log.add now (asks.map .asked) = log := by
  have hask : (asks.map FetchNote.asked).filterMap FetchNote.ask? = [] := by
    rw [List.filterMap_map, List.filterMap_eq_nil_iff]
    intro operation hmem
    obtain ⟨group, sort, rfl⟩ := h operation hmem
    rfl
  have hnone {α : Type} (pick : FetchNote → Option α)
      (hpick : ∀ operation, pick (.asked operation) = none) :
      (asks.map FetchNote.asked).filterMap pick = [] := by
    rw [List.filterMap_map, List.filterMap_eq_nil_iff]
    exact fun operation _ => hpick operation
  have hanswer := hnone FetchNote.answer? fun _ => rfl
  have hreport := hnone FetchNote.report? fun _ => rfl
  have hresult := hnone FetchNote.result? fun _ => rfl
  simp [add, hask, hanswer, hreport, hresult]

theorem add_append (notes notes' : List FetchNote) :
    log.add now (notes ++ notes') = (log.add now notes).add now notes' := by
  simp [add]

theorem add_named (answer : Answer (List String)) (notes : List FetchNote) :
    log.add now (.named answer :: notes) =
      add { log with answers := log.answers ++ [(now, answer)] } now notes := by
  simp [add, List.filterMap_cons, FetchNote.ask?, FetchNote.answer?, FetchNote.report?,
    FetchNote.result?]

end FetchLog

structure Spaced (s : Config.Scheduler) (prompt : Prop) (asks : List (Nat × Bool))
    (answers : List (Nat × Answer (List String))) : Prop where
  few : asks.length ≤ s.lastAttempt
  waits : ∀ k b answer a selectableOnly, answers[k]? = some (b, answer) →
    asks[k + 1]? = some (a, selectableOnly) →
    b + s.attemptPause k ≤ a ∧ (prompt → 10 * (a - b) ≤ 11 * s.attemptPause k)

section

variable {s : Config.Scheduler} {prompt : Prop} {asks : List (Nat × Bool)}
  {answers : List (Nat × Answer (List String))}

theorem Spaced.answer (h : Spaced s prompt asks answers) (hout : asks.length ≤ answers.length + 1)
    (x : Nat × Answer (List String)) : Spaced s prompt asks (answers ++ [x]) := by
  refine ⟨h.few, fun k b answer a selectableOnly hanswer hask => ?_⟩
  have hk := (List.getElem?_eq_some_iff.mp hask).1
  rw [List.getElem?_append_left (by omega)] at hanswer
  exact h.waits k b answer a selectableOnly hanswer hask

theorem Spaced.ask {b now : Nat} {answer : Answer (List String)} {failed : Nat}
    (h : Spaced s prompt asks answers) (hasks : asks.length = failed + 1)
    (hanswers : answers.length = failed + 1) (hmore : failed + 1 < s.lastAttempt)
    (hlast : answers.getLast? = some (b, answer)) (hleast : b + s.attemptPause failed ≤ now)
    (hmost : prompt → 10 * (now - b) ≤ 11 * s.attemptPause failed) (selectableOnly : Bool) :
    Spaced s prompt (asks ++ [(now, selectableOnly)]) answers := by
  constructor
  · rw [List.length_append, hasks]
    exact hmore
  · intro k b' answer' a so hanswer hask
    rcases Nat.lt_trichotomy (k + 1) asks.length with hold | hnew | hlate
    · rw [List.getElem?_append_left hold] at hask
      exact h.waits k b' answer' a so hanswer hask
    · obtain rfl : k = failed := by omega
      rw [hnew, List.getElem?_concat_length] at hask
      rw [List.getLast?_eq_getElem?, hanswers, Nat.add_sub_cancel, hanswer] at hlast
      cases hask
      cases hlast
      exact ⟨hleast, hmost⟩
    · have hk := (List.getElem?_eq_some_iff.mp hanswer).1
      omega

end

structure Retrying (s : Config.Scheduler) (prompt : Prop) (failed : Nat) (log : FetchLog) : Prop where
  spaced : Spaced s prompt log.asks log.answers
  answers : log.answers.length = failed
  nameless : ∀ x ∈ log.answers, namesOf x.2 = []
  reports : log.reports = []

structure Found (s : Config.Scheduler) (prompt : Prop) (names : List String) (log : FetchLog) :
    Prop where
  spaced : Spaced s prompt log.asks log.answers
  asks : log.asks.length = log.answers.length
  nonempty : names ≠ []
  answers : ∃ failures b, log.answers = failures ++ [(b, .ok names)] ∧
    ∀ x ∈ failures, namesOf x.2 = []

inductive FetchCourse (s : Config.Scheduler) (prompt : Prop) (timely : Nat → Prop) (now : Nat) :
    Option Job → FetchLog → Prop
  | asking {failed limit : Nat} {selectableOnly : Bool} {call : Call} {log : FetchLog} :
    Retrying s prompt failed log → log.asks.length = failed + 1 →
    log.asks.getLast? = some (call.startedAt, selectableOnly) → call.limit = some limit →
    (∀ longest, timely longest → limit ≤ longest) → (prompt → now ≤ call.startedAt + limit) →
    log.results = [] → FetchCourse s prompt timely now
      (some (.naming (some (s.attempt failed)) selectableOnly call)) log
  | pausing {failed due b : Nat} {answer : Answer (List String)} {log : FetchLog} :
    Retrying s prompt (failed + 1) log → log.asks.length = failed + 1 →
    failed + 1 < s.lastAttempt → log.answers.getLast? = some (b, answer) →
    b + s.attemptPause failed ≤ due → 10 * (due - b) ≤ 11 * s.attemptPause failed →
    (prompt → now ≤ due) → log.results = [] →
    FetchCourse s prompt timely now (some (.pausing (s.attempt (failed + 1)) due)) log
  | gaveUp {b : Nat} {answer : Answer (List String)} {log : FetchLog} :
    Retrying s prompt s.lastAttempt log →
    log.asks.length = s.lastAttempt → log.answers.getLast? = some (b, answer) →
    log.results = [(b, .loaded 0)] → FetchCourse s prompt timely now none log
  | loading {names : List String} {loads : List Load} {log : FetchLog} :
    Found s prompt names log → (log.heard ++ pending loads).Perm names →
    pending loads ≠ [] → successes loads = log.told → log.results = [] →
    FetchCourse s prompt timely now (some (.loading .all loads)) log
  | loaded {names : List String} {b : Nat} {report : String × Answer GroupReport} {log : FetchLog} :
    Found s prompt names log → log.heard.Perm names →
    log.reports.getLast? = some (b, report) → log.results = [(b, .loaded log.told)] →
    FetchCourse s prompt timely now none log

section

variable {s : Config.Scheduler} {prompt : Prop} {timely : Nat → Prop} {now limit failed : Nat}
  {job job' : Option Job} {log : FetchLog} {notes : List FetchNote}

theorem Retrying.answer (h : Retrying s prompt failed log) (hasks : log.asks.length = failed + 1)
    {answer : Answer (List String)} (hnone : namesOf answer = []) (now : Nat) :
    Retrying s prompt (failed + 1) { log with answers := log.answers ++ [(now, answer)] } := by
  refine ⟨h.spaced.answer (by rw [hasks, h.answers]) _, ?_, ?_, h.reports⟩
  · rw [List.length_append, h.answers]
    rfl
  · exact List.forall_mem_append.mpr ⟨h.nameless, List.forall_mem_singleton.mpr hnone⟩

theorem Retrying.found (h : Retrying s prompt failed log) (hasks : log.asks.length = failed + 1)
    {names : List String} (hnames : names ≠ []) (now : Nat) :
    Found s prompt names { log with answers := log.answers ++ [(now, .ok names)] } := by
  refine ⟨h.spaced.answer (by rw [hasks, h.answers]) _, ?_, hnames,
    log.answers, now, rfl, h.nameless⟩
  rw [List.length_append, h.answers, hasks]
  rfl

theorem FetchLog.told_report (log : FetchLog) (now : Nat)
    {heard : Option (String × Answer GroupReport)} {loads loads' : List Load}
    (h : LoadsHear heard loads loads') {total : List String}
    (hperm : (log.heard ++ pending loads).Perm total) (hcount : successes loads = log.told) :
    let log' : FetchLog := { log with reports := log.reports ++ heard.toList.map (now, ·) }
    (log'.heard ++ pending loads').Perm total ∧ successes loads' = log'.told := by
  intro log'
  cases h with
  | nothing hpending hsuccesses =>
    have hsame : log' = log := by simp [log']
    rw [hsame, hpending, hsuccesses]
    exact ⟨hperm, hcount⟩
  | @report group answer _ _ hpending hsuccesses =>
    have hheard : log'.heard = log.heard ++ [group] := by simp [log', FetchLog.heard]
    have htold : log'.told = log.told + if answer.isOk then 1 else 0 := by
      simp [log', FetchLog.told, List.countP_append, List.countP_singleton]
    rw [hheard, htold, hsuccesses, hcount, List.append_assoc]
    exact ⟨((hpending.symm.append_left log.heard)).trans hperm, rfl⟩

theorem FetchCourse.step (h : FetchCourse s prompt timely now job log)
    (hstep : FetchStep s limit now job notes job')
    (htimely : ∀ longest, timely longest → limit ≤ longest) :
    FetchCourse s prompt timely now job' (log.add now notes) := by
  cases hstep with
  | rest =>
    rw [log.add_nil]
    exact h
  | ask selectableOnly answerAt hdue =>
    rw [log.add_ask]
    cases h with
    | pausing hretrying hasks hmore hlast hleast hmost hnow hresults =>
      have hspaced := hretrying.spaced.ask hasks hretrying.answers hmore hlast
        (Nat.le_trans hleast hdue) (fun h => Nat.le_antisymm (hnow h) hdue ▸ hmost) selectableOnly
      refine .asking ⟨hspaced, hretrying.answers, hretrying.nameless, hretrying.reports⟩ ?_
        List.getLast?_concat rfl htimely (fun _ => Nat.le_add_right now limit) hresults
      rw [List.length_append, hasks]
      rfl
  | linger hstarted hlimit =>
    rw [log.add_nil]
    cases h with
    | asking hretrying hasks hlast hcall hlongest hnow hresults =>
      rw [← hstarted] at hlast hnow
      exact .asking hretrying hasks hlast (hlimit.trans hcall) hlongest hnow hresults
  | pause hnone hmore hleast hmost =>
    rw [log.add_named, FetchLog.add_nil]
    cases h with
    | asking hretrying hasks hlast hcall hlongest hnow hresults =>
      refine .pausing (hretrying.answer hasks hnone now) hasks hmore List.getLast?_concat
        (Nat.add_le_add_left hleast now) ?_ (fun _ => Nat.le_add_right now _) hresults
      rwa [Nat.add_sub_cancel_left]
  | @giveUp failed _ _ answer hnone hlast =>
    rw [log.add_named, FetchLog.add_result]
    cases h with
    | asking hretrying hasks hlast' hcall hlongest hnow hresults =>
      -- no more calls than the settings allow went out, and there is none to come
      have hall : s.lastAttempt = failed + 1 := by
        have hfew := hretrying.spaced.few
        omega
      have hanswered := hretrying.answer hasks hnone now
      refine .gaveUp ?_ (hasks.trans hall.symm) List.getLast?_concat ?_
      · rw [hall]
        exact ⟨hanswered.spaced, hanswered.answers, hanswered.nameless, hanswered.reports⟩
      · rw [hresults]
        rfl
  | @found failed _ _ names asks loads hnames hinquires hpending hsuccesses =>
    rw [log.add_named, FetchLog.add_inquiries _ _ hinquires]
    cases h with
    | asking hretrying hasks hlast hcall hlongest hnow hresults =>
      refine .loading (hretrying.found hasks hnames now) ?_ ?_ ?_ hresults
      · rw [FetchLog.heard, hretrying.reports, hpending]
        exact .refl _
      · rwa [hpending]
      · rw [FetchLog.told, hretrying.reports]
        exact hsuccesses
  | load hhear hinquires hmore =>
    rw [log.add_append, log.add_report, FetchLog.add_inquiries _ _ hinquires]
    cases h with
    | loading hfound hperm hpending hcount hresults =>
      obtain ⟨hperm, hcount⟩ := log.told_report now hhear hperm hcount
      exact .loading ⟨hfound.spaced, hfound.asks, hfound.nonempty, hfound.answers⟩ hperm hmore
        hcount hresults
  | finish hhear hinquires hdone =>
    rw [log.add_append, log.add_append, log.add_report, FetchLog.add_inquiries _ _ hinquires,
      FetchLog.add_result]
    cases h with
    | loading hfound hperm hpending hcount hresults =>
      obtain ⟨hperm', hcount'⟩ := log.told_report now hhear hperm hcount
      cases hhear with
      -- some group was still to be heard of, so this turn has heard of it
      | nothing hsame => exact absurd (hsame.symm.trans hdone) hpending
      | @report group answer =>
        rw [hdone, List.append_nil] at hperm'
        refine .loaded ⟨hfound.spaced, hfound.asks, hfound.nonempty, hfound.answers⟩ hperm'
          (List.getLast?_concat (a := (now, group, answer))) ?_
        rw [hresults, hcount']
        rfl

theorem FetchCourse.fetches (h : FetchCourse s prompt timely now job log) :
    ∀ x ∈ job, x.Fetches s := by
  cases h with
  | asking => exact fun _ hx => Option.some.inj hx ▸ .naming _ _ _
  | pausing => exact fun _ hx => Option.some.inj hx ▸ .pausing _ _
  | loading => exact fun _ hx => Option.some.inj hx ▸ .loading _
  | gaveUp | loaded => exact fun _ hx => nomatch hx

theorem FetchCourse.spaced (h : FetchCourse s prompt timely now job log) :
    Spaced s prompt log.asks log.answers := by
  cases h with
  | asking h | pausing h | gaveUp h => exact h.spaced
  | loading h | loaded h => exact h.spaced

theorem FetchCourse.alternates (h : FetchCourse s prompt timely now job log) :
    log.answers.length ≤ log.asks.length ∧ log.asks.length ≤ log.answers.length + 1 := by
  cases h with
  | asking h hasks | pausing h hasks | gaveUp h hasks =>
    have hanswers := h.answers
    omega
  | loading h | loaded h =>
    have hasks := h.asks
    omega

theorem FetchCourse.named {loads : List Load}
    (h : FetchCourse s prompt timely now (some (.loading .all loads)) log) :
    ∃ x ∈ log.answers, namesOf x.2 ≠ [] := by
  cases h with
  | loading h =>
    obtain ⟨failures, b, hanswers, -⟩ := h.answers
    refine ⟨(b, .ok _), ?_, h.nonempty⟩
    rw [hanswers]
    exact List.mem_append_right _ (List.mem_singleton_self _)

theorem FetchCourse.nameless (h : FetchCourse s prompt timely now job log) :
    ∀ x ∈ log.answers.dropLast, namesOf x.2 = [] := by
  cases h with
  | asking h | pausing h | gaveUp h =>
    exact fun x hx => h.nameless x ((List.dropLast_sublist _).mem hx)
  | loading h | loaded h =>
    obtain ⟨failures, b, hanswers, hnone⟩ := h.answers
    rw [hanswers, List.dropLast_concat]
    exact hnone

/-- What is returned, and when: nothing as long as there is more to come. -/
def FetchLog.Settled (log : FetchLog) (last : Nat) : Prop :=
  match log.answers.getLast? with
  | none => log.reports = [] ∧ log.results = []
  | some (b, answer) =>
    if namesOf answer = [] then
      log.reports = [] ∧
        log.results = if log.answers.length < last then [] else [(b, .loaded 0)]
    else
      log.asks.length = log.answers.length ∧
      ∃ rest, (log.heard ++ rest).Perm (namesOf answer) ∧
        log.results = if rest = [] then
          log.reports.getLast?.toList.map fun (time, _) => (time, .loaded log.told)
        else []

theorem Retrying.settled (h : Retrying s prompt failed log)
    (hresults : log.results = if failed < s.lastAttempt then []
      else log.answers.getLast?.toList.map fun (b, _) => (b, .loaded 0)) :
    log.Settled s.lastAttempt := by
  unfold FetchLog.Settled
  cases hlast : log.answers.getLast? with
  | none =>
    refine ⟨h.reports, ?_⟩
    rw [hresults, hlast]
    split <;> rfl
  | some x =>
    dsimp only
    rw [if_pos (h.nameless x (List.mem_of_getLast? hlast)), h.answers, hresults, hlast]
    exact ⟨h.reports, rfl⟩

theorem Found.settled {names : List String} (h : Found s prompt names log) {rest : List String}
    (hperm : (log.heard ++ rest).Perm names)
    (hresults : log.results = if rest = [] then
      log.reports.getLast?.toList.map fun (time, _) => (time, .loaded log.told) else []) :
    log.Settled s.lastAttempt := by
  obtain ⟨failures, b, hanswers, -⟩ := h.answers
  unfold FetchLog.Settled
  rw [hanswers, List.getLast?_concat]
  dsimp only
  rw [if_neg (show namesOf (.ok names) ≠ [] from h.nonempty), ← hanswers]
  exact ⟨h.asks, rest, hperm, hresults⟩

theorem FetchCourse.settled (h : FetchCourse s prompt timely now job log) :
    log.Settled s.lastAttempt := by
  cases h with
  | asking h hasks _ _ _ _ hresults =>
    have hmore : log.asks.length ≤ s.lastAttempt := h.spaced.few
    exact h.settled (by rw [if_pos (by omega), hresults])
  | pausing h _ hmore _ _ _ _ hresults => exact h.settled (by rw [if_pos hmore, hresults])
  | gaveUp h _ hlast hresults =>
    refine h.settled ?_
    rw [if_neg (Nat.lt_irrefl _), hlast, hresults]
    rfl
  | loading h hperm hpending hcount hresults =>
    exact h.settled hperm (by rw [if_neg hpending, hresults])
  | loaded h hperm hlast hresults =>
    rw [← List.append_nil log.heard] at hperm
    refine h.settled hperm ?_
    rw [if_pos rfl, hlast, hresults]
    rfl

theorem FetchCourse.goes_on (h : FetchCourse s prompt timely now job log) (hprompt : prompt)
    {longest : Nat} (hlongest : timely longest) :
    (log.answers.length < log.asks.length →
      ∃ a selectableOnly, log.asks.getLast? = some (a, selectableOnly) ∧ now ≤ a + longest) ∧
    (log.asks.length < s.lastAttempt → log.asks.length = log.answers.length →
      ∀ b answer, log.answers.getLast? = some (b, answer) → namesOf answer = [] →
        10 * (now - b) ≤ 11 * s.attemptPause (log.answers.length - 1)) := by
  cases h with
  | asking h hasks hlast hcall htimely hnow hresults =>
    have hanswers := h.answers
    refine ⟨fun _ => ⟨_, _, hlast, ?_⟩, fun _ heven => by omega⟩
    exact (hnow hprompt).trans (Nat.add_le_add_left (htimely longest hlongest) _)
  | pausing h hasks hmore hlast hleast hmost hnow hresults =>
    have hanswers := h.answers
    refine ⟨fun hout => by omega, fun _ _ b answer hb _ => ?_⟩
    obtain ⟨rfl, rfl⟩ := Prod.mk.inj (Option.some.inj (hlast.symm.trans hb))
    have hdue := hnow hprompt
    rw [hanswers, Nat.add_sub_cancel]
    omega
  | gaveUp h hasks =>
    have hanswers := h.answers
    exact ⟨fun hout => by omega, fun hmore => by omega⟩
  | loading h | loaded h =>
    have heven := h.asks
    obtain ⟨failures, b, hanswers, -⟩ := h.answers
    refine ⟨fun hout => by omega, fun _ _ b' answer hb hnone => ?_⟩
    rw [hanswers, List.getLast?_concat] at hb
    obtain ⟨rfl, rfl⟩ := Prod.mk.inj (Option.some.inj hb)
    exact absurd hnone h.nonempty

end

namespace Engine

variable {σ : Type} {C : Core σ} {e e' : Engine σ} {n : Nat} {s : Config.Scheduler} {prompt : Prop}
  {timely : Nat → Prop} {log : FetchLog}

theorem exists_task_of_jobOf? {job : Job} (h : e.jobOf? n = some job) :
    ∃ t ∈ e.tasks, t.job = job := by
  obtain ⟨t, ht, -, hj⟩ := jobOf?_mem h
  exact ⟨t, ht, hj⟩

theorem FetchCourse.elapse (h : FetchCourse s prompt timely e.now (e.jobOf? n) log) {time : Nat}
    (hp : prompt → Prompt e (.wait time)) : FetchCourse s prompt timely time (e.jobOf? n) log := by
  have htask {job : Job} (hj : e.jobOf? n = some job) := exists_task_of_jobOf? hj
  generalize e.jobOf? n = job at h htask ⊢
  cases h with
  | @asking failed limit selectableOnly call log hretrying hasks hlast hcall htimely hnow hresults =>
    refine .asking hretrying hasks hlast hcall htimely (fun hprompt => ?_) hresults
    obtain ⟨t, ht, hj⟩ := htask rfl
    have hwait : .answer call ∈ t.job.waits := by
      rw [hj]
      exact List.mem_singleton_self _
    have hover := (hp hprompt).not_over ht hwait
    rw [isOver, Bool.or_eq_false_iff] at hover
    obtain ⟨moment, hwake, hle⟩ := Call.wakeAt_le hcall
    exact ((hp hprompt).le_wake ht hwait hwake
      (Call.wakeAt_later hover.1 hover.2 hwake)).trans hle
  | pausing hretrying hasks hmore hlast hleast hmost hnow hresults =>
    refine .pausing hretrying hasks hmore hlast hleast hmost (fun hprompt => ?_) hresults
    obtain ⟨t, ht, hj⟩ := htask rfl
    exact (hp hprompt).le_moment ht (by rw [hj]; exact List.mem_singleton_self _)
  | gaveUp hretrying hasks hlast hresults => exact .gaveUp hretrying hasks hlast hresults
  | loading hfound hperm hpending hcount hresults =>
    exact .loading hfound hperm hpending hcount hresults
  | loaded hfound hperm hlast hresults => exact .loaded hfound hperm hlast hresults

theorem FetchCourse.act (h : FetchCourse s prompt timely e.now (e.jobOf? n) log)
    (hsound : Sound e) (hid : n < e.nextTask) {a : Action σ} (ha : e.Allows a)
    (hp : prompt → Prompt e a) (htimely : ∀ longest, timely longest → e.requestTimeout ≤ longest) :
    FetchCourse s prompt timely (e.perform C a).now ((e.perform C a).jobOf? n)
      (log.add e.now (e.fetchNotes C n a)) := by
  have hstep := h.step (fetch_act hsound C ha hid h.fetches) htimely
  by_cases hw : ∃ time, a = .wait time
  · obtain ⟨time, rfl⟩ := hw
    show FetchCourse s prompt timely time (e.jobOf? n) (log.add e.now [])
    rw [log.add_nil]
    exact FetchCourse.elapse h hp
  · rw [perform_now C hsound.coherent ha fun time ht => hw ⟨time, ht⟩]
    exact hstep

theorem FetchCourse.not_atStandstill (h : FetchCourse s prompt timely e.now (e.jobOf? n) log)
    (hr : Reachable C e) (hnone : log.results = []) : ¬ e.AtStandstill := by
  intro hstill
  have htask {job : Job} (hj : e.jobOf? n = some job) := exists_task_of_jobOf? hj
  generalize e.jobOf? n = job at h htask
  cases h with
  | asking _ _ _ hcall =>
    obtain ⟨t, ht, hj⟩ := htask rfl
    have hlimit := hstill.no_limit ht (by rw [hj]; exact List.mem_singleton_self _)
    rw [hlimit] at hcall
    cases hcall
  | pausing =>
    obtain ⟨t, ht, hj⟩ := htask rfl
    exact hstill.no_moment ht (by rw [hj]; exact List.mem_singleton_self _)
  | @loading names loads _ _ _ hpending =>
    obtain ⟨t, ht, hj⟩ := htask rfl
    obtain ⟨group, hgroup⟩ := List.exists_mem_of_ne_nil _ hpending
    obtain ⟨load, hload, hasked⟩ := List.mem_filterMap.mp hgroup
    cases load with
    | done ok => cases hasked
    | asking i query =>
      refine hr.not_atStandstill ht (q := query) ?_ hstill
      rw [hj]
      exact List.mem_filterMap.mpr ⟨_, hload, rfl⟩
  | gaveUp _ _ _ hresults | loaded _ _ _ hresults =>
    rw [hresults] at hnone
    cases hnone

def fetchLog (C : Core σ) (e : Engine σ) (t : Task) (D : List (Nat × FetchNote)) : FetchLog :=
  .of ((e.fetchNotes C t.id (.resume t)).map (e.now, ·) ++ D)

variable {e₀ : Engine σ} {t : Task} {P : Engine σ → Action σ → Prop} {D : List (Nat × FetchNote)}

theorem fetch_course (hsound : Sound e₀) (ht : t ∈ e₀.tasks) (hj : t.job = .start .prefetch)
    (hrun : Course (Acts C (fetchNotes C t.id) P) (resume C e₀ t) D e) :
    Sound e ∧ FetchCourse e₀.config.scheduler (∀ e a, P e a → Prompt e a)
      (fun longest => e₀.requestTimeout ≤ longest ∧ ∀ e a, P e a → e.requestTimeout ≤ longest)
      e.now (e.jobOf? t.id) (fetchLog C e₀ t D) := by
  -- by induction on the course; the first turn opens the log with the first call
  refine (hrun.keeps_sound (hsound.perform C (a := .resume t) ht)
    (Q := fun D e => t.id < e.nextTask ∧
      FetchCourse e₀.config.scheduler (∀ e a, P e a → Prompt e a)
        (fun longest => e₀.requestTimeout ≤ longest ∧ ∀ e a, P e a → e.requestTimeout ≤ longest)
        e.now (e.jobOf? t.id) (fetchLog C e₀ t D)) ?_ ⟨?_, ?_⟩).imp_right And.right
  · rintro D e a hsound ha hP ⟨hid, hcourse⟩
    refine ⟨Nat.lt_of_lt_of_le hid (perform_nextTask C hsound.coherent ha), ?_⟩
    rw [fetchLog, ← List.append_assoc, FetchLog.of_append]
    exact FetchCourse.act hcourse hsound hid ha (fun hprompt => hprompt e a hP)
      fun longest h => h.2 e a hP
  · have hid : t.id < e₀.nextTask := hsound.numbered.given t.id (List.mem_map_of_mem ht)
    exact Nat.lt_of_lt_of_le hid
      (perform_nextTask C hsound.coherent (a := .resume t) ht)
  · obtain ⟨-, selectableOnly, answerAt, hnotes, hleft⟩ := fetch_starts hsound C ht hj
    have hnow : (resume C e₀ t).now = e₀.now :=
      perform_now C hsound.coherent (a := .resume t) ht fun _ h => nomatch h
    rw [hleft, hnow, fetchLog, hnotes]
    refine .asking ⟨⟨?_, ?_⟩, rfl, ?_, rfl⟩ rfl rfl rfl (fun longest h => h.1)
      (fun _ => Nat.le_add_right _ _) rfl
    · exact Nat.le_max_right _ 1
    · exact fun k b answer a so h => nomatch h
    · exact fun x hx => nomatch hx

/-- A prefetch asks for names at least once and at most as often as its settings say, one call after
the other, and only the last answer can have brought names. The pause behind an answer without names
doubles up to five seconds, jitter adds a tenth at most, and where nobody dawdles it lasts no longer
than that. Without names nothing is touched, and if there is no further attempt it is over at the
moment of the answer; names are tracked as they are, each of their groups is loaded, and with the last
load how many of them went well is returned. -/
theorem prefetches_ask_until_there_are_names (hr : Reachable C e₀) (ht : t ∈ e₀.tasks)
    (hj : t.job = .start .prefetch)
    (hrun : Course (Acts C (fetchNotes C t.id) P) (resume C e₀ t) D e) :
    let s := e₀.config.scheduler
    let last := max s.prefetchAttempts 1
    let pause := fun k => min (s.prefetchBaseDelay * Nat.pow 2 k) 5000
    let prompt := ∀ e a, P e a → Prompt e a
    let log := fetchLog C e₀ t D
    (log.answers.length ≤ log.asks.length ∧ log.asks.length ≤ log.answers.length + 1 ∧
      log.asks.length ≤ last ∧ ∀ x ∈ log.answers.dropLast, namesOf x.2 = []) ∧
    (∀ k b answer a selectableOnly, log.answers[k]? = some (b, answer) →
      log.asks[k + 1]? = some (a, selectableOnly) →
      b + pause k ≤ a ∧ (prompt → 10 * (a - b) ≤ 11 * pause k)) ∧
    log.Settled last ∧
    (Untouched e₀ (resume C e₀ t) ∧
      ((∀ x ∈ log.answers, namesOf x.2 = []) → ∀ u ∈ e.tasks, u.id = t.id →
        ((∀ answer, .named answer ∈ e.fetchHears C u.job → namesOf answer = []) →
          Untouched e (resume C e u)) ∧
        ∀ names, names ≠ [] → .named (.ok names) ∈ e.fetchHears C u.job →
          ∃ e', Untouched e e' ∧ Untouched (e'.applyNames names).1 (resume C e u))) ∧
    (prompt → ∀ longest, e₀.requestTimeout ≤ longest →
      (∀ e a, P e a → e.requestTimeout ≤ longest) →
      (log.answers.length < log.asks.length → ∃ a selectableOnly,
        log.asks.getLast? = some (a, selectableOnly) ∧ e.now ≤ a + longest) ∧
      (log.asks.length < last → log.asks.length = log.answers.length →
        ∀ b answer, log.answers.getLast? = some (b, answer) → namesOf answer = [] →
          10 * (e.now - b) ≤ 11 * pause (log.answers.length - 1))) ∧
    (log.results = [] → ¬ e.AtStandstill) := by
  intro s last pause prompt log
  obtain ⟨hsound, hcourse⟩ := fetch_course hr.sound ht hj hrun
  have hreached : Reachable C e :=
    (hr.reaches (reaches_perform C (a := .resume t) ht)).reaches hrun.reaches
  obtain ⟨hasked, hanswered⟩ := hcourse.alternates
  refine ⟨⟨hasked, hanswered, hcourse.spaced.few, hcourse.nameless⟩, hcourse.spaced.waits,
    hcourse.settled, ⟨?_, fun hnone u hu hid => ?_⟩, fun hprompt longest hfirst hlater =>
    hcourse.goes_on hprompt ⟨hfirst, hlater⟩, FetchCourse.not_atStandstill hcourse hreached⟩
  · exact (fetch_starts hr.sound C ht hj).1
  · rw [← hid, hsound.numbered.jobOf? hu] at hcourse
    have hfetches : u.job.Fetches s := hcourse.fetches _ rfl
    refine ⟨retrying_untouched C (hsound.coherent.proper u hu) hfetches fun loads hloads => ?_,
      fun names => found_applied C hsound.coherent hu hfetches⟩
    rw [hloads] at hcourse
    obtain ⟨x, hx, hnames⟩ := hcourse.named
    exact hnames (hnone x hx)

def replies : Core (List (Answer (List String))) :=
  { Core.single 20 with
    names := fun _ s => (s.tail, s.head?)
    report := fun group _ s => (s, some (if group = "auto" then .ok ⟨group, .selector, "", []⟩
      else .error (.unknownGroup group)))
    draw := fun s => (s, 7) }

def fetching : Engine (List (Answer (List String))) :=
  ((Engine.new [.error (.unavailable "starting"), .ok [], .ok ["auto", "sub"]] {} {}).request
    .prefetch).1

def fetchingTask : Task :=
  { id := 0, job := .start .prefetch }

def fetchingRun : List (Nat × FetchNote) × Engine (List (Answer (List String))) :=
  play replies (fetchNotes replies 0) 13 (resume replies fetching fetchingTask)

theorem prefetches_ask_until_there_are_names_fetching :
    let log := fetchLog replies fetching fetchingTask fetchingRun.1
    log.asks.map Prod.fst = [0, 227, 654] ∧ log.heard = ["auto", "sub"] ∧
      log.results = [(694, .loaded 1)] := by
  intro log
  have hr : Reachable replies fetching := (new_reachable replies _ {} {}).reaches
    (reaches_perform replies (a := .request .prefetch) trivial)
  have ht : fetchingTask ∈ fetching.tasks := List.mem_of_getElem? (i := 0) rfl
  have hrun : Course (Acts replies (fetchNotes replies 0) Prompt)
      (resume replies fetching fetchingTask) fetchingRun.1 fetchingRun.2 := play_course _ _ 13 _
  obtain ⟨-, -, hsettled, -⟩ := prefetches_ask_until_there_are_names hr ht rfl hrun
  have hsettled : log.Settled 10 := hsettled
  have hasks : log.asks.map Prod.fst = [0, 227, 654] := by decide
  have hheard : log.heard = ["auto", "sub"] := by decide
  have hlast : log.answers.getLast? = some (674, .ok ["auto", "sub"]) := by rfl
  have hreported : log.reports.getLast?.map Prod.fst = some 694 := by decide
  have htold : log.told = 1 := by decide
  refine ⟨hasks, hheard, ?_⟩
  rw [FetchLog.Settled, hlast] at hsettled
  obtain ⟨-, rest, hperm, hresults⟩ := hsettled
  have hrest : rest = [] := by
    have hlength := hperm.length_eq
    rw [List.length_append, hheard] at hlength
    exact List.length_eq_zero_iff.mp (Nat.add_left_cancel hlength)
  rw [if_pos hrest, htold] at hresults
  obtain ⟨last, hreports, htime⟩ := Option.map_eq_some_iff.mp hreported
  rw [hresults, hreports]
  exact congrArg (fun time => [(time, Result.loaded 1)]) htime

end Engine

end ProxyPulse
