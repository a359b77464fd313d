import Mathlib.Data.List.Forall2
import Mathlib.Data.List.SplitBy
import ProxyPulse.Proofs.Board.DelayOrder

/-!
Requests to re-sort come in bursts: each within the window of the one before it. While delay order is
on and the clock waits for nobody who can go on, every burst is served by one re-sort, as soon as the
window has passed after its last request; and that re-sort puts just the records of the burst into
delay order.
-/

namespace ProxyPulse

structure Record.Resorted (r r' : Record) : Prop where
  members : StablySorted r.group.members r'.group.members
  group : r'.group = { r.group with members := r'.group.members }
  links : r'.links = r.links
  testing : r'.testing = r.testing
  alone : InDelayOrder r.group.members → r' = r

namespace Board

structure Asked where
  time : Nat
  index : Nat
  deriving DecidableEq, Repr

structure Served where
  time : Nat
  indices : Std.ExtTreeSet Nat
  before : Board
  after : Board

def Act.isOutside : Act → Bool
  | .takeRequests _ | .serveResorting _ => false
  | _ => true

def requested (b : Board) : Act → List Nat
  | .updateDelay index name delay => if (b.updateDelay index name delay).2 then [index] else []
  | .updateDelays index delays => if (b.updateDelays index delays).2 then [index] else []
  | .sortByDelay _ => b.records.keys
  | .configure next => if next.view.sortByDelay != b.sortsByDelay then b.records.keys else []
  | _ => []

inductive Course (window : Nat) (b₀ : Board) (start : Nat) :
    Nat → Board → List Asked → List Served → Prop
  | start : Course window b₀ start start b₀ [] []
  | act {now : Nat} {b : Board} {asked : List Asked} {served : List Served} {a : Act} :
    Course window b₀ start now b asked served → a.isOutside = true →
    (b.perform a).sortsByDelay = true → (b.perform a).config.view.sortDebounce = window →
    Course window b₀ start now (b.perform a) (asked ++ (b.requested a).map (.mk now)) served
  | take {now : Nat} {b : Board} {asked : List Asked} {served : List Served} :
    Course window b₀ start now b asked served →
    Course window b₀ start now (b.takeRequests now) asked served
  | serve {now : Nat} {b : Board} {asked : List Asked} {served : List Served} {r : Resorting} :
    Course window b₀ start now b asked served → b.resorting = some r → r.due ≤ now →
    Course window b₀ start now (b.serveResorting now) asked
      (served ++ [⟨now, r.indices, b, b.serveResorting now⟩])
  | wait {now time : Nat} {b : Board} {asked : List Asked} {served : List Served} :
    Course window b₀ start now b asked served → now ≤ time → b.resortReady now = false →
    (∀ r, b.resorting = some r → time ≤ r.due) → Course window b₀ start time b asked served

structure Resorts (indices : List Nat) (b b' : Board) : Prop where
  others : ∀ i, i ∉ indices ∨ b.records[i]? = none → b'.records[i]? = b.records[i]?
  sorted : ∀ i ∈ indices, ∀ r, b.records[i]? = some r →
    ∃ r', b'.records[i]? = some r' ∧ r.Resorted r'

def Asked.follows (window : Nat) (q q' : Asked) : Bool :=
  decide (q'.time < q.time + window)

def Served.Answers (window : Nat) (burst : List Asked) (s : Served) : Prop :=
  ∃ last, burst.getLast? = some last ∧ s.time = last.time + window ∧
    (∀ i, i ∈ s.indices ↔ ∃ q ∈ burst, q.index = i) ∧ Resorts s.indices.toList s.before s.after

variable {window start now : Nat} {b₀ b b' : Board} {asked : List Asked} {served : List Served}
  {a : Act}

structure Asks (indices : List Nat) (b b' : Board) : Prop where
  requests : b'.requests = b.requests ++ indices
  resorting : b'.resorting = b.resorting
  resorts : b'.resorts = b.resorts

theorem asks_nothing (hr : b'.requests = b.requests) (hw : b'.resorting = b.resorting)
    (hn : b'.resorts = b.resorts) : Asks [] b b' :=
  ⟨hr.trans (List.append_nil _).symm, hw, hn⟩

theorem modify_asks (b : Board) (index : Nat) (cause : PublishCause)
    (change : Record → Option Record) : Asks [] b (b.modify index cause change).1 := by
  rcases modify_cases b index cause change with he | ⟨r, next, _, _, he⟩ <;> rw [he] <;>
    exact asks_nothing rfl rfl rfl

theorem publish_asks (b : Board) (index : Nat) (g : Group) : Asks [] b (b.publish index g).1 := by
  rcases publish_cases b index g with he | he <;> rw [he] <;> exact asks_nothing rfl rfl rfl

theorem remove_asks (b : Board) (index : Nat) : Asks [] b (b.remove index).1 := by
  unfold remove
  split <;> exact asks_nothing rfl rfl rfl

theorem modifyDelays_asks (hs : b.sortsByDelay = true) (index : Nat)
    (change : Record → Option Record) :
    Asks (if (b.modifyDelays index change).2 then [index] else []) b
      (b.modifyDelays index change).1 := by
  rcases modify_cases b index .delay change with he | ⟨r, next, _, _, he⟩
  · simp only [modifyDelays, he, Bool.false_eq_true, if_false]
    exact asks_nothing rfl rfl rfl
  · have hput : (b.put .delay { next with index := index }).sortsByDelay = true := hs
    simp only [modifyDelays, he, if_true, requestResort, hput]
    exact ⟨rfl, rfl, rfl⟩

theorem setSortByDelay_asks (b : Board) : Asks b.records.keys b (b.setSortByDelay true) := by
  rw [setSortByDelay, if_pos rfl, requestResorts_eq rfl]
  exact ⟨rfl, rfl, rfl⟩

theorem configure_asks {next : Config} (hs : next.view.sortByDelay = true) (b : Board) :
    Asks (if next.view.sortByDelay != b.sortsByDelay then b.records.keys else []) b
      (b.configure next) := by
  unfold configure
  dsimp only
  split
  · rw [hs]
    obtain ⟨hr, hw, hn⟩ := setSortByDelay_asks { b with config := next }
    exact ⟨hr, hw, hn⟩
  · exact asks_nothing rfl rfl rfl

theorem perform_asks (ha : a.isOutside = true) (hs : (b.perform a).sortsByDelay = true) :
    Asks (b.requested a) b (b.perform a) := by
  cases a with
  | publish index g => exact publish_asks b index g
  | updateDelay index name delay =>
    rw [perform, sortsByDelay, updateDelay, modifyDelays_config] at hs
    exact modifyDelays_asks hs index _
  | updateDelays index delays =>
    rw [perform, sortsByDelay, updateDelays, modifyDelays_config] at hs
    exact modifyDelays_asks hs index _
  | setTesting index testing => exact modify_asks b index _ _
  | setSelection index now => exact modify_asks b index _ _
  | remove index => exact remove_asks b index
  | reset => exact asks_nothing rfl rfl rfl
  | sortByDelay on =>
    rw [perform, sortsByDelay, setSortByDelay_config] at hs
    obtain rfl : on = true := hs
    exact setSortByDelay_asks b
  | configure next =>
    rw [perform, sortsByDelay, configure_config] at hs
    exact configure_asks hs b
  | takeRequests now => cases ha
  | serveResorting now => cases ha

theorem resortRecord_resorts (b : Board) (index : Nat) :
    Resorts [index] b (b.resortRecord index) where
  others i hi := by
    by_cases he : i = index
    · subst he
      have hnone : b.records[i]? = none := hi.resolve_left (by simp)
      rw [resortRecord, modify, hnone]
      exact hnone
    · exact modify_records_of_ne b he _ _
  sorted i hi r hr := by
    obtain rfl : i = index := List.mem_singleton.mp hi
    by_cases hm : sortProxies .delay r.group.members = r.group.members
    · refine ⟨r, by simp [resortRecord, modify, hr, hm], ?_, rfl, rfl, rfl, fun _ => rfl⟩
      have hstable := sortProxies_stable r.group.members
      rwa [hm] at hstable
    · refine ⟨⟨i, { r.group with members := sortProxies .delay r.group.members }, r.links,
        r.testing, b.revision + 1⟩, ?_, ?_⟩
      · rw [resortRecord, modify, hr, Option.bind_some, if_neg hm, records_put, if_pos rfl]
      · refine ⟨sortProxies_stable r.group.members, rfl, rfl, rfl, fun ho => absurd ?_ hm⟩
        exact List.mergeSort_of_pairwise (inDelayOrder_iff.mp ho)

theorem Resorts.cons {index : Nat} {rest : List Nat} {b₁ : Board} (hnew : index ∉ rest)
    (h : Resorts [index] b b₁) (h' : Resorts rest b₁ b') : Resorts (index :: rest) b b' where
  others i hi := by
    have hone : b₁.records[i]? = b.records[i]? :=
      h.others i (hi.imp_left fun hmem => by simpa using fun he => hmem (by simp [he]))
    rw [← hone] at hi ⊢
    exact h'.others i (hi.imp_left fun hmem hrest => hmem (List.mem_cons_of_mem _ hrest))
  sorted i hi r hr := by
    rcases List.mem_cons.mp hi with rfl | hrest
    · obtain ⟨r', hr', hsorted⟩ := h.sorted i List.mem_cons_self r hr
      exact ⟨r', (h'.others i (.inl hnew)).trans hr', hsorted⟩
    · have hne : i ∉ [index] := fun he => hnew (List.mem_singleton.mp he ▸ hrest)
      exact h'.sorted i hrest r ((h.others i (.inl hne)).trans hr)

theorem resortRecords_resorts {indices : List Nat} (hnodup : indices.Nodup) (b : Board) :
    Resorts indices b (indices.foldl resortRecord b) := by
  induction indices generalizing b with
  | nil => exact ⟨fun _ _ => rfl, fun i hi => absurd hi List.not_mem_nil⟩
  | cons index rest ih =>
    obtain ⟨hnew, hrest⟩ := List.nodup_cons.mp hnodup
    exact (resortRecord_resorts b index).cons hnew (ih hrest _)

theorem resortRecords_count (indices : List Nat) (b : Board) :
    (indices.foldl resortRecord b).resorts = b.resorts := by
  induction indices generalizing b with
  | nil => rfl
  | cons i rest ih => exact (ih _).trans (modify_asks b i .resort _).resorts

theorem resort_waiting (b : Board) (indices : Std.ExtTreeSet Nat) :
    SameWaiting b (b.resort indices) := by
  unfold resort
  split
  · obtain ⟨hrequests, hresorting⟩ := resortRecords_waiting indices.toList
      (measure { b with resorts := b.resorts + 1 } .resorted)
    exact ⟨hrequests, hresorting⟩
  · exact ⟨rfl, rfl⟩

theorem resort_on (hs : b.sortsByDelay = true) (indices : Std.ExtTreeSet Nat) :
    (b.resort indices).resorts = b.resorts + 1 ∧
      Resorts indices.toList b (b.resort indices) := by
  have hnodup : indices.toList.Nodup := indices.distinct_toList.imp fun h he => by simp [he] at h
  obtain ⟨hothers, hsorted⟩ := resortRecords_resorts hnodup
    (measure { b with resorts := b.resorts + 1 } .resorted)
  rw [resort, if_pos hs]
  exact ⟨resortRecords_count _ _, hothers, hsorted⟩

theorem serveResorting_due {r : Resorting} (hr : b.resorting = some r) (hdue : r.due ≤ now) :
    b.serveResorting now = resort { b with resorting := none } r.indices := by
  simp only [serveResorting, hr, if_pos hdue]

theorem serveResorting_early (h : ∀ r, b.resorting = some r → now < r.due) :
    b.serveResorting now = b := by
  unfold serveResorting
  split
  · rfl
  · next r hr => rw [if_neg (Nat.not_le_of_lt (h r hr))]

structure Gathers (window now : Nat) (b : Board) (taken fresh : List Asked) : Prop where
  requests : fresh.map Asked.index = b.requests
  recent : ∀ q ∈ fresh, q.time = now
  idle : b.resorting = none → taken = []
  waits : ∀ r, b.resorting = some r → ∃ last, taken.getLast? = some last ∧
    r.due = last.time + window ∧ now ≤ r.due ∧ ∀ i, i ∈ r.indices ↔ ∃ q ∈ taken, q.index = i
  mode : taken ++ fresh ≠ [] → b.sortsByDelay = true ∧ b.config.view.sortDebounce = window
  burst : (taken ++ fresh).IsChain fun q q' => q.follows window q'

/-- What has become of the requests so far: bursts that are over, each with its re-sort, and one
that is not. -/
structure Keeping (window now : Nat) (b₀ b : Board) (asked : List Asked) (served : List Served)
    (bursts : List (List Asked)) (taken fresh : List Asked) : Prop where
  asked : asked = bursts.flatten ++ (taken ++ fresh)
  split : bursts.flatten.splitBy (Asked.follows window) = bursts
  answered : List.Forall₂ (Served.Answers window) bursts served
  past : ∀ q ∈ bursts.flatten.getLast?, q.time + window ≤ now
  apart : ∀ q ∈ bursts.flatten.getLast?, ∀ q' ∈ (taken ++ fresh).head?,
    q.time + window ≤ q'.time
  counted : b.resorts = b₀.resorts + served.length
  gathers : Gathers window now b taken fresh

variable {bursts : List (List Asked)} {taken fresh : List Asked}

theorem follows_iff {q q' : Asked} : q.follows window q' = true ↔ q'.time < q.time + window := by
  rw [Asked.follows, decide_eq_true_iff]

theorem chain_of_recent (hw : 0 < window) {l : List Asked} (h : ∀ q ∈ l, q.time = now) :
    l.IsChain fun q q' => q.follows window q' := by
  refine List.Pairwise.isChain (List.pairwise_of_forall_mem_list fun q hq q' hq' => ?_)
  rw [follows_iff, h q hq, h q' hq']
  omega

theorem time_of_requested (b : Board) (a : Act) (now : Nat) :
    ∀ q ∈ (b.requested a).map (Asked.mk now), q.time = now := by
  intro q hq
  obtain ⟨i, -, rfl⟩ := List.mem_map.mp hq
  rfl

theorem Gathers.last_waits (h : Gathers window now b taken fresh) {q : Asked}
    (hq : (taken ++ fresh).getLast? = some q) : now ≤ q.time + window := by
  rw [List.getLast?_append] at hq
  cases hf : fresh.getLast? with
  | some last =>
    obtain rfl : last = q := by simpa [hf] using hq
    have := h.recent last (List.mem_of_getLast? hf)
    omega
  | none =>
    have hq : taken.getLast? = some q := by simpa [hf] using hq
    cases hr : b.resorting with
    | none => simp [h.idle hr] at hq
    | some r =>
      obtain ⟨last, hlast, hdue, hle, -⟩ := h.waits r hr
      cases hlast.symm.trans hq
      omega

theorem Gathers.act (h : Gathers window now b taken fresh) (hw : 0 < window)
    (ha : a.isOutside = true) (hs : (b.perform a).sortsByDelay = true)
    (hd : (b.perform a).config.view.sortDebounce = window)
    (hgap : ∀ q ∈ (taken ++ fresh).getLast?, ∀ q' ∈ ((b.requested a).map (Asked.mk now)).head?,
      q'.time ≠ q.time + window) :
    Gathers window now (b.perform a) taken (fresh ++ (b.requested a).map (.mk now)) := by
  obtain ⟨hrequests, hresorting, -⟩ := perform_asks ha hs
  have hnew := b.time_of_requested a now
  constructor
  · rw [List.map_append, h.requests, hrequests, List.map_map]
    exact congrArg _ (List.map_id' _)
  · intro q hq
    exact (List.mem_append.mp hq).elim (h.recent q) (hnew q)
  · rw [hresorting]
    exact h.idle
  · rw [hresorting]
    exact h.waits
  · exact fun _ => ⟨hs, hd⟩
  · rw [← List.append_assoc, List.isChain_append]
    refine ⟨h.burst, chain_of_recent hw hnew, fun q hq q' hq' => ?_⟩
    have hwaits := h.last_waits hq
    have hne := hgap q hq q' hq'
    rw [hnew q' (List.mem_of_mem_head? hq')] at hne
    rw [follows_iff, hnew q' (List.mem_of_mem_head? hq')]
    omega

theorem Gathers.take (h : Gathers window now b taken fresh) :
    ∃ taken' fresh', taken' ++ fresh' = taken ++ fresh ∧
      Gathers window now (b.takeRequests now) taken' fresh' := by
  unfold takeRequests
  split
  · exact ⟨taken, fresh, rfl, h⟩
  · next hne =>
    obtain ⟨last, hlast⟩ : ∃ last, fresh.getLast? = some last := by
      cases hf : fresh.getLast? with
      | some last => exact ⟨last, rfl⟩
      | none => simp [← h.requests, List.getLast?_eq_none_iff.mp hf] at hne
    have htime := h.recent last (List.mem_of_getLast? hlast)
    obtain ⟨hsorts, hdebounce⟩ :=
      h.mode (by simp [List.ne_nil_of_mem (List.mem_of_getLast? hlast)])
    refine ⟨taken ++ fresh, [], List.append_nil _, rfl, by simp, by simp, ?_, ?_, ?_⟩
    · intro r hr
      cases hr
      refine ⟨last, by simp [hlast], ?_, by dsimp only; omega, fun i => ?_⟩
      · rw [htime, ← hdebounce]
      · have hbefore : i ∈ b.resorting.elim ∅ Resorting.indices ↔ ∃ q ∈ taken, q.index = i := by
          cases hb : b.resorting with
          | none => simp [h.idle hb]
          | some r =>
            obtain ⟨_, -, -, -, hmem⟩ := h.waits r hb
            exact hmem i
        rw [Std.ExtTreeSet.mem_insertMany_list, hbefore, ← h.requests]
        simp [or_and_right, exists_or]
    · exact fun _ => ⟨hsorts, hdebounce⟩
    · simpa using h.burst

theorem Gathers.serve (h : Gathers window now b taken fresh) {r : Resorting}
    (hr : b.resorting = some r) (hdue : r.due ≤ now) :
    fresh = [] ∧ Served.Answers window taken ⟨now, r.indices, b, b.serveResorting now⟩ ∧
      Gathers window now (b.serveResorting now) [] [] ∧
      (b.serveResorting now).resorts = b.resorts + 1 ∧
      ∀ q ∈ taken.getLast?, q.time + window ≤ now := by
  obtain ⟨last, hlast, hdue', hle, hmem⟩ := h.waits r hr
  have hne : taken ++ fresh ≠ [] := by simp [List.ne_nil_of_mem (List.mem_of_getLast? hlast)]
  have hwaiting := resort_waiting { b with resorting := none } r.indices
  obtain ⟨hcount, hothers, hsorted⟩ :=
    resort_on (b := { b with resorting := none }) (h.mode hne).1 r.indices
  rw [serveResorting_due hr hdue]
  -- a request of this very moment would not be within the window of the last one
  have hfresh : fresh = [] := by
    cases hf : fresh with
    | nil => rfl
    | cons q rest =>
      obtain ⟨-, -, hlink⟩ := List.isChain_append.mp h.burst
      have hfollows := follows_iff.mp (hlink last hlast q (by simp [hf]))
      have := h.recent q (by simp [hf])
      omega
  refine ⟨hfresh, ⟨last, hlast, by dsimp only; omega, hmem, hothers, hsorted⟩, ?_, hcount, ?_⟩
  · refine ⟨?_, by simp, by simp, by simp [hwaiting.resorting], by simp, by simp⟩
    rw [hwaiting.requests, ← h.requests, hfresh]
  · intro q hq
    cases hlast.symm.trans hq
    omega

theorem Gathers.wait (h : Gathers window now b taken fresh) {time : Nat}
    (hquiet : b.resortReady now = false) (hnext : ∀ r, b.resorting = some r → time ≤ r.due) :
    Gathers window time b taken fresh := by
  have hempty : b.requests = [] := by
    rw [resortReady, Bool.or_eq_false_iff] at hquiet
    simpa using hquiet.1
  have hfresh : fresh = [] := List.map_eq_nil_iff.mp (h.requests.trans hempty)
  refine ⟨h.requests, by simp [hfresh], h.idle, fun r hr => ?_, h.mode, h.burst⟩
  obtain ⟨last, hlast, hdue, -, hmem⟩ := h.waits r hr
  exact ⟨last, hlast, hdue, hnext r hr, hmem⟩

theorem Keeping.act (h : Keeping window now b₀ b asked served bursts taken fresh) (hw : 0 < window)
    (ha : a.isOutside = true) (hs : (b.perform a).sortsByDelay = true)
    (hd : (b.perform a).config.view.sortDebounce = window)
    (hgap : (asked ++ (b.requested a).map (Asked.mk now)).IsChain
      fun q q' => q'.time ≠ q.time + window) :
    Keeping window now b₀ (b.perform a) (asked ++ (b.requested a).map (.mk now)) served bursts
      taken (fresh ++ (b.requested a).map (.mk now)) where
  asked := by rw [h.asked, List.append_assoc, List.append_assoc]
  split := h.split
  answered := h.answered
  past := h.past
  apart q hq q' hq' := by
    rw [← List.append_assoc, List.head?_append] at hq'
    cases hf : (taken ++ fresh).head? with
    | some first =>
      rw [hf] at hq'
      exact h.apart q hq q' (hf.trans hq')
    | none =>
      rw [hf, Option.none_or] at hq'
      rw [b.time_of_requested a now q' (List.mem_of_mem_head? hq')]
      exact h.past q hq
  counted := (perform_asks ha hs).resorts.trans h.counted
  gathers := by
    refine h.gathers.act hw ha hs hd fun q hq q' hq' => ?_
    have hlast : q ∈ asked.getLast? := by
      rw [h.asked, List.getLast?_append, Option.mem_def.mp hq]
      rfl
    exact (List.isChain_append.mp hgap).2.2 q hlast q' hq'

theorem Keeping.serve (h : Keeping window now b₀ b asked served bursts taken fresh) {r : Resorting}
    (hr : b.resorting = some r) (hdue : r.due ≤ now) :
    Keeping window now b₀ (b.serveResorting now) asked
      (served ++ [⟨now, r.indices, b, b.serveResorting now⟩]) (bursts ++ [taken]) [] [] := by
  obtain ⟨hfresh, hanswers, hgathers, hcount, hpast⟩ := h.gathers.serve hr hdue
  have hburst := h.gathers.burst
  have hapart := h.apart
  rw [hfresh, List.append_nil] at hburst hapart
  obtain ⟨last, hlast, -⟩ := id hanswers
  have hne : taken ≠ [] := List.ne_nil_of_mem (List.mem_of_getLast? hlast)
  have hflat : (bursts ++ [taken]).flatten = bursts.flatten ++ taken := by simp
  have hend : (bursts.flatten ++ taken).getLast? = taken.getLast? := by
    rw [List.getLast?_append, hlast]
    rfl
  refine ⟨?_, ?_, List.rel_append h.answered (.cons hanswers .nil), ?_, ?_, ?_, hgathers⟩
  · rw [h.asked, hfresh, hflat, List.append_nil, List.append_nil, List.append_nil]
  · rw [hflat, List.splitBy_append, h.split, List.splitBy_of_isChain hne hburst]
    intro q hq q' hq'
    have := hapart q hq q' hq'
    rw [Asked.follows, decide_eq_false_iff_not]
    omega
  · rw [hflat, hend]
    exact hpast
  · simp
  · rw [hcount, h.counted, List.length_append]
    rfl

theorem Course.keeping (h : Course window b₀ start now b asked served) (hw : 0 < window)
    (hrequests : b₀.requests = []) (hresorting : b₀.resorting = none)
    (hgap : asked.IsChain fun q q' => q'.time ≠ q.time + window) :
    ∃ bursts taken fresh, Keeping window now b₀ b asked served bursts taken fresh := by
  induction h with
  | start =>
    refine ⟨[], [], [], rfl, rfl, .nil, by simp, by simp, rfl, ?_⟩
    exact ⟨hrequests.symm, by simp, fun _ => rfl, by simp [hresorting], by simp, .nil⟩
  | act _ ha hs hd ih =>
    obtain ⟨bursts, taken, fresh, h⟩ := ih (List.isChain_append.mp hgap).1
    exact ⟨bursts, taken, _, h.act hw ha hs hd hgap⟩
  | @take now b _ _ _ ih =>
    obtain ⟨bursts, taken, fresh, h⟩ := ih hgap
    obtain ⟨taken', fresh', heq, hgathers⟩ := h.gathers.take
    have hcounted : (b.takeRequests now).resorts = b.resorts := by
      unfold takeRequests
      split <;> rfl
    refine ⟨bursts, taken', fresh', ?_, h.split, h.answered, h.past, ?_, ?_, hgathers⟩
    · rw [heq, h.asked]
    · rw [heq]
      exact h.apart
    · exact hcounted.trans h.counted
  | serve _ hr hdue ih =>
    obtain ⟨bursts, taken, fresh, h⟩ := ih hgap
    exact ⟨_, [], [], h.serve hr hdue⟩
  | wait _ hle hquiet hnext ih =>
    obtain ⟨bursts, taken, fresh, h⟩ := ih hgap
    refine ⟨bursts, taken, fresh, h.asked, h.split, h.answered, fun q hq => ?_, h.apart, h.counted,
      h.gathers.wait hquiet hnext⟩
    exact (h.past q hq).trans hle

theorem takeRequests_requests (b : Board) (now : Nat) : (b.takeRequests now).requests = [] := by
  unfold takeRequests
  split
  · next he => exact List.isEmpty_iff.mp he
  · rfl

theorem due_or_early (b : Board) (now : Nat) :
    (∃ r, b.resorting = some r ∧ r.due ≤ now) ∨ ∀ r, b.resorting = some r → now < r.due := by
  by_cases h : ∃ r, b.resorting = some r ∧ r.due ≤ now
  · exact .inl h
  · exact .inr fun r hr => Nat.lt_of_not_le fun hle => h ⟨r, hr, hle⟩

theorem stepResorting_settled (b : Board) (now : Nat) : (b.stepResorting now).requests = [] ∧
    ∀ r, (b.stepResorting now).resorting = some r → now < r.due := by
  have hempty := takeRequests_requests b now
  unfold stepResorting
  rcases (b.takeRequests now).due_or_early now with ⟨r, hr, hdue⟩ | hearly
  · rw [serveResorting_due hr hdue, (resort_waiting _ _).requests, (resort_waiting _ _).resorting]
    exact ⟨hempty, by simp⟩
  · rw [serveResorting_early hearly]
    exact ⟨hempty, hearly⟩

theorem resortReady_eq_false (hrequests : b.requests = [])
    (hearly : ∀ r, b.resorting = some r → now < r.due) : b.resortReady now = false := by
  rw [resortReady, hrequests]
  cases hr : b.resorting with
  | none => rfl
  | some r => simpa using hearly r hr

theorem Course.settle (h : Course window b₀ start now b asked served) :
    ∃ more, Course window b₀ start now (b.stepResorting now) asked (served ++ more) := by
  unfold stepResorting
  rcases (b.takeRequests now).due_or_early now with ⟨r, hr, hdue⟩ | hearly
  · exact ⟨_, h.take.serve hr hdue⟩
  · rw [serveResorting_early hearly]
    exact ⟨[], (List.append_nil served).symm ▸ h.take⟩

theorem Course.elapse (h : Course window b₀ start now b asked served) {target : Nat}
    (hle : now ≤ target) :
    ∃ more, Course window b₀ start target (b.elapse now target) asked (served ++ more) := by
  obtain ⟨more, hsettled⟩ := h.settle
  obtain ⟨hempty, hearly⟩ := b.stepResorting_settled now
  have hquiet := resortReady_eq_false hempty hearly
  unfold Board.elapse
  dsimp only
  cases hr : (b.stepResorting now).resorting with
  | none => exact ⟨more, hsettled.wait hle hquiet (by simp [hr])⟩
  | some r =>
    dsimp only
    by_cases hdue : r.due ≤ target
    · rw [if_pos hdue]
      have hreached := hsettled.wait (Nat.le_of_lt (hearly r hr)) hquiet fun r' hr' =>
        Nat.le_of_eq (congrArg Resorting.due (Option.some.inj (hr.symm.trans hr')))
      obtain ⟨more', hserved⟩ := hreached.settle
      have htaken : (b.stepResorting now).takeRequests r.due = b.stepResorting now := by
        rw [takeRequests, hempty]
        rfl
      have hnone : ((b.stepResorting now).stepResorting r.due).resorting = none := by
        rw [stepResorting, htaken, serveResorting_due hr (Nat.le_refl _)]
        exact (resort_waiting _ _).resorting
      obtain ⟨hempty', hearly'⟩ := (b.stepResorting now).stepResorting_settled r.due
      refine ⟨more ++ more', ?_⟩
      rw [← List.append_assoc]
      exact hserved.wait hdue (resortReady_eq_false hempty' hearly') (by simp [hnone])
    · rw [if_neg hdue]
      refine ⟨more, hsettled.wait hle hquiet fun r' hr' => ?_⟩
      cases hr.symm.trans hr'
      omega

/-- While delay order is on, the bursts that are over have been served by one re-sort each, the
window after their last request, and only a burst whose window is not over may be left. A re-sort
puts just the records of its burst into delay order. -/
theorem bursts_are_served_once (h : Course window b₀ start now b asked served) (hw : 0 < window)
    (hrequests : b₀.requests = []) (hresorting : b₀.resorting = none)
    (hgap : asked.IsChain fun q q' => q'.time ≠ q.time + window) :
    ∃ past left : List (List Asked),
      asked.splitBy (Asked.follows window) = past ++ left ∧ left.length ≤ 1 ∧
      (∀ burst ∈ left, ∀ last ∈ burst.getLast?, now ≤ last.time + window) ∧
      List.Forall₂ (Served.Answers window) past served ∧ b.resorts = b₀.resorts + past.length := by
  obtain ⟨bursts, taken, fresh, hk⟩ := h.keeping hw hrequests hresorting hgap
  have hcount : b.resorts = b₀.resorts + bursts.length := by
    rw [hk.counted, hk.answered.length_eq]
  have hsplit : asked.splitBy (Asked.follows window) =
      bursts ++ (taken ++ fresh).splitBy (Asked.follows window) := by
    rw [hk.asked, List.splitBy_append, hk.split]
    intro q hq q' hq'
    have := hk.apart q hq q' hq'
    rw [Asked.follows, decide_eq_false_iff_not]
    omega
  refine ⟨bursts, _, hsplit, ?_, ?_, hk.answered, hcount⟩
  · by_cases hne : taken ++ fresh = []
    · simp [hne]
    · simp [List.splitBy_of_isChain hne hk.gathers.burst]
  · intro burst hburst last hlast
    by_cases hne : taken ++ fresh = []
    · simp [hne] at hburst
    · rw [List.splitBy_of_isChain hne hk.gathers.burst, List.mem_singleton] at hburst
      exact hk.gathers.last_waits (hburst ▸ hlast)

def listed : Board :=
  (Board.publish {} 0 ⟨"auto", [⟨"p", .terminal, "", 50⟩, ⟨"q", .terminal, "", 20⟩], true, none⟩).1

theorem bursts_are_served_once_listed :
    ∃ b served, Course 200 listed 0 400 b [⟨0, 0⟩, ⟨50, 0⟩] served ∧
      served.map Served.time = [250] ∧ b.resorts = 1 := by
  have hstart : Course 200 listed 0 0 listed [] [] := .start
  have hfirst := hstart.act (a := .sortByDelay true) rfl (by decide) (by decide)
  rw [show listed.requested (.sortByDelay true) = [0] by decide] at hfirst
  obtain ⟨_, hfirst⟩ := hfirst.elapse (show 0 ≤ 50 by decide)
  have hsecond := hfirst.act (a := .updateDelay 0 "p" 300) rfl (by decide) (by decide)
  rw [show ((listed.perform (.sortByDelay true)).elapse 0 50).requested (.updateDelay 0 "p" 300) =
    [0] by decide] at hsecond
  obtain ⟨_, hsecond⟩ := hsecond.elapse (show 50 ≤ 400 by decide)
  refine ⟨_, _, hsecond, ?_⟩
  obtain ⟨past, left, hsplit, -, hleft, hserved, hcount⟩ :=
    bursts_are_served_once hsecond (by decide) (by decide) (by decide) (by decide)
  have hone : past ++ left = [[⟨0, 0⟩, ⟨50, 0⟩]] := hsplit.symm.trans (by decide)
  rcases List.append_eq_singleton_iff.mp hone with ⟨rfl, rfl⟩ | ⟨rfl, rfl⟩
  · -- the window of the burst is over
    exact absurd (hleft _ List.mem_cons_self ⟨50, 0⟩ rfl) (by decide)
  · refine ⟨?_, hcount.trans (by decide)⟩
    obtain ⟨s, rest, ⟨last, hlast, htime, -⟩, hrest, heq⟩ := List.forall₂_cons_left_iff.mp hserved
    obtain rfl := List.forall₂_nil_left_iff.mp hrest
    cases hlast
    rw [heq]
    exact congrArg (fun time => [time]) htime

end Board

end ProxyPulse
