import Mathlib.Logic.Relation
import Mathlib.Data.List.Range
import ProxyPulse.Proofs.Board

namespace ProxyPulse

namespace StateEvent

def follow (known : Std.ExtTreeMap Nat Nat) : StateEvent → Std.ExtTreeMap Nat Nat
  | .updated index revision => known.insert index revision
  | .removed index => known.erase index
  | .reset => ∅

def revision? : StateEvent → Option Nat
  | .updated _ revision => some revision
  | _ => none

def isUpdate (event : StateEvent) : Bool :=
  event.revision?.isSome

def isUpdateOf (index : Nat) : StateEvent → Bool
  | .updated i _ => i == index
  | _ => false

end StateEvent

namespace Board

inductive Act where
  | publish (index : Nat) (g : Group)
  | updateDelay (index : Nat) (name : String) (delay : Int)
  | updateDelays (index : Nat) (delays : DelayTable)
  | setTesting (index : Nat) (testing : Bool)
  | setSelection (index : Nat) (now : String)
  | remove (index : Nat)
  | reset
  | sortByDelay (on : Bool)
  | configure (next : Config)
  | takeRequests (now : Nat)
  | serveResorting (now : Nat)

def perform (b : Board) : Act → Board
  | .publish index g => (b.publish index g).1
  | .updateDelay index name delay => (b.updateDelay index name delay).1
  | .updateDelays index delays => (b.updateDelays index delays).1
  | .setTesting index testing => (b.setTesting index testing).1
  | .setSelection index now => (b.setSelection index now).1
  | .remove index => (b.remove index).1
  | .reset => b.reset
  | .sortByDelay on => b.setSortByDelay on
  | .configure next => b.configure next
  | .takeRequests now => b.takeRequests now
  | .serveResorting now => b.serveResorting now

inductive Change (b : Board) : Board → Prop
  | aside {b' : Board} : SameRecords b b' → Change b b'
  | put (cause : PublishCause) (r : Record) : Change b (b.put cause r)
  | remove (index : Nat) :
    Change b ({ b with records := b.records.erase index }.emit (.removed index))
  | reset : Change b b.reset

def Changes : Board → Board → Prop :=
  Relation.ReflTransGen Change

variable {b b' : Board}

theorem Changes.refl (b : Board) : Changes b b :=
  Relation.ReflTransGen.refl

theorem Changes.trans {b'' : Board} (h : Changes b b') (h' : Changes b' b'') : Changes b b'' :=
  Relation.ReflTransGen.trans h h'

theorem Change.changes (h : Change b b') : Changes b b' :=
  Relation.ReflTransGen.single h

theorem SameRecords.changes (h : SameRecords b b') : Changes b b' :=
  (Change.aside h).changes

theorem modify_changes (b : Board) (index : Nat) (cause : PublishCause)
    (change : Record → Option Record) : Changes b (b.modify index cause change).1 := by
  rcases modify_cases b index cause change with he | ⟨r, next, _, _, he⟩ <;> rw [he]
  · exact .refl b
  · exact (Change.put cause _).changes

theorem modifyDelays_changes (b : Board) (index : Nat) (change : Record → Option Record) :
    Changes b (b.modifyDelays index change).1 := by
  have hm := modify_changes b index .delay change
  unfold modifyDelays
  dsimp only
  split
  · exact hm.trans (requestResort_same _ _).changes
  · exact hm

theorem publish_changes (b : Board) (index : Nat) (g : Group) :
    Changes b (b.publish index g).1 := by
  rcases publish_cases b index g with he | he <;> rw [he]
  · exact .refl b
  · exact (Change.put .topology _).changes

theorem remove_changes (b : Board) (index : Nat) : Changes b (b.remove index).1 := by
  unfold remove
  split
  · exact (Change.remove index).changes
  · exact .refl b

theorem resortRecords_changes (indices : List Nat) (b : Board) :
    Changes b (indices.foldl resortRecord b) := by
  induction indices generalizing b with
  | nil => exact .refl b
  | cons i rest ih => exact (modify_changes b i .resort _).trans (ih _)

theorem resort_changes (b : Board) (indices : Std.ExtTreeSet Nat) :
    Changes b (b.resort indices) := by
  unfold resort
  split
  · have hs : SameRecords b ({ b with resorts := b.resorts + 1 }.measure .resorted) :=
      ⟨rfl, rfl, rfl, rfl⟩
    exact hs.changes.trans (resortRecords_changes _ _)
  · exact .refl b

theorem serveResorting_changes (b : Board) (now : Nat) : Changes b (b.serveResorting now) := by
  unfold serveResorting
  cases b.resorting with
  | none => exact .refl b
  | some r =>
    dsimp only
    split
    · have hs : SameRecords b { b with resorting := none } := ⟨rfl, rfl, rfl, rfl⟩
      exact hs.changes.trans (resort_changes _ _)
    · exact .refl b

theorem perform_changes (b : Board) (a : Act) : Changes b (b.perform a) := by
  cases a with
  | publish index g => exact publish_changes b index g
  | updateDelay index name delay => exact modifyDelays_changes b index _
  | updateDelays index delays => exact modifyDelays_changes b index _
  | setTesting index testing => exact modify_changes b index _ _
  | setSelection index now => exact modify_changes b index _ _
  | remove index => exact remove_changes b index
  | reset => exact Change.reset.changes
  | sortByDelay on => exact (setSortByDelay_same b on).changes
  | configure next => exact (configure_same b next).changes
  | takeRequests now => exact (takeRequests_same b now).changes
  | serveResorting now => exact serveResorting_changes b now

def known (b : Board) : Std.ExtTreeMap Nat Nat :=
  b.events.reverse.foldl StateEvent.follow ∅

def announced (b : Board) : List Nat :=
  b.events.reverse.filterMap StateEvent.revision?

structure Announces (b : Board) : Prop where
  known : b.known = b.records.map fun _ r => r.revision
  announced : b.announced = List.range' 1 b.revision
  past : ∀ (i : Nat) (r : Record), b.records[i]? = some r → r.revision ≤ b.revision
  publications : b.publications = b.revision

theorem known_cons {event : StateEvent} (h : b'.events = event :: b.events) :
    b'.known = StateEvent.follow b.known event := by
  rw [Board.known, h, List.reverse_cons, List.foldl_append]
  rfl

theorem announced_cons {event : StateEvent} (h : b'.events = event :: b.events) :
    b'.announced = b.announced ++ event.revision?.toList := by
  rw [Board.announced, h, List.reverse_cons, List.filterMap_append]
  cases event <;> rfl

theorem SameRecords.announces (hs : SameRecords b b') (h : b.Announces) : b'.Announces where
  known := by rw [Board.known, hs.events, hs.records]; exact h.known
  announced := by rw [Board.announced, hs.events, hs.revision]; exact h.announced
  past i r hr := by rw [hs.revision]; exact h.past i r (hs.records ▸ hr)
  publications := by rw [hs.publications, hs.revision, h.publications]

theorem Announces.put (h : b.Announces) (cause : PublishCause) (r : Record) :
    (b.put cause r).Announces where
  known := by
    rw [known_cons (b := b) rfl, h.known]
    refine Std.ExtTreeMap.ext_getElem? fun j => ?_
    simp only [StateEvent.follow, Std.ExtTreeMap.getElem?_insert, Std.ExtTreeMap.getElem?_map,
      records_put, Nat.compare_eq_eq, eq_comm (a := j)]
    split <;> rfl
  announced := by
    rw [announced_cons (b := b) rfl, h.announced]
    show List.range' 1 b.revision ++ [b.revision + 1] = List.range' 1 (b.revision + 1)
    rw [List.range'_1_concat, Nat.add_comm]
  past i x hx := by
    rw [records_put] at hx
    split at hx
    · rw [← Option.some.inj hx]
      exact Nat.le_refl _
    · exact Nat.le_succ_of_le (h.past i x hx)
  publications := by
    rw [Board.publications, Board.put, List.countP_cons_of_pos rfl]
    exact congrArg (· + 1) h.publications

theorem Announces.remove (h : b.Announces) (index : Nat) :
    ({ b with records := b.records.erase index }.emit (.removed index)).Announces where
  known := by
    rw [known_cons (b := b) rfl, h.known]
    refine Std.ExtTreeMap.ext_getElem? fun j => ?_
    simp only [StateEvent.follow, Std.ExtTreeMap.getElem?_erase, Std.ExtTreeMap.getElem?_map, emit]
    split <;> rfl
  announced := by
    rw [announced_cons (b := b) rfl, h.announced]
    exact List.append_nil _
  past i x hx := by
    simp only [emit, Std.ExtTreeMap.getElem?_erase] at hx
    split at hx
    · cases hx
    · exact h.past i x hx
  publications := h.publications

theorem Announces.reset (h : b.Announces) : b.reset.Announces where
  known := by
    rw [known_cons (b := b) rfl]
    refine Std.ExtTreeMap.ext_getElem? fun j => ?_
    simp [StateEvent.follow, Board.reset, emit]
  announced := by
    rw [announced_cons (b := b) rfl, h.announced]
    exact List.append_nil _
  past i x hx := by simp [Board.reset, emit] at hx
  publications := h.publications

theorem Change.announces (hc : Change b b') (h : b.Announces) : b'.Announces := by
  cases hc with
  | aside hs => exact hs.announces h
  | put cause r => exact h.put cause r
  | remove index => exact h.remove index
  | reset => exact h.reset

theorem Changes.announces (hc : Changes b b') (h : b.Announces) : b'.Announces := by
  induction hc with
  | refl => exact h
  | tail _ hc ih => exact hc.announces ih

theorem new_announces (config : Config) : Announces { config } where
  known := by
    refine Std.ExtTreeMap.ext_getElem? fun j => ?_
    simp [Board.known]
  announced := rfl
  past i r hr := by simp at hr
  publications := rfl

theorem performs_announces (acts : List Act) (h : b.Announces) :
    (acts.foldl perform b).Announces := by
  induction acts generalizing b with
  | nil => exact h
  | cons a rest ih => exact ih ((perform_changes b a).announces h)

theorem length_announced (b : Board) : b.announced.length = b.events.countP StateEvent.isUpdate := by
  rw [announced, List.length_filterMap_eq_countP, List.countP_reverse]
  rfl

theorem Announces.grows (h : b.Announces) (index : Nat) :
    ((b.events.reverse.filter (StateEvent.isUpdateOf index)).filterMap
      StateEvent.revision?).Pairwise (· < ·) := by
  have hs : List.Sublist ((b.events.reverse.filter (StateEvent.isUpdateOf index)).filterMap
      StateEvent.revision?) b.announced := List.filter_sublist.filterMap _
  rw [h.announced] at hs
  exact List.Pairwise.sublist hs (List.pairwise_lt_range' ..)

/-- Whatever is done to a board, its events tell the revision of every record; the revisions that
are announced count up from one; and each of them stands for one publication. -/
theorem events_tell_everything (config : Config) (acts : List Act) :
    let b := acts.foldl perform { config }
    b.events.reverse.foldl StateEvent.follow ∅ = b.records.map (fun _ r => r.revision) ∧
    b.events.reverse.filterMap StateEvent.revision? =
      List.range' 1 (b.events.countP StateEvent.isUpdate) ∧
    (∀ index, ((b.events.reverse.filter (StateEvent.isUpdateOf index)).filterMap
      StateEvent.revision?).Pairwise (· < ·)) ∧
    b.events.countP StateEvent.isUpdate =
      (PublishCause.all.map fun c =>
        (Metrics.ofLog b.measurements).count (Measurement.published c).series).sum := by
  intro b
  have h : b.Announces := performs_announces acts (new_announces config)
  have hn : b.events.countP StateEvent.isUpdate = b.revision := by
    rw [← length_announced, h.announced, List.length_range']
  refine ⟨h.known, ?_, h.grows, ?_⟩
  · rw [hn]
    exact h.announced
  · rw [hn, Metrics.sum_published]
    exact h.publications.symm

end Board

end ProxyPulse
