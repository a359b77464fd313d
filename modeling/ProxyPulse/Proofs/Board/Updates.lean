import ProxyPulse.Proofs.Board.DelayOrder
import ProxyPulse.Proofs.Registry.Delays

namespace ProxyPulse

namespace Record

def unrevised (r : Record) : Record :=
  { r with revision := 0 }

def news (r : Record) (entries : List (String × Int)) : List (String × Int) :=
  entries.filter fun entry => r.differs entry.1 entry.2

def withEach (r : Record) (entries : List (String × Int)) : Record :=
  entries.foldl (fun r entry => r.withDelay entry.1 entry.2) r

theorem withDelays?_eq (r : Record) (delays : DelayTable) : r.withDelays? delays =
    if r.news delays.toList = [] then none else some (r.withEach (r.news delays.toList)) := by
  simp only [← List.isEmpty_iff]
  rfl

end Record

namespace Board

def shownAt (b : Board) (index : Nat) : Option Record :=
  b.records[index]?.map Record.unrevised

inductive Update where
  | publish (g : Group)
  | delay (name : String) (delay : Int)
  | delays (delays : DelayTable)
  | testing (testing : Bool)
  | selection (now : String)

def update (b : Board) (index : Nat) : Update → Board × Bool
  | .publish g => b.publish index g
  | .delay name delay => b.updateDelay index name delay
  | .delays delays => b.updateDelays index delays
  | .testing testing => b.setTesting index testing
  | .selection now => b.setSelection index now

/-- The records of some indices were replaced, one after the other, and nothing else: each has
something new to tell, the next revision, and an event of its own. -/
structure Replaces (changed : List Nat) (b b' : Board) : Prop where
  distinct : changed.Nodup
  news : ∀ i, i ∈ changed ↔ b'.shownAt i ≠ b.shownAt i
  others : ∀ i, i ∉ changed → b'.records[i]? = b.records[i]?
  revision : b'.revision = b.revision + changed.length
  events : b'.events =
    ((changed.zipIdx (b.revision + 1)).map fun (i, revision) => .updated i revision).reverse ++
      b.events

variable {b b' b'' : Board} {changed changed' : List Nat} {index : Nat}

theorem SameRecords.replaces (h : SameRecords b b') : Replaces [] b b' where
  distinct := .nil
  news i := by simp [shownAt, h.records]
  others i _ := by rw [h.records]
  revision := h.revision
  events := h.events

theorem Replaces.trans (h : Replaces changed b b') (h' : Replaces changed' b' b'')
    (hd : changed.Disjoint changed') : Replaces (changed ++ changed') b b'' where
  distinct := List.nodup_append'.mpr ⟨h.distinct, h'.distinct, hd⟩
  news i := by
    rw [List.mem_append]
    by_cases hi : i ∈ changed
    · have hlater : b''.shownAt i = b'.shownAt i := by
        rw [shownAt, h'.others i (hd hi), shownAt]
      simp only [hi, true_or, true_iff, hlater]
      exact (h.news i).mp hi
    · have hbefore : b'.shownAt i = b.shownAt i := by rw [shownAt, h.others i hi, shownAt]
      simp only [hi, false_or, h'.news i, hbefore]
  others i hi := by
    obtain ⟨hfirst, hlast⟩ := not_or.mp (mt List.mem_append.mpr hi)
    rw [h'.others i hlast, h.others i hfirst]
  revision := by rw [h'.revision, h.revision, List.length_append, Nat.add_assoc]
  events := by
    rw [h'.events, h.events, h.revision, List.zipIdx_append, List.map_append, List.reverse_append,
      List.append_assoc, Nat.add_right_comm]

theorem shownAt_put (b : Board) (cause : PublishCause) (r : Record) (i : Nat) :
    (b.put cause r).shownAt i = if i = r.index then some r.unrevised else b.shownAt i := by
  rw [shownAt, records_put]
  split <;> rfl

theorem put_replaces (b : Board) (cause : PublishCause) {r : Record}
    (h : b.shownAt r.index ≠ some r.unrevised) : Replaces [r.index] b (b.put cause r) where
  distinct := List.nodup_singleton _
  news i := by
    rw [List.mem_singleton, shownAt_put]
    split
    · next hi => exact iff_of_true hi (hi ▸ h.symm)
    · next hi => exact iff_of_false hi (fun hne => hne rfl)
  others i hi := by rw [records_put, if_neg (by simpa using hi)]
  revision := rfl
  events := rfl

structure Told (b : Board) (index : Nat) (x : Board × Bool) : Prop where
  replaces : Replaces (if x.2 then [index] else []) b x.1
  quiet : x.2 = false → x.1 = b

theorem told_quiet (b : Board) (index : Nat) : Told b index (b, false) where
  replaces := SameRecords.replaces ⟨rfl, rfl, rfl, rfl⟩
  quiet _ := rfl

theorem told_put {r : Record} (cause : PublishCause) (hi : r.index = index)
    (h : b.shownAt index ≠ some r.unrevised) : Told b index (b.put cause r, true) where
  replaces := hi ▸ put_replaces b cause (hi ▸ h)
  quiet h := nomatch h

def Differs (change : Record → Option Record) : Prop :=
  ∀ r next, change r = some next →
    next.group ≠ r.group ∨ next.links ≠ r.links ∨ next.testing ≠ r.testing

def Settles (change : Record → Option Record) : Prop :=
  ∀ r next, change r = some next →
    ∀ i revision, change { next with index := i, revision } = none

variable {change : Record → Option Record} {cause : PublishCause}

theorem modify_told (b : Board) (index : Nat) (cause : PublishCause) (h : Differs change) :
    Told b index (b.modify index cause change) := by
  rcases modify_cases b index cause change with he | ⟨r, next, hr, hc, he⟩ <;> rw [he]
  · exact told_quiet b index
  · refine told_put cause rfl fun hsame => ?_
    rw [shownAt, hr] at hsame
    have hsame : r.unrevised = { next with index }.unrevised := Option.some.inj hsame
    rcases h r next hc with hne | hne | hne
    · exact hne (congrArg Record.group hsame).symm
    · exact hne (congrArg Record.links hsame).symm
    · exact hne (congrArg Record.testing hsame).symm

theorem modify_of_none (cause : PublishCause) (h : b.records[index]?.bind change = none) :
    b.modify index cause change = (b, false) := by
  rw [modify, h]

theorem modify_settled (b : Board) (index : Nat) (cause : PublishCause) (h : Settles change) :
    (b.modify index cause change).1.records[index]?.bind change = none := by
  rcases modify_cases b index cause change with he | ⟨r, next, hr, hc, he⟩
  · rw [he]
    by_contra hsome
    obtain ⟨next, hnext⟩ := Option.ne_none_iff_exists'.mp hsome
    rw [modify, hnext] at he
    exact Bool.false_ne_true (congrArg Prod.snd he).symm
  · rw [he, records_put, if_pos rfl, Option.bind_some]
    exact h r next hc _ _

theorem modifyDelays_told (b : Board) (index : Nat) (h : Differs change) :
    Told b index (b.modifyDelays index change) := by
  have hm := modify_told b index .delay h
  unfold modifyDelays
  rcases he : b.modify index .delay change with ⟨b', changed⟩
  rw [he] at hm
  cases changed with
  | false => exact hm
  | true => exact ⟨hm.replaces.trans (requestResort_same b' index).replaces (by simp), nofun⟩

theorem modifyDelays_again (b : Board) (index : Nat) (h : Settles change) :
    (b.modifyDelays index change).1.modifyDelays index change =
      ((b.modifyDelays index change).1, false) := by
  have hsettled := modify_settled b index .delay h
  have hsame : (b.modifyDelays index change).1.records = (b.modify index .delay change).1.records := by
    unfold modifyDelays
    dsimp only
    split
    · exact (requestResort_same _ _).records
    · rfl
  rw [← hsame] at hsettled
  generalize (b.modifyDelays index change).1 = b' at hsettled
  simp [modifyDelays, modify_of_none .delay hsettled]

theorem differs_iff {r : Record} {name : String} {delay : Int} :
    r.differs name delay = true ↔ ∃ l, r.links[name]? = some l ∧ l.delay ≠ delay := by
  simp [Record.differs, Option.any_eq_true]

theorem withDelays?_eq_none_iff {r : Record} {delays : DelayTable} :
    r.withDelays? delays = none ↔
      ∀ name delay, delays[name]? = some delay → r.differs name delay = false := by
  have hnews : r.news delays.toList = [] ↔
      ∀ name delay, delays[name]? = some delay → r.differs name delay = false := by
    simp [Record.news, List.filter_eq_nil_iff, Std.ExtTreeMap.mem_toList_iff_getElem?_eq_some]
  rw [← hnews, Record.withDelays?_eq]
  split
  · next h => exact iff_of_true rfl h
  · next h => exact iff_of_false (Option.some_ne_none _) h

theorem withDelay_differs {r next : Record} {name : String} {delay : Int}
    (hd : r.differs name delay = true)
    (hl : next.links[name]? = r.links[name]?.map ({ · with delay := delay })) :
    next.links ≠ r.links := by
  obtain ⟨l, hold, hne⟩ := differs_iff.mp hd
  rw [hold, Option.map_some] at hl
  intro heq
  rw [heq, hold] at hl
  exact hne (congrArg Link.delay (Option.some.inj hl))

theorem withDelay_settled {r next : Record} {name : String} {delay : Int}
    (hl : next.links[name]? = r.links[name]?.map ({ · with delay := delay })) :
    next.differs name delay = false := by
  rw [Record.differs, hl, Option.any_map]
  simp

theorem delay_links (r : Record) (name : String) (delay : Int) :
    (r.withDelay name delay).links[name]? = r.links[name]?.map ({ · with delay := delay }) :=
  (r.withDelay_links name delay name).trans (if_pos rfl)

theorem delays_links {r next : Record} {delays : DelayTable} (h : r.withDelays? delays = some next)
    {name : String} {delay : Int} (hd : delays[name]? = some delay) :
    next.links[name]? = r.links[name]?.map ({ · with delay := delay }) := by
  have hl := r.withDelays_links delays name
  rwa [h, hd] at hl

def showsAs (b : Board) (index : Nat) (g : Group) : Bool :=
  b.records[index]?.any (·.group == b.arrange g)

theorem publish_eq (b : Board) (index : Nat) (g : Group) : b.publish index g =
    if b.showsAs index g then (b, false)
    else (b.put .topology ⟨index, b.arrange g, linksFor (b.arrange g).members,
      b.records[index]?.any fun r => r.group.name == g.name && r.testing, 0⟩, true) := by
  unfold publish
  dsimp only
  rw [arrange_name]
  rfl

theorem publish_told (b : Board) (index : Nat) (g : Group) : Told b index (b.publish index g) := by
  rw [publish_eq]
  split
  · exact told_quiet b index
  · next hnew =>
    refine told_put .topology rfl fun hshown => hnew ?_
    obtain ⟨r, hr, hsame⟩ := Option.map_eq_some_iff.mp hshown
    have hgroup : r.group = b.arrange g := congrArg Record.group hsame
    simp [showsAs, hr, hgroup]

theorem publish_again (b : Board) (index : Nat) (g : Group) :
    (b.publish index g).1.publish index g = ((b.publish index g).1, false) := by
  have hshown : (b.publish index g).1.showsAs index g = true := by
    rw [showsAs, arrange, sortsByDelay, publish_config, ← sortsByDelay, ← arrange, publish_eq]
    split
    · next hsame => exact hsame
    · rw [records_put, if_pos rfl]
      exact beq_self_eq_true (b.arrange g)
  generalize (b.publish index g).1 = b' at hshown
  rw [publish_eq, hshown, if_pos rfl]

theorem update_told (b : Board) (index : Nat) (u : Update) : Told b index (b.update index u) := by
  cases u with
  | publish g => exact publish_told b index g
  | delay name delay =>
    refine modifyDelays_told b index fun r next h => ?_
    split at h
    · next hd =>
      cases h
      exact .inr (.inl (withDelay_differs hd (delay_links r name delay)))
    · cases h
  | delays delays =>
    refine modifyDelays_told b index fun r next h => .inr (.inl ?_)
    have hnews : ∃ name delay, delays[name]? = some delay ∧ r.differs name delay = true := by
      by_contra hnone
      push Not at hnone
      have hnone : r.withDelays? delays = none :=
        withDelays?_eq_none_iff.mpr fun name delay hd => by simpa using hnone name delay hd
      rw [hnone] at h
      cases h
    obtain ⟨name, delay, hd, hdiffers⟩ := hnews
    exact withDelay_differs hdiffers (delays_links h hd)
  | testing testing =>
    refine modify_told b index .testing fun r next h => ?_
    split at h
    · cases h
    · next hne => cases h; exact .inr (.inr (Ne.symm hne))
  | selection now =>
    refine modify_told b index .selection fun r next h => ?_
    split at h
    · cases h
    · next hne =>
      cases h
      exact .inl fun heq => hne (congrArg Group.now heq).symm

theorem update_again (b : Board) (index : Nat) (u : Update) :
    (b.update index u).1.update index u = ((b.update index u).1, false) := by
  cases u with
  | publish g => exact publish_again b index g
  | delay name delay =>
    refine modifyDelays_again b index fun r next h i revision => ?_
    split at h
    · cases h
      exact if_neg (Bool.eq_false_iff.mp (withDelay_settled (delay_links r name delay)))
    · cases h
  | delays delays =>
    refine modifyDelays_again b index fun r next h i revision => ?_
    exact withDelays?_eq_none_iff.mpr fun name delay hd => withDelay_settled (delays_links h hd)
  | testing testing =>
    refine modify_of_none .testing (modify_settled b index .testing fun r next h i revision => ?_)
    split at h
    · cases h
    · cases h; exact if_pos rfl
  | selection now =>
    refine modify_of_none .selection
      (modify_settled b index .selection fun r next h i revision => ?_)
    split at h
    · cases h
    · cases h; exact if_pos rfl

theorem resortRecord_replaces (b : Board) (index : Nat) :
    ∃ changed, Replaces changed b (b.resortRecord index) ∧ changed ⊆ [index] := by
  have hdiffers : Differs fun r =>
      if sortProxies .delay r.group.members = r.group.members then none
      else some { r with group.members := sortProxies .delay r.group.members } := by
    intro r next h
    dsimp only at h
    split at h
    · cases h
    · next hne =>
      cases h
      exact .inl fun heq => hne (congrArg Group.members heq)
  refine ⟨_, (modify_told b index .resort hdiffers).replaces, ?_⟩
  split
  · exact List.Subset.refl _
  · exact List.nil_subset _

theorem resortRecords_replaces {indices : List Nat} (hd : indices.Nodup) (b : Board) :
    ∃ changed, Replaces changed b (indices.foldl resortRecord b) ∧ changed ⊆ indices := by
  induction indices generalizing b with
  | nil => exact ⟨[], SameRecords.replaces ⟨rfl, rfl, rfl, rfl⟩, List.nil_subset _⟩
  | cons i rest ih =>
    obtain ⟨hi, hrest⟩ := List.nodup_cons.mp hd
    obtain ⟨changed, hfirst, hself⟩ := resortRecord_replaces b i
    obtain ⟨later, hlater, hsub⟩ := ih hrest (b.resortRecord i)
    refine ⟨changed ++ later, hfirst.trans hlater fun j hj hl => ?_, List.append_subset.mpr
      ⟨fun j hj => ?_, List.subset_cons_of_subset i hsub⟩⟩
    · exact hi (List.mem_singleton.mp (hself hj) ▸ hsub hl)
    · exact List.mem_singleton.mp (hself hj) ▸ List.mem_cons_self

theorem toList_nodup (indices : Std.ExtTreeSet Nat) : indices.toList.Nodup := by
  refine Std.ExtTreeSet.distinct_toList.imp fun h he => h ?_
  rw [he, Std.compare_self]

theorem resort_replaces (b : Board) (indices : Std.ExtTreeSet Nat) :
    ∃ changed, Replaces changed b (b.resort indices) ∧ ∀ i ∈ changed, i ∈ indices := by
  unfold resort
  split
  · have hcount : SameRecords b ({ b with resorts := b.resorts + 1 }.measure .resorted) :=
      ⟨rfl, rfl, rfl, rfl⟩
    obtain ⟨changed, hreplaces, hsub⟩ := resortRecords_replaces (toList_nodup indices) _
    exact ⟨changed, hcount.replaces.trans hreplaces (List.disjoint_nil_left _),
      fun i hi => Std.ExtTreeSet.mem_toList.mp (hsub hi)⟩
  · exact ⟨[], SameRecords.replaces ⟨rfl, rfl, rfl, rfl⟩, nofun⟩

theorem sortProxies_of_inDelayOrder {members : List Proxy} (h : InDelayOrder members) :
    sortProxies .delay members = members :=
  List.mergeSort_of_pairwise (inDelayOrder_iff.mp h)

theorem resortRecords_idle {indices : List Nat}
    (h : ∀ i ∈ indices, ∀ x : Record, b.records[i]? = some x → InDelayOrder x.group.members) :
    indices.foldl resortRecord b = b := by
  induction indices with
  | nil => rfl
  | cons i rest ih =>
    obtain ⟨hi, hrest⟩ := List.forall_mem_cons.mp h
    have hfirst : b.resortRecord i = b := by
      cases hx : b.records[i]? with
      | none => simp [resortRecord, modify, hx]
      | some x => simp [resortRecord, modify, hx, sortProxies_of_inDelayOrder (hi x hx)]
    rw [List.foldl_cons, hfirst, ih hrest]

theorem resort_again (b : Board) (indices : Std.ExtTreeSet Nat) :
    SameRecords (b.resort indices) ((b.resort indices).resort indices) := by
  by_cases hs : b.sortsByDelay = true
  · have hon : (b.resort indices).sortsByDelay = true := by
      rw [sortsByDelay, resort, if_pos hs, resortRecords_config]
      exact hs
    have horder : ∀ i ∈ indices.toList, ∀ x : Record,
        (b.resort indices).records[i]? = some x → InDelayOrder x.group.members := by
      intro i hi x hx
      rw [resort, if_pos hs] at hx
      exact (resortRecords_inOrder hx).resolve_right fun hnot => hnot.1 hi
    generalize b.resort indices = b' at hon horder ⊢
    have hidle := resortRecords_idle
      (b := { b' with resorts := b'.resorts + 1 }.measure .resorted) horder
    rw [resort, if_pos hon, hidle]
    exact ⟨rfl, rfl, rfl, rfl⟩
  · have hoff : b.resort indices = b := if_neg hs
    rw [hoff, hoff]
    exact ⟨rfl, rfl, rfl, rfl⟩

/-- Whatever is written to the record of an index, it says so, and it is announced once, exactly if
something but its revision differs afterwards, be it that there was no record before; otherwise
nothing happens at all. A re-sort replaces and announces exactly the records that it puts into another
order. And what is done twice in a row is no news the second time. -/
theorem announced_iff_changed (b : Board) :
    (∀ index u, let x := b.update index u
      (x.2 = true ↔ x.1.shownAt index ≠ b.shownAt index) ∧
      Replaces (if x.2 then [index] else []) b x.1 ∧ (x.2 = false → x.1 = b) ∧
      x.1.update index u = (x.1, false)) ∧
    ∀ indices, (∃ changed, Replaces changed b (b.resort indices) ∧ ∀ i ∈ changed, i ∈ indices) ∧
      SameRecords (b.resort indices) ((b.resort indices).resort indices) := by
  refine ⟨fun index u => ?_, fun indices => ⟨resort_replaces b indices, resort_again b indices⟩⟩
  obtain ⟨hreplaces, hquiet⟩ := update_told b index u
  refine ⟨?_, hreplaces, hquiet, update_again b index u⟩
  rw [← hreplaces.news index]
  cases (b.update index u).2 <;> simp

end Board

end ProxyPulse
