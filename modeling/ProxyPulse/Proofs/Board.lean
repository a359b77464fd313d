import ProxyPulse.Board
import ProxyPulse.Proofs.Measurement

namespace ProxyPulse.Board

def tag (b : Board) (index : Nat) : Option (String × Bool) :=
  b.records[index]?.map fun r => (r.group.name, r.testing)

def content (b : Board) (index : Nat) : Option (Group × LinkTable) :=
  b.records[index]?.map fun r => (r.group, r.links)

def Indexed (b : Board) : Prop :=
  ∀ i (r : Record), b.records[i]? = some r → r.index = i

structure Keeps (b b' : Board) : Prop where
  tags : ∀ i, b'.tag i = b.tag i
  indexed : b.Indexed → b'.Indexed
  events : b.events <:+ b'.events

theorem Keeps.refl (b : Board) : Keeps b b :=
  ⟨fun _ => rfl, id, List.suffix_refl _⟩

theorem Keeps.trans {b c d : Board} (h : Keeps b c) (h' : Keeps c d) : Keeps b d :=
  ⟨fun i => (h'.tags i).trans (h.tags i), h'.indexed ∘ h.indexed, h.events.trans h'.events⟩

def publications (b : Board) : Nat :=
  b.measurements.countP Measurement.isPublication

structure SameRecords (b b' : Board) : Prop where
  records : b'.records = b.records
  revision : b'.revision = b.revision
  events : b'.events = b.events
  publications : b'.publications = b.publications

theorem SameRecords.trans {b c d : Board} (h : SameRecords b c) (h' : SameRecords c d) :
    SameRecords b d :=
  ⟨h'.records.trans h.records, h'.revision.trans h.revision, h'.events.trans h.events,
    h'.publications.trans h.publications⟩

theorem SameRecords.keeps {b b' : Board} (h : SameRecords b b') : Keeps b b' where
  tags i := by simp only [tag, h.records]
  indexed hb i r hr := hb i r (h.records ▸ hr)
  events := h.events ▸ List.suffix_refl _

theorem SameRecords.content {b b' : Board} (h : SameRecords b b') (i : Nat) :
    b'.content i = b.content i := by
  simp only [Board.content, h.records]

theorem records_put (b : Board) (cause : PublishCause) (r : Record) (j : Nat) :
    (b.put cause r).records[j]? =
      if j = r.index then some { r with revision := b.revision + 1 } else b.records[j]? := by
  simp only [put, Std.ExtTreeMap.getElem?_insert, Nat.compare_eq_eq, eq_comm (a := j)]

theorem tag_put (b : Board) (cause : PublishCause) (r : Record) (j : Nat) :
    (b.put cause r).tag j = if j = r.index then some (r.group.name, r.testing) else b.tag j := by
  simp only [tag, records_put]
  split <;> rfl

theorem put_indexed {b : Board} (hb : b.Indexed) (cause : PublishCause) (r : Record) :
    (b.put cause r).Indexed := by
  intro i x hx
  rw [records_put] at hx
  split at hx
  · next h => rw [← Option.some.inj hx, h]
  · exact hb i x hx

theorem put_keeps {b : Board} (cause : PublishCause) {r : Record}
    (h : b.tag r.index = some (r.group.name, r.testing)) : Keeps b (b.put cause r) where
  tags j := by
    rw [tag_put]
    split
    · next hj => rw [hj, h]
    · rfl
  indexed hb := put_indexed hb cause r
  events := ⟨[.updated r.index (b.revision + 1)], rfl⟩

theorem modify_cases (b : Board) (index : Nat) (cause : PublishCause)
    (change : Record → Option Record) :
    b.modify index cause change = (b, false) ∨
      ∃ r next, b.records[index]? = some r ∧ change r = some next ∧
        b.modify index cause change = (b.put cause { next with index := index }, true) := by
  cases hr : b.records[index]? with
  | none => exact .inl (by simp [modify, hr])
  | some r =>
    cases hc : change r with
    | none => exact .inl (by simp [modify, hr, hc])
    | some next => exact .inr ⟨r, next, rfl, hc, by simp [modify, hr, hc]⟩

theorem modify_keeps (b : Board) (index : Nat) (cause : PublishCause)
    {change : Record → Option Record}
    (h : ∀ r next, change r = some next →
      next.group.name = r.group.name ∧ next.testing = r.testing) :
    Keeps b (b.modify index cause change).1 := by
  rcases modify_cases b index cause change with he | ⟨r, next, hr, hc, he⟩
  · rw [he]; exact .refl b
  · rw [he]
    apply put_keeps
    obtain ⟨hn, ht⟩ := h r next hc
    simp [tag, hr, hn, ht]

theorem modify_records_of_ne (b : Board) {index j : Nat} (hj : j ≠ index) (cause : PublishCause)
    (change : Record → Option Record) :
    (b.modify index cause change).1.records[j]? = b.records[j]? := by
  rcases modify_cases b index cause change with he | ⟨r, next, _, _, he⟩
  · rw [he]
  · rw [he, records_put, if_neg hj]

theorem requestResort_same (b : Board) (index : Nat) : SameRecords b (b.requestResort index) := by
  unfold requestResort
  split <;> exact ⟨rfl, rfl, rfl, rfl⟩

theorem requestResorts_same (b : Board) (indices : List Nat) :
    SameRecords b (indices.foldl requestResort b) := by
  induction indices generalizing b with
  | nil => exact ⟨rfl, rfl, rfl, rfl⟩
  | cons i rest ih => exact (requestResort_same b i).trans (ih _)

theorem setSortByDelay_same (b : Board) (on : Bool) : SameRecords b (b.setSortByDelay on) := by
  unfold setSortByDelay
  split
  · obtain ⟨hr, hv, he, hp⟩ := requestResorts_same
      { b with config := { b.config with view := { b.config.view with sortByDelay := on } } }
      b.records.keys
    exact ⟨hr, hv, he, hp⟩
  · exact ⟨rfl, rfl, rfl, rfl⟩

theorem configure_same (b : Board) (next : Config) : SameRecords b (b.configure next) := by
  unfold configure
  dsimp only
  split
  · obtain ⟨hr, hv, he, hp⟩ := setSortByDelay_same { b with config := next } next.view.sortByDelay
    exact ⟨hr, hv, he, hp⟩
  · exact ⟨rfl, rfl, rfl, rfl⟩

theorem takeRequests_same (b : Board) (now : Nat) : SameRecords b (b.takeRequests now) := by
  unfold takeRequests
  split <;> exact ⟨rfl, rfl, rfl, rfl⟩

inductive Setting (b : Board) : Board → Prop
  | take (now : Nat) : Setting b (b.takeRequests now)
  | sort (on : Bool) : Setting b (b.setSortByDelay on)
  | configure (next : Config) : Setting b (b.configure next)

theorem Setting.same {b b' : Board} (h : Setting b b') : SameRecords b b' := by
  cases h with
  | take now => exact takeRequests_same b now
  | sort on => exact setSortByDelay_same b on
  | configure next => exact configure_same b next

theorem resortRecord_keeps (b : Board) (index : Nat) : Keeps b (b.resortRecord index) := by
  apply modify_keeps
  intro r next h
  dsimp only at h
  split at h
  · cases h
  · cases h; exact ⟨rfl, rfl⟩

theorem resortRecords_keeps (b : Board) (indices : List Nat) :
    Keeps b (indices.foldl resortRecord b) := by
  induction indices generalizing b with
  | nil => exact .refl b
  | cons i rest ih => exact (resortRecord_keeps b i).trans (ih _)

theorem resort_keeps (b : Board) (indices : Std.ExtTreeSet Nat) : Keeps b (b.resort indices) := by
  unfold resort
  split
  · obtain ⟨ht, hi, he⟩ :=
      resortRecords_keeps ({ b with resorts := b.resorts + 1 }.measure .resorted) indices.toList
    exact ⟨ht, hi, he⟩
  · exact .refl b

theorem serveResorting_keeps (b : Board) (now : Nat) : Keeps b (b.serveResorting now) := by
  unfold serveResorting
  cases b.resorting with
  | none => exact .refl b
  | some r =>
    dsimp only
    split
    · obtain ⟨ht, hi, he⟩ := resort_keeps { b with resorting := none } r.indices
      exact ⟨ht, hi, he⟩
    · exact .refl b

theorem modifyDelays_keeps (b : Board) (index : Nat) {change : Record → Option Record}
    (h : ∀ r next, change r = some next →
      next.group.name = r.group.name ∧ next.testing = r.testing) :
    Keeps b (b.modifyDelays index change).1 := by
  have hm := modify_keeps b index .delay h
  unfold modifyDelays
  dsimp only
  split
  · exact hm.trans (requestResort_same _ _).keeps
  · exact hm

theorem modifyDelays_records_of_ne (b : Board) {index j : Nat} (hj : j ≠ index)
    (change : Record → Option Record) :
    (b.modifyDelays index change).1.records[j]? = b.records[j]? := by
  have hm := modify_records_of_ne b hj .delay change
  unfold modifyDelays
  dsimp only
  split
  · rw [(requestResort_same _ _).records, hm]
  · exact hm

theorem updateDelay_keeps (b : Board) (index : Nat) (name : String) (delay : Int) :
    Keeps b (b.updateDelay index name delay).1 := by
  apply modifyDelays_keeps
  intro r next h
  split at h
  · cases h; exact ⟨rfl, rfl⟩
  · cases h

theorem foldl_withDelay_tag (delays : List (String × Int)) (r : Record) :
    (delays.foldl (fun r (name, delay) => r.withDelay name delay) r).group.name = r.group.name ∧
      (delays.foldl (fun r (name, delay) => r.withDelay name delay) r).testing = r.testing := by
  induction delays generalizing r with
  | nil => exact ⟨rfl, rfl⟩
  | cons d rest ih => exact ih (r.withDelay d.1 d.2)

theorem updateDelays_keeps (b : Board) (index : Nat) (delays : DelayTable) :
    Keeps b (b.updateDelays index delays).1 := by
  apply modifyDelays_keeps
  intro r next h
  simp only [Record.withDelays?] at h
  split at h
  · cases h
  · cases h; exact foldl_withDelay_tag _ r

theorem setSelection_keeps (b : Board) (index : Nat) (now : String) :
    Keeps b (b.setSelection index now).1 := by
  apply modify_keeps
  intro r next h
  split at h
  · cases h
  · cases h; exact ⟨rfl, rfl⟩

theorem arrange_name (b : Board) (g : Group) : (b.arrange g).name = g.name := by
  unfold arrange
  split <;> rfl

theorem publish_cases (b : Board) (index : Nat) (g : Group) :
    b.publish index g = (b, false) ∨
      b.publish index g =
        (b.put .topology ⟨index, b.arrange g, linksFor (b.arrange g).members,
          b.records[index]?.any fun r => r.group.name == g.name && r.testing, 0⟩, true) := by
  unfold publish
  dsimp only
  rw [arrange_name]
  split
  · exact .inl rfl
  · exact .inr rfl

theorem publish_records_of_ne (b : Board) {index j : Nat} (hj : j ≠ index) (g : Group) :
    (b.publish index g).1.records[j]? = b.records[j]? := by
  rcases publish_cases b index g with he | he
  · rw [he]
  · rw [he, records_put, if_neg hj]

theorem publish_keeps (b : Board) (index : Nat) (g : Group)
    (h : (b.tag index).map Prod.fst = some g.name) : Keeps b (b.publish index g).1 := by
  rcases publish_cases b index g with he | he
  · rw [he]; exact .refl b
  · rw [he]
    apply put_keeps
    simp only [tag, Option.map_map] at h ⊢
    obtain ⟨r, hr, hn⟩ := Option.map_eq_some_iff.mp h
    have hn : r.group.name = g.name := hn
    simp [hr, hn, arrange_name]

theorem publish_empty (b : Board) {index : Nat} (g : Group) (h : b.records[index]? = none) :
    (b.publish index g).1 =
      b.put .topology ⟨index, b.arrange g, linksFor (b.arrange g).members, false, 0⟩ := by
  simp [publish, h]

theorem remove_records {b : Board} {index i : Nat} {r : Record}
    (h : (b.remove index).1.records[i]? = some r) : b.records[i]? = some r := by
  unfold remove at h
  split at h
  · simp only [emit, Std.ExtTreeMap.getElem?_erase] at h
    split at h
    · cases h
    · exact h
  · exact h

theorem setTesting_put (b : Board) {index : Nat} {testing : Bool} {r : Record}
    (hr : b.records[index]? = some r) (h : r.testing ≠ testing) :
    (b.setTesting index testing).1 = b.put .testing { r with index, testing } := by
  simp [setTesting, modify, hr, h]

theorem setTesting_records_of_ne (b : Board) {index j : Nat} (hj : j ≠ index) (testing : Bool) :
    (b.setTesting index testing).1.records[j]? = b.records[j]? :=
  modify_records_of_ne b hj _ _

theorem tag_setTesting (b : Board) (index : Nat) (testing : Bool) (j : Nat) :
    (b.setTesting index testing).1.tag j =
      if j = index then (b.tag j).map fun t => (t.1, testing) else b.tag j := by
  by_cases hj : j = index
  · subst hj
    rw [if_pos rfl]
    cases hr : b.records[j]? with
    | none => simp [setTesting, modify, tag, hr]
    | some r =>
      by_cases ht : r.testing = testing
      · simp [setTesting, modify, tag, hr, ht]
      · rw [setTesting_put b hr ht, tag_put]
        simp [tag, hr]
  · rw [if_neg hj, tag, setTesting_records_of_ne b hj, ← tag]

theorem setTesting_content (b : Board) (index : Nat) (testing : Bool) (j : Nat) :
    (b.setTesting index testing).1.content j = b.content j := by
  by_cases hj : j = index
  · subst hj
    cases hr : b.records[j]? with
    | none => simp [setTesting, modify, content, hr]
    | some r =>
      by_cases ht : r.testing = testing
      · simp [setTesting, modify, content, hr, ht]
      · rw [setTesting_put b hr ht, content, records_put, if_pos rfl, content, hr]
        rfl
  · rw [content, setTesting_records_of_ne b hj, ← content]

theorem setTesting_indexed {b : Board} (hb : b.Indexed) (index : Nat) (testing : Bool) :
    (b.setTesting index testing).1.Indexed := by
  rcases modify_cases b index .testing
    (fun r => if r.testing = testing then none else some { r with testing := testing })
    with he | ⟨r, next, _, _, he⟩ <;> rw [setTesting, he]
  · exact hb
  · exact put_indexed hb _ _

theorem setTesting_events (b : Board) (index : Nat) (testing : Bool) :
    b.events <:+ (b.setTesting index testing).1.events := by
  rcases modify_cases b index .testing
    (fun r => if r.testing = testing then none else some { r with testing := testing })
    with he | ⟨r, next, _, _, he⟩
  · exact (congrArg Prod.fst he : (b.setTesting index testing).1 = b) ▸ List.suffix_refl _
  · rw [setTesting, he]
    exact List.suffix_cons _ _

theorem modify_config (b : Board) (index : Nat) (cause : PublishCause)
    (change : Record → Option Record) : (b.modify index cause change).1.config = b.config := by
  rcases modify_cases b index cause change with he | ⟨r, next, _, _, he⟩ <;> rw [he]
  rfl

theorem requestResort_config (b : Board) (index : Nat) :
    (b.requestResort index).config = b.config := by
  unfold requestResort
  split <;> rfl

theorem requestResorts_config (b : Board) (indices : List Nat) :
    (indices.foldl requestResort b).config = b.config := by
  induction indices generalizing b with
  | nil => rfl
  | cons i rest ih => rw [List.foldl_cons, ih, requestResort_config]

theorem resortRecords_config (b : Board) (indices : List Nat) :
    (indices.foldl resortRecord b).config = b.config := by
  induction indices generalizing b with
  | nil => rfl
  | cons i rest ih => rw [List.foldl_cons, ih, resortRecord, modify_config]

theorem modifyDelays_config (b : Board) (index : Nat) (change : Record → Option Record) :
    (b.modifyDelays index change).1.config = b.config := by
  have hm := modify_config b index .delay change
  unfold modifyDelays
  dsimp only
  split
  · rw [requestResort_config, hm]
  · exact hm

theorem publish_config (b : Board) (index : Nat) (g : Group) :
    (b.publish index g).1.config = b.config := by
  rcases publish_cases b index g with he | he <;> rw [he]
  rfl

theorem setSortByDelay_config (b : Board) (on : Bool) :
    (b.setSortByDelay on).config =
      { b.config with view := { b.config.view with sortByDelay := on } } := by
  unfold setSortByDelay
  split
  · exact requestResorts_config _ _
  · rfl

theorem configure_config (b : Board) (next : Config) : (b.configure next).config = next := by
  unfold configure
  dsimp only
  split
  · rw [setSortByDelay_config]
  · rfl

theorem takeRequests_config (b : Board) (now : Nat) : (b.takeRequests now).config = b.config := by
  unfold takeRequests
  split <;> rfl

theorem serveResorting_config (b : Board) (now : Nat) :
    (b.serveResorting now).config = b.config := by
  unfold serveResorting
  split
  · rfl
  · split
    · unfold resort
      split
      · exact resortRecords_config _ _
      · rfl
    · rfl

end ProxyPulse.Board
