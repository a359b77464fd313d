import ProxyPulse.Proofs.Board.Updates

namespace ProxyPulse

variable {name name' : String}

theorem setDelay_comm (hne : name ≠ name') (delay delay' : Int) (members : List Proxy) :
    setDelay name' delay' (setDelay name delay members) =
      setDelay name delay (setDelay name' delay' members) := by
  induction members with
  | nil => rfl
  | cons p rest ih =>
    by_cases hn : p.name = name
    · have hother : p.name ≠ name' := fun h => hne (hn.symm.trans h)
      simp [setDelay, hn, hne]
    · by_cases hn' : p.name = name'
      · simp [setDelay, hn', Ne.symm hne]
      · simp [setDelay, hn, hn', ih]

namespace Record

variable {r : Record}

theorem withDelay_comm (r : Record) (hne : name ≠ name') (delay delay' : Int) :
    (r.withDelay name delay).withDelay name' delay' =
      (r.withDelay name' delay').withDelay name delay := by
  have hlinks : ((r.withDelay name delay).withDelay name' delay').links =
      ((r.withDelay name' delay').withDelay name delay).links := by
    refine Std.ExtTreeMap.ext_getElem? fun other => ?_
    simp only [withDelay_links]
    grind
  have hmembers := setDelay_comm hne delay delay' r.group.members
  unfold withDelay at hlinks ⊢
  dsimp only at hlinks ⊢
  rw [hlinks, hmembers]

theorem withEach_perm {entries entries' : List (String × Int)} (r : Record)
    (hp : entries.Perm entries') (hd : (entries.map Prod.fst).Nodup) :
    r.withEach entries = r.withEach entries' := by
  refine hp.foldl_eq' (fun x hx y hy z => ?_) r
  by_cases hn : x.1 = y.1
  · rw [List.inj_on_of_nodup_map hd hx hy hn]
  · exact withDelay_comm z hn x.2 y.2

theorem withEach_moved (r : Record) (index revision : Nat) (entries : List (String × Int)) :
    { r with index, revision }.withEach entries =
      { r.withEach entries with index, revision } := by
  induction entries generalizing r with
  | nil => rfl
  | cons entry rest ih => exact ih (r.withDelay entry.1 entry.2)

theorem differs_withDelay (r : Record) (delay : Int) (hne : name ≠ name') (delay' : Int) :
    (r.withDelay name delay).differs name' delay' = r.differs name' delay' := by
  rw [differs, differs, withDelay_links, if_neg hne]

end Record

namespace Board

def updateEach (b : Board) (index : Nat) : List (String × Int) → Board × List Bool
  | [] => (b, [])
  | (name, delay) :: rest =>
    let (b, changed) := b.updateDelay index name delay
    let (b, outcomes) := updateEach b index rest
    (b, changed :: outcomes)

variable {b : Board} {index : Nat} {r : Record} {entries : List (String × Int)}

theorem modifyDelays_none {change : Record → Option Record}
    (h : b.records[index]?.bind change = none) : b.modifyDelays index change = (b, false) := by
  simp [modifyDelays, modify_of_none .delay h]

theorem modifyDelays_some {change : Record → Option Record} {next : Record}
    (h : b.records[index]?.bind change = some next) : b.modifyDelays index change =
      ((b.put .delay { next with index := index }).requestResort index, true) := by
  simp [modifyDelays, modify, h]

theorem updateDelay_none (h : b.records[index]? = none) (name : String) (delay : Int) :
    b.updateDelay index name delay = (b, false) :=
  modifyDelays_none (by simp [h])

theorem updateDelay_news (hr : b.records[index]? = some r) {name : String} {delay : Int}
    (h : r.differs name delay = true) : b.updateDelay index name delay =
      ((b.put .delay { r.withDelay name delay with index }).requestResort index, true) :=
  modifyDelays_some (by simp [hr, h])

theorem updateDelay_old (hr : b.records[index]? = some r) {name : String} {delay : Int}
    (h : r.differs name delay = false) : b.updateDelay index name delay = (b, false) :=
  modifyDelays_none (by simp [hr, h])

theorem updateDelays_eq (hr : b.records[index]? = some r) (delays : DelayTable) :
    b.updateDelays index delays =
      if r.news delays.toList = [] then (b, false)
      else ((b.put .delay { r.withEach (r.news delays.toList) with index }).requestResort index,
        true) := by
  have hdelays := r.withDelays?_eq delays
  split
  · next h => exact modifyDelays_none (by simp [hr, hdelays, h])
  · next h => exact modifyDelays_some (by simp [hr, hdelays, h])

theorem requestResort_shownAt (b : Board) (index i : Nat) :
    (b.requestResort index).shownAt i = b.shownAt i := by
  rw [shownAt, (requestResort_same b index).records, shownAt]

theorem updateEach_some (hr : b.records[index]? = some r) (hd : (entries.map Prod.fst).Nodup) :
    (b.updateEach index entries).2 = entries.map (fun entry => r.differs entry.1 entry.2) ∧
    (b.updateEach index entries).1.shownAt index =
      if r.news entries = [] then b.shownAt index
      else some { r.withEach (r.news entries) with index, revision := 0 } := by
  induction entries generalizing b r with
  | nil => exact ⟨rfl, rfl⟩
  | cons entry rest ih =>
    obtain ⟨name, delay⟩ := entry
    obtain ⟨hname, hrest⟩ := List.nodup_cons.mp hd
    cases hdiffers : r.differs name delay with
    | false =>
      obtain ⟨houtcomes, hshown⟩ := ih hr hrest
      have hnews : r.news ((name, delay) :: rest) = r.news rest := by
        simp [Record.news, hdiffers]
      rw [updateEach, updateDelay_old hr hdiffers, hnews, List.map_cons, hdiffers, ← houtcomes]
      exact ⟨rfl, hshown⟩
    | true =>
      let r₁ := { r.withDelay name delay with index, revision := b.revision + 1 }
      let b₁ := (b.put .delay { r.withDelay name delay with index }).requestResort index
      have hr₁ : b₁.records[index]? = some r₁ := by
        rw [(requestResort_same _ index).records, records_put, if_pos rfl]
      have hdiffers₁ : ∀ entry ∈ rest, r₁.differs entry.1 entry.2 = r.differs entry.1 entry.2 :=
        fun entry hmem => Record.differs_withDelay r delay
          (fun h => hname (List.mem_map.mpr ⟨entry, hmem, h.symm⟩)) entry.2
      have hnews₁ : r₁.news rest = r.news rest := List.filter_congr hdiffers₁
      have hnews : r.news ((name, delay) :: rest) = (name, delay) :: r.news rest := by
        simp [Record.news, hdiffers]
      obtain ⟨houtcomes, hshown⟩ := ih hr₁ hrest
      rw [updateEach, updateDelay_news hr hdiffers, hnews, List.map_cons, hdiffers,
        ← List.map_congr_left hdiffers₁, ← houtcomes, if_neg (List.cons_ne_nil _ _)]
      refine ⟨rfl, hshown.trans ?_⟩
      split
      · next hnone =>
        rw [requestResort_shownAt, shownAt_put, if_pos rfl, ← hnews₁, hnone]
        rfl
      · rw [hnews₁, Record.withEach_moved]
        rfl

theorem modifyDelays_requests (b : Board) (index : Nat) (change : Record → Option Record) :
    (b.modifyDelays index change).1.requests = b.requests ++
      if b.sortsByDelay && (b.modifyDelays index change).2 then [index] else [] := by
  cases h : b.records[index]?.bind change with
  | none => simp [modifyDelays_none h]
  | some next =>
    rw [modifyDelays_some h, Bool.and_true, requestResort]
    show (if b.sortsByDelay then _ else _ : Board).requests = _
    split
    · rfl
    · exact (List.append_nil _).symm

theorem updateEach_requests (b : Board) (index : Nat) (entries : List (String × Int)) :
    (b.updateEach index entries).1.requests = b.requests ++
      if b.sortsByDelay then List.replicate ((b.updateEach index entries).2.count true) index
      else [] := by
  induction entries generalizing b with
  | nil => simp [updateEach]
  | cons entry rest ih =>
    have hfirst := modifyDelays_requests b index fun r =>
      if r.differs entry.1 entry.2 then some (r.withDelay entry.1 entry.2) else none
    have hmode := modifyDelays_config b index fun r =>
      if r.differs entry.1 entry.2 then some (r.withDelay entry.1 entry.2) else none
    rw [← updateDelay] at hfirst hmode
    have hrest := ih (b.updateDelay index entry.1 entry.2).1
    rw [sortsByDelay, hmode, ← sortsByDelay, hfirst] at hrest
    rw [updateEach, hrest, List.append_assoc, List.count_cons]
    cases b.sortsByDelay <;> cases (b.updateDelay index entry.1 entry.2).2 <;>
      simp [List.replicate_succ]

theorem updateEach_records_of_ne {i : Nat} (hi : i ≠ index) (b : Board)
    (entries : List (String × Int)) :
    (b.updateEach index entries).1.records[i]? = b.records[i]? := by
  induction entries generalizing b with
  | nil => rfl
  | cons entry rest ih => exact (ih _).trans (modifyDelays_records_of_ne b hi _)

theorem updateEach_none (h : b.records[index]? = none) (entries : List (String × Int)) :
    b.updateEach index entries = (b, entries.map fun _ => false) := by
  induction entries with
  | nil => rfl
  | cons entry rest ih =>
    simp only [updateEach, updateDelay_none h, ih, List.map_cons]

theorem updateDelay_unlinked {name : String}
    (h : b.records[index]?.any (name ∈ ·.links) = false) (delay : Int) :
    b.updateDelay index name delay = (b, false) := by
  cases hr : b.records[index]? with
  | none => exact updateDelay_none hr name delay
  | some r =>
    have hlink : r.links[name]? = none := by simpa [hr] using h
    exact updateDelay_old hr (by simp [Record.differs, hlink])

def linked (b : Board) (index : Nat) (delays : DelayTable) : DelayTable :=
  delays.filter fun name _ => b.records[index]?.any (name ∈ ·.links)

theorem linked_news (hr : b.records[index]? = some r) (delays : DelayTable) :
    r.news (b.linked index delays).toList = r.news delays.toList := by
  rw [linked, Std.ExtTreeMap.toList_filter, Record.news, Record.news, List.filter_filter]
  refine List.filter_congr fun entry _ => ?_
  cases hdiffers : r.differs entry.1 entry.2 with
  | false => rfl
  | true =>
    obtain ⟨l, hl, -⟩ := differs_iff.mp hdiffers
    have hlink : entry.1 ∈ r.links := Std.ExtTreeMap.mem_iff_isSome_getElem?.mpr (by simp [hl])
    simp [hr, hlink]

theorem updateDelays_linked (b : Board) (index : Nat) (delays : DelayTable) :
    b.updateDelays index (b.linked index delays) = b.updateDelays index delays := by
  cases hr : b.records[index]? with
  | none => rw [updateDelays, modifyDelays_none (by simp [hr]), updateDelays,
      modifyDelays_none (by simp [hr])]
  | some r => rw [updateDelays_eq hr, updateDelays_eq hr, linked_news hr]

theorem updateEach_outcomes (b : Board) (index : Nat) (hd : (entries.map Prod.fst).Nodup) :
    (b.updateEach index entries).2 =
      entries.map fun entry => (b.updateDelay index entry.1 entry.2).2 := by
  cases hr : b.records[index]? with
  | none => simp [updateEach_none hr, updateDelay_none hr]
  | some r =>
    rw [(updateEach_some hr hd).1]
    refine List.map_congr_left fun entry _ => ?_
    cases hdiffers : r.differs entry.1 entry.2 with
    | true => rw [updateDelay_news hr hdiffers]
    | false => rw [updateDelay_old hr hdiffers]

theorem updateDelays_outcome (b : Board) (index : Nat) (delays : DelayTable)
    (h : entries.Perm delays.toList) :
    (b.updateDelays index delays).2 = (b.updateEach index entries).2.any id := by
  have hd : (entries.map Prod.fst).Nodup := (h.map Prod.fst).nodup_iff.mpr (delays_nodup delays)
  cases hr : b.records[index]? with
  | none => simp [updateDelays, modifyDelays_none, updateEach_none, hr]
  | some r =>
    rw [(updateEach_some hr hd).1, List.any_map, Function.id_comp, h.any_eq, updateDelays_eq hr]
    by_cases hnone : r.news delays.toList = []
    · rw [if_pos hnone]
      exact (List.any_eq_false.mpr (List.filter_eq_nil_iff.mp hnone)).symm
    · obtain ⟨entry, hmem⟩ := List.exists_mem_of_ne_nil _ hnone
      obtain ⟨hmem, hdiffers⟩ := List.mem_filter.mp hmem
      rw [if_neg hnone]
      exact (List.any_eq_true.mpr ⟨entry, hmem, hdiffers⟩).symm

theorem updateDelays_shownAt (b : Board) (index : Nat) (delays : DelayTable)
    (h : entries.Perm delays.toList) (i : Nat) :
    (b.updateDelays index delays).1.shownAt i = (b.updateEach index entries).1.shownAt i := by
  by_cases hi : i = index
  · subst hi
    have hd : (entries.map Prod.fst).Nodup := (h.map Prod.fst).nodup_iff.mpr (delays_nodup delays)
    cases hr : b.records[i]? with
    | none => rw [updateDelays, modifyDelays_none (by simp [hr]), updateEach_none hr]
    | some r =>
      have hnews : (r.news entries).Perm (r.news delays.toList) := h.filter _
      have hwritten : r.withEach (r.news entries) = r.withEach (r.news delays.toList) :=
        r.withEach_perm hnews (hd.sublist (List.filter_sublist.map _))
      rw [(updateEach_some hr hd).2, hwritten, updateDelays_eq hr]
      by_cases hnone : r.news delays.toList = []
      · rw [if_pos hnone, if_pos (hnone ▸ hnews).eq_nil]
      · rw [if_neg hnone, if_neg fun he => hnone (he ▸ hnews).symm.eq_nil, requestResort_shownAt,
          shownAt_put, if_pos rfl]
        rfl
  · rw [shownAt, updateDelays, modifyDelays_records_of_ne b hi, shownAt,
      updateEach_records_of_ne hi]

/-- A batch shows what its entries show when they are written one by one, in whatever order, and it
is news if one of them is, which each says as if it was alone. But the batch takes one revision, one
event and one request to re-sort at most, where the single updates ask once for each that is news.
Names without a link might as well be left out. -/
theorem batches_write_what_singles_write (b : Board) (index : Nat) (delays : DelayTable)
    {entries : List (String × Int)} (h : entries.Perm delays.toList) :
    let all := b.updateDelays index delays
    let each := b.updateEach index entries
    (∀ i, all.1.shownAt i = each.1.shownAt i) ∧ all.2 = each.2.any id ∧
    each.2 = entries.map (fun entry => (b.updateDelay index entry.1 entry.2).2) ∧
    Replaces (if all.2 then [index] else []) b all.1 ∧
    all.1.requests = b.requests ++ (if b.sortsByDelay && all.2 then [index] else []) ∧
    each.1.requests = b.requests ++
      (if b.sortsByDelay then List.replicate (each.2.count true) index else []) ∧
    b.updateDelays index (b.linked index delays) = all ∧
    ∀ name, b.records[index]?.any (name ∈ ·.links) = false →
      ∀ delay, b.updateDelay index name delay = (b, false) := by
  refine ⟨updateDelays_shownAt b index delays h, updateDelays_outcome b index delays h,
    updateEach_outcomes b index ((h.map Prod.fst).nodup_iff.mpr (delays_nodup delays)),
    (update_told b index (.delays delays)).replaces, modifyDelays_requests b index _,
    updateEach_requests b index entries, updateDelays_linked b index delays,
    fun name hname delay => ?_⟩
  exact updateDelay_unlinked hname delay

def doubled : Board :=
  (publish {} 0 ⟨"auto", [⟨"p", .terminal, "", 50⟩, ⟨"q", .terminal, "", 20⟩,
    ⟨"p", .terminal, "", 90⟩], true, none⟩).1.setSortByDelay true

theorem batches_write_what_singles_write_doubled :
    let entries := [("q", 80), ("ghost", 9), ("p", 70)]
    let delays := Std.ExtTreeMap.ofList entries
    let all := doubled.updateDelays 0 delays
    let each := doubled.updateEach 0 entries
    all.1.shownAt 0 = each.1.shownAt 0 ∧ all.2 = true ∧ each.2 = [true, false, true] ∧
      all.1.requests = [0, 0] ∧ each.1.requests = [0, 0, 0] := by
  intro entries delays all each
  have hperm : entries.Perm delays.toList := by decide
  obtain ⟨hshown, hnews, heach, -, hall, hsingles, -⟩ :=
    batches_write_what_singles_write doubled 0 delays hperm
  have houtcomes : each.2 = [true, false, true] := heach.trans (by decide)
  have hnews : all.2 = true := hnews.trans (by rw [houtcomes]; rfl)
  have hmode : doubled.sortsByDelay = true := by decide
  refine ⟨hshown 0, hnews, houtcomes, ?_, ?_⟩
  · rw [hall, hmode, hnews]; rfl
  · rw [hsingles, hmode, houtcomes]; rfl

end Board

end ProxyPulse
