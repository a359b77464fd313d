import ProxyPulse.Proofs.Registry.Links

namespace ProxyPulse

structure Paired (members : List Proxy) (links : LinkTable) : Prop where
  names : ∀ name, name ∈ links ↔ name ∈ members.map Proxy.name
  named : ∀ name (l : Link), links[name]? = some l → l.name = name
  told : DistinctNames members → links = linksFor members

theorem named_linksFor (members : List Proxy) (name : String) (l : Link) :
    (linksFor members)[name]? = some l → l.name = name := by
  have hfold (links : LinkTable) (hl : ∀ l : Link, links[name]? = some l → l.name = name) :
      ∀ l : Link,
        (members.foldl (fun links p => links.insert p.name p.link) links)[name]? = some l →
          l.name = name := by
    induction members generalizing links with
    | nil => exact hl
    | cons p rest ih =>
      refine ih _ fun l hl' => ?_
      simp only [Std.ExtTreeMap.getElem?_insert, Std.compare_eq_iff_eq] at hl'
      split at hl'
      · next hn => rw [← Option.some.inj hl', ← hn]; rfl
      · exact hl l hl'
  exact hfold ∅ (fun l hl => by simp at hl) l

theorem linksFor_paired (members : List Proxy) : Paired members (linksFor members) :=
  ⟨fun _ => mem_linksFor, named_linksFor members, fun _ => rfl⟩

theorem lasting_paired : Lasting Paired where
  perm hp h :=
    ⟨fun name => (h.names name).trans (hp.map Proxy.name).mem_iff.symm, h.named, fun hd =>
      (h.told (hd.perm hp.symm)).trans (linksFor_perm (hd.perm hp.symm) hp).symm⟩
  delay name delay h := by
    refine ⟨fun other => ?_, fun other l hl => ?_, fun hd => ?_⟩
    · rw [Std.ExtTreeMap.mem_modify, setDelay_names]
      exact h.names other
    · simp only [Std.ExtTreeMap.getElem?_modify, Std.compare_eq_iff_eq] at hl
      split at hl
      · next hn =>
        obtain ⟨l', hl', rfl⟩ := Option.map_eq_some_iff.mp hl
        exact (h.named name l' hl').trans hn
      · exact h.named other l hl
    · have hd : DistinctNames _ := hd
      rw [DistinctNames, setDelay_names] at hd
      rw [h.told hd, linksFor_setDelay hd]

theorem Registry.performs_paired (config : Config) (ops : List Registry.Operation) :
    (ops.foldl Registry.perform { board := { config } }).board.Each Paired := by
  refine performs_keep (Q := Board.Act.Brings Paired) (R := fun _ => True)
    (fun _ _ ha hb => hb.perform lasting_paired ha) (fun _ _ _ _ a _ => ?_) (fun _ _ => trivial)
    fun i x hx => by simp at hx
  cases a with
  | publish index g => exact fun members _ => linksFor_paired members
  | _ => trivial

theorem Registry.Reachable.paired {r : Registry} (h : r.Reachable) : r.board.Each Paired := by
  obtain ⟨config, ops, rfl⟩ := h.operations
  exact performs_paired config ops

theorem Paired.tells {members : List Proxy} {links : LinkTable} (h : Paired members links)
    {p : Proxy} (hp : p ∈ members) {old : Option Link} {delay : Int}
    (hl : links[p.name]? = old.map ({ · with delay := delay })) :
    links[p.name]? = some ⟨p.name, delay⟩ ∧ (DistinctNames members → p.delay = delay) := by
  obtain ⟨l, hlink⟩ := Option.isSome_iff_exists.mp (Std.ExtTreeMap.mem_iff_isSome_getElem?.mp
    ((h.names p.name).mpr (List.mem_map_of_mem hp)))
  have hnamed : l.name = p.name := h.named p.name l hlink
  have hdelay : l.delay = delay := by
    rw [hlink] at hl
    obtain ⟨_, _, rfl⟩ := Option.map_eq_some_iff.mp hl.symm
    rfl
  have hlink : links[p.name]? = some ⟨p.name, delay⟩ := by
    rw [hlink, ← hnamed, ← hdelay]
  refine ⟨hlink, fun hdistinct => ?_⟩
  have hown := (getElem?_linksFor hdistinct p.link).mpr ⟨p, hp, rfl, rfl⟩
  rw [← h.told hdistinct, hlink] at hown
  exact (congrArg Link.delay (Option.some.inj hown)).symm

theorem delays_nodup (delays : DelayTable) : (delays.toList.map Prod.fst).Nodup :=
  List.pairwise_map.mpr (Std.ExtTreeMap.distinct_keys_toList.imp fun h he =>
    h (by rw [he, Std.compare_self]))

def WritesApart {α β : Type} (write : α → String × Int → α) (read : α → β) (key : String) : Prop :=
  ∀ (x : α) (entry : String × Int), entry.1 ≠ key → read (write x entry) = read x

section

variable {α β : Type} {write : α → String × Int → α} {read : α → β} {key : String}
  {entries : List (String × Int)}

theorem WritesApart.of_not_mem (h : WritesApart write read key) (x : α)
    (hkey : key ∉ entries.map Prod.fst) : read (entries.foldl write x) = read x := by
  induction entries generalizing x with
  | nil => rfl
  | cons entry rest ih =>
    obtain ⟨hne, hrest⟩ := List.ne_and_not_mem_of_not_mem_cons hkey
    exact (ih _ hrest).trans (h x entry (Ne.symm hne))

theorem WritesApart.of_mem (h : WritesApart write read key) (x : α) {value : Int}
    (hd : (entries.map Prod.fst).Nodup) (hm : (key, value) ∈ entries) :
    ∃ before : List (String × Int), key ∉ before.map Prod.fst ∧
      read (entries.foldl write x) = read (write (before.foldl write x) (key, value)) := by
  obtain ⟨before, after, rfl⟩ := List.append_of_mem hm
  rw [List.map_append, List.map_cons, List.nodup_append, List.nodup_cons] at hd
  obtain ⟨_, ⟨hafter, _⟩, hbefore⟩ := hd
  refine ⟨before, fun hmem => hbefore key hmem key List.mem_cons_self rfl, ?_⟩
  rw [List.foldl_append, List.foldl_cons]
  exact h.of_not_mem _ hafter

end

namespace Record

variable {x x' : Record} {name : String} {delay : Int}

theorem withDelay_links (x : Record) (name : String) (delay : Int) (other : String) :
    (x.withDelay name delay).links[other]? =
      if name = other then x.links[name]?.map ({ · with delay := delay }) else x.links[other]? := by
  show (x.links.modify name _)[other]? = _
  simp only [Std.ExtTreeMap.getElem?_modify, Std.compare_eq_iff_eq]

theorem withDelay_apart (name : String) :
    WritesApart (fun x entry => withDelay x entry.1 entry.2) (·.links[name]?) name :=
  fun x entry hne => (withDelay_links x entry.1 entry.2 name).trans (if_neg hne)

theorem withDelays_links (x : Record) (delays : DelayTable) (name : String) :
    ((x.withDelays? delays).getD x).links[name]? =
      x.links[name]?.map fun l => { l with delay := delays[name]?.getD l.delay } := by
  let news := delays.toList.filter fun d => x.differs d.1 d.2
  have hfold : (x.withDelays? delays).getD x =
      news.foldl (fun x entry => x.withDelay entry.1 entry.2) x := by
    unfold withDelays?
    dsimp only
    split
    · next h => rw [show news = [] from List.isEmpty_iff.mp h]; rfl
    · rfl
  have hnodup : (news.map Prod.fst).Nodup :=
    (delays_nodup delays).sublist (List.filter_sublist.map _)
  rw [hfold]
  by_cases hnews : ∃ delay, (name, delay) ∈ news
  · obtain ⟨delay, hmem⟩ := hnews
    have hdelay : delays[name]? = some delay :=
      Std.ExtTreeMap.mem_toList_iff_getElem?_eq_some.mp (List.mem_filter.mp hmem).1
    obtain ⟨before, hbefore, hlast⟩ := (withDelay_apart name).of_mem x hnodup hmem
    have hfirst : (before.foldl (fun x entry => withDelay x entry.1 entry.2) x).links[name]? =
        x.links[name]? := (withDelay_apart name).of_not_mem x hbefore
    rw [hlast, withDelay_links, if_pos rfl, hfirst, hdelay]
    rfl
  · have hnot : name ∉ news.map Prod.fst := by
      intro hmem
      obtain ⟨d, hd, rfl⟩ := List.mem_map.mp hmem
      exact hnews ⟨d.2, hd⟩
    rw [(withDelay_apart name).of_not_mem x hnot]
    -- a delay that is no news is the one of the link
    cases hl : x.links[name]? with
    | none => rfl
    | some l =>
      have hsame : delays[name]?.getD l.delay = l.delay := by
        cases hdelay : delays[name]? with
        | none => rfl
        | some delay =>
          by_contra hne
          refine hnews ⟨delay, List.mem_filter.mpr
            ⟨Std.ExtTreeMap.mem_toList_iff_getElem?_eq_some.mpr hdelay, ?_⟩⟩
          show x.differs name delay = true
          rw [differs, hl, Option.any_some, bne_iff_ne]
          exact Ne.symm hne
      rw [Option.map_some, hsame]

end Record

namespace Board

variable {b : Board} {index : Nat}

theorem modify_content (b : Board) (index : Nat) (cause : PublishCause)
    (change : Record → Option Record) : (b.modify index cause change).1.content index =
      b.records[index]?.map fun x => (((change x).getD x).group, ((change x).getD x).links) := by
  cases hx : b.records[index]? with
  | none => simp [modify, content, hx]
  | some x =>
    cases hc : change x with
    | none => simp [modify, content, hx, hc]
    | some next => simp [modify, content, records_put, hx, hc]

theorem modifyDelays_content (b : Board) (index : Nat) (change : Record → Option Record) :
    (b.modifyDelays index change).1.content index =
      b.records[index]?.map fun x => (((change x).getD x).group, ((change x).getD x).links) := by
  rw [← modify_content b index .delay change]
  unfold modifyDelays
  dsimp only
  split
  · exact (requestResort_same _ _).content index
  · rfl

theorem updateDelays_content {x : Record} (hx : b.records[index]? = some x) (delays : DelayTable) :
    ∃ (g : Group) (links : LinkTable),
      (b.updateDelays index delays).1.content index = some (g, links) ∧ g.name = x.group.name ∧
        ∀ name : String, links[name]? =
          x.links[name]?.map fun l => { l with delay := delays[name]?.getD l.delay } := by
  let next := (x.withDelays? delays).getD x
  have hname : next.group.name = x.group.name := by
    show ((x.withDelays? delays).getD x).group.name = _
    unfold Record.withDelays?
    dsimp only
    split
    · rfl
    · exact (foldl_withDelay_tag _ x).1
  refine ⟨next.group, next.links, ?_, hname, x.withDelays_links delays⟩
  rw [updateDelays, modifyDelays_content, hx]
  rfl

theorem setSelection_content (b : Board) (index : Nat) (now : String) {g : Group}
    {links : LinkTable} (h : b.content index = some (g, links)) :
    ∃ active,
      (b.setSelection index now).1.content index = some ({ g with now := active }, links) := by
  obtain ⟨x, hx, he⟩ := Option.map_eq_some_iff.mp h
  cases he
  rw [setSelection, modify_content, hx]
  by_cases hn : x.group.now = some now
  · exact ⟨x.group.now, by rw [Option.map_some, if_pos hn]; rfl⟩
  · exact ⟨some now, by rw [Option.map_some, if_neg hn]; rfl⟩

theorem updateDelay_content {x : Record} (hx : b.records[index]? = some x)
    (hp : Paired x.group.members x.links) (hd : DistinctNames x.group.members) (name : String)
    (delay : Int) : (b.updateDelay index name delay).1.content index =
      some ({ x.group with members := setDelay name delay x.group.members },
        linksFor (setDelay name delay x.group.members)) := by
  rw [updateDelay, modifyDelays_content, hx, Option.map_some]
  have hlinks := hp.told hd
  cases hdiffers : x.differs name delay with
  | true =>
    rw [if_pos rfl, linksFor_setDelay hd, ← hlinks]
    rfl
  | false =>
    have hold : setDelay name delay x.group.members = x.group.members := by
      refine setDelay_of_told fun p hmem hn => ?_
      have hl : x.links[name]? = some p.link := by
        rw [hlinks]
        exact (getElem?_linksFor hd _).mpr ⟨p, hmem, hn, rfl⟩
      rw [Record.differs, hl, Option.any_some, bne_eq_false_iff_eq] at hdiffers
      exact hdiffers
    rw [if_neg Bool.false_ne_true, hold, ← hlinks]
    rfl

end Board

end ProxyPulse
