import ProxyPulse.Proofs.Proxy
import ProxyPulse.Proofs.Registry.Operation
import ProxyPulse.Proofs.Registry.Replacement

namespace ProxyPulse

structure Record.Linked (x : Record) : Prop where
  distinct : DistinctNames x.group.members
  links : x.links = linksFor x.group.members

structure Lasting (P : List Proxy → LinkTable → Prop) : Prop where
  perm : ∀ {members members' : List Proxy} {links : LinkTable}, members'.Perm members →
    P members links → P members' links
  delay : ∀ {members : List Proxy} {links : LinkTable} (name : String) (delay : Int),
    P members links → P (setDelay name delay members) (links.modify name ({ · with delay := delay }))

namespace Board

variable {P : List Proxy → LinkTable → Prop} {b : Board}

def Each (P : List Proxy → LinkTable → Prop) (b : Board) : Prop :=
  ∀ (i : Nat) (x : Record), b.records[i]? = some x → P x.group.members x.links

def Act.Brings (P : List Proxy → LinkTable → Prop) : Act → Prop
  | .publish _ g => ∀ members : List Proxy, members.Perm g.members → P members (linksFor members)
  | _ => True

theorem Each.of_same {b' : Board} (h : b.Each P) (hs : b.SameRecords b') : b'.Each P := by
  intro i x hx
  exact h i x (hs.records ▸ hx)

theorem Each.put (h : b.Each P) (cause : PublishCause) {r : Record}
    (hr : P r.group.members r.links) : (b.put cause r).Each P := by
  intro i x hx
  rw [records_put] at hx
  split at hx
  · rw [← Option.some.inj hx]
    exact hr
  · exact h i x hx

theorem Each.modify (h : b.Each P) (index : Nat) (cause : PublishCause)
    {change : Record → Option Record}
    (hc : ∀ r next, change r = some next → P r.group.members r.links →
      P next.group.members next.links) : (b.modify index cause change).1.Each P := by
  rcases modify_cases b index cause change with he | ⟨r, next, hr, hnext, he⟩ <;> rw [he]
  · exact h
  · exact h.put cause (hc r next hnext (h index r hr))

theorem Each.publish (h : b.Each P) (index : Nat) {g : Group}
    (hg : ∀ members : List Proxy, members.Perm g.members → P members (linksFor members)) :
    (b.publish index g).1.Each P := by
  rcases publish_cases b index g with he | he <;> rw [he]
  · exact h
  · exact h.put .topology (hg _ (Registry.arrange_perm b g))

theorem Each.modifyDelays (h : b.Each P) (index : Nat) {change : Record → Option Record}
    (hc : ∀ r next, change r = some next → P r.group.members r.links →
      P next.group.members next.links) : (b.modifyDelays index change).1.Each P := by
  have hm := h.modify index .delay hc
  unfold Board.modifyDelays
  dsimp only
  split
  · exact hm.of_same (requestResort_same _ _)
  · exact hm

theorem Each.updateDelay (hP : Lasting P) (h : b.Each P) (index : Nat) (name : String)
    (delay : Int) : (b.updateDelay index name delay).1.Each P := by
  apply h.modifyDelays
  intro r next hc hr
  split at hc
  · cases hc
    exact hP.delay name delay hr
  · cases hc

theorem Each.updateDelays (hP : Lasting P) (h : b.Each P) (index : Nat) (delays : DelayTable) :
    (b.updateDelays index delays).1.Each P := by
  apply h.modifyDelays
  intro r next hc hr
  simp only [Record.withDelays?] at hc
  split at hc
  · cases hc
  · cases hc
    exact List.foldlRecOn (motive := fun x : Record => P x.group.members x.links) _ _ hr
      fun _ hx d _ => hP.delay d.1 d.2 hx

theorem Each.setTesting (h : b.Each P) (index : Nat) (testing : Bool) :
    (b.setTesting index testing).1.Each P := by
  apply h.modify
  intro r next hc hr
  split at hc
  · cases hc
  · cases hc
    exact hr

theorem Each.setSelection (h : b.Each P) (index : Nat) (now : String) :
    (b.setSelection index now).1.Each P := by
  apply h.modify
  intro r next hc hr
  split at hc
  · cases hc
  · cases hc
    exact hr

theorem Each.remove (h : b.Each P) (index : Nat) : (b.remove index).1.Each P :=
  fun i x hx => h i x (remove_records hx)

theorem reset_each (b : Board) : b.reset.Each P := by
  intro i x hx
  rw [Registry.reset_records] at hx
  cases hx

theorem Each.resortRecord (hP : Lasting P) (h : b.Each P) (index : Nat) :
    (b.resortRecord index).Each P := by
  apply h.modify
  intro r next hc hr
  dsimp only at hc
  split at hc
  · cases hc
  · cases hc
    exact hP.perm (sortProxies_perm .delay r.group.members) hr

theorem Each.serveResorting (hP : Lasting P) (h : b.Each P) (now : Nat) :
    (b.serveResorting now).Each P := by
  have hfold : ∀ (indices : List Nat) (b : Board), b.Each P →
      (indices.foldl Board.resortRecord b).Each P := fun indices _ h =>
    List.foldlRecOn indices _ h fun _ hb i _ => hb.resortRecord hP i
  unfold Board.serveResorting
  split
  · exact h
  · split
    · unfold resort
      split
      · exact hfold _ _ h
      · exact h
    · exact h

theorem Each.perform (hP : Lasting P) (h : b.Each P) {a : Act} (ha : a.Brings P) :
    (b.perform a).Each P := by
  cases a with
  | publish index g => exact h.publish index ha
  | updateDelay index name delay => exact h.updateDelay hP index name delay
  | updateDelays index delays => exact h.updateDelays hP index delays
  | setTesting index testing => exact h.setTesting index testing
  | setSelection index now => exact h.setSelection index now
  | remove index => exact h.remove index
  | reset => exact reset_each b
  | sortByDelay on => exact h.of_same (setSortByDelay_same b on)
  | configure next => exact h.of_same (configure_same b next)
  | takeRequests now => exact h.of_same (takeRequests_same b now)
  | serveResorting now => exact h.serveResorting hP now

def Linked (b : Board) : Prop :=
  ∀ (i : Nat) (x : Record), b.records[i]? = some x → x.Linked

def Act.IsDistinct : Act → Prop
  | .publish _ g => DistinctNames g.members
  | _ => True

theorem linked_iff : b.Linked ↔
    b.Each fun members links => DistinctNames members ∧ links = linksFor members :=
  ⟨fun h i x hx => ⟨(h i x hx).distinct, (h i x hx).links⟩,
    fun h i x hx => ⟨(h i x hx).1, (h i x hx).2⟩⟩

theorem lasting_linked :
    Lasting fun members links => DistinctNames members ∧ links = linksFor members where
  perm hp h := ⟨h.1.perm hp, h.2.trans (linksFor_perm h.1 hp).symm⟩
  delay name delay h := ⟨h.1.setDelay name delay, by rw [linksFor_setDelay h.1, h.2]⟩

theorem Linked.perform (h : b.Linked) {a : Act} (ha : a.IsDistinct) : (b.perform a).Linked := by
  refine linked_iff.mpr ((linked_iff.mp h).perform lasting_linked ?_)
  cases a with
  | publish index g => exact fun members hp => ⟨DistinctNames.perm ha hp, rfl⟩
  | _ => trivial

end Board

namespace Registry

variable {r : Registry}

def Operation.IsDistinct : Operation → Prop
  | .act a => a.IsDistinct
  | .write w => w.toAct.IsDistinct
  | .replace _ => True

theorem foldl_showEntry_shows {name : String} {g : Group} {entries : List (Nat × Record)}
    {table : GroupTable} (h : (entries.foldl r.showEntry table)[name]? = some g) :
    table[name]? = some g ∨ ∃ x ∈ entries, x.2.group = g := by
  induction entries generalizing table with
  | nil => exact .inl h
  | cons x rest ih =>
    rcases ih h with h | ⟨y, hy, hg⟩
    · unfold showEntry at h
      split at h
      · rw [Std.ExtTreeMap.getElem?_insert] at h
        split at h
        · exact .inr ⟨x, List.mem_cons_self, Option.some.inj h⟩
        · exact .inl h
      · exact .inl h
    · exact .inr ⟨y, List.mem_cons_of_mem _ hy, hg⟩

theorem shown_record {name : String} {g : Group} (h : r.shown[name]? = some g) :
    ∃ (i : Nat) (x : Record), r.board.records[i]? = some x ∧ x.group = g := by
  rw [shown_eq] at h
  rcases foldl_showEntry_shows h with h | ⟨⟨i, x⟩, hx, hg⟩
  · simp at h
  · exact ⟨i, x, Std.ExtTreeMap.mem_toList_iff_getElem?_eq_some.mp hx, hg⟩

theorem mem_takeOver {table : GroupTable} {names : List String} {g : Group}
    (h : g ∈ takeOver table names) :
    (∃ name, g = Group.empty name) ∨ ∃ name : String, table[name]? = some g := by
  obtain ⟨i, hi⟩ := List.mem_iff_getElem?.mp h
  rw [takeOver_getElem?] at hi
  obtain ⟨name, _, rfl⟩ := Option.map_eq_some_iff.mp hi
  split
  · exact .inl ⟨name, rfl⟩
  · cases hg : table[name]? with
    | none => exact .inl ⟨name, rfl⟩
    | some g => exact .inr ⟨name, hg⟩

theorem acts_isDistinct {op : Operation} (hop : op.IsDistinct) (hb : r.board.Linked) :
    ∀ a ∈ r.acts op, a.IsDistinct := by
  intro a ha
  cases op with
  | act b => exact List.mem_singleton.mp ha ▸ hop
  | write w => exact mem_acts_write ha ▸ hop
  | replace names =>
    rcases mem_acts_replace ha with rfl | ⟨index, g, hg, rfl⟩
    · trivial
    · rcases mem_takeOver hg with ⟨name, rfl⟩ | ⟨name, hg⟩
      · exact List.nodup_nil
      · obtain ⟨i, x, hx, rfl⟩ := shown_record hg
        exact (hb i x hx).distinct

theorem performs_linked (config : Config) {ops : List Operation}
    (h : ∀ op ∈ ops, op.IsDistinct) : (ops.foldl perform { board := { config } }).board.Linked :=
  performs_keep (fun _ _ ha hb => hb.perform ha) (fun _ _ hop hb => acts_isDistinct hop hb) h
    fun i x hx => by simp at hx

/-- Links and members of a record tell the same: whoever is listed has a link under its name, with
that name and its delay, and nobody else has one. -/
theorem links_tell_members (config : Config) {ops : List Operation}
    (h : ∀ op ∈ ops, op.IsDistinct) {i : Nat} {x : Record}
    (hx : (ops.foldl perform { board := { config } }).board.records[i]? = some x) :
    x.links = linksFor x.group.members ∧
    (∀ name, name ∈ x.links ↔ name ∈ x.group.members.map Proxy.name) ∧
    (∀ name (l : Link), x.links[name]? = some l → l.name = name) ∧
    ∀ p ∈ x.group.members, x.links[p.name]? = some ⟨p.name, p.delay⟩ := by
  obtain ⟨hd, hl⟩ := performs_linked config h i x hx
  refine ⟨hl, fun name => ?_, fun name l hn => ?_, fun p hp => ?_⟩
  · rw [hl]
    exact mem_linksFor
  · rw [hl] at hn
    obtain ⟨p, _, hp, rfl⟩ := (getElem?_linksFor hd l).mp hn
    exact hp
  · rw [hl]
    exact (getElem?_linksFor hd p.link).mpr ⟨p, hp, rfl, rfl⟩

def moved : List Operation :=
  [.replace ["auto"],
    .write (.publish 0 ⟨"auto", [⟨"p", .terminal, "", 5⟩, ⟨"q", .terminal, "", 9⟩], true, none⟩),
    .write (.updateDelay 0 "auto" "p" 20), .replace ["direct", "auto"]]

theorem links_tell_members_moved :
    ∃ x, (moved.foldl perform { board := {} }).board.records[1]? = some x ∧
      x.links["p"]? = some ⟨"p", 20⟩ ∧ ∀ name, name ∈ x.links ↔ name ∈ ["p", "q"] := by
  have hm : ∀ op ∈ moved, op.IsDistinct := by
    simp [moved, Operation.IsDistinct, Write.toAct, Board.Act.IsDistinct, DistinctNames]
  obtain ⟨x, hx, hg⟩ : ∃ x, (moved.foldl perform { board := {} }).board.records[1]? = some x ∧
      x.group.members = [⟨"p", .terminal, "", 20⟩, ⟨"q", .terminal, "", 9⟩] :=
    ⟨_, rfl, by decide⟩
  obtain ⟨_, hnames, _, hdelays⟩ := links_tell_members {} hm hx
  rw [hg] at hnames hdelays
  exact ⟨x, hx, hdelays ⟨"p", .terminal, "", 20⟩ List.mem_cons_self, hnames⟩

end Registry

end ProxyPulse
