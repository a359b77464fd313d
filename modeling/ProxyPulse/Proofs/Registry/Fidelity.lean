import ProxyPulse.Proofs.Endpoint
import ProxyPulse.Proofs.Registry.Replacement

/-!
A group that was once shown as it is stays so. Delays, order and the testing flag may change, other
groups may come to be tracked; as long as nothing else is published or chosen under its name, its
record tells the same members, and the same one is active.
-/

namespace ProxyPulse

theorem setDelay_identity (name : String) (delay : Int) (members : List Proxy) :
    (setDelay name delay members).map Proxy.identity = members.map Proxy.identity := by
  induction members with
  | nil => rfl
  | cons p rest ih =>
    rw [setDelay]
    split
    · rfl
    · rw [List.map_cons, ih, List.map_cons]

theorem Record.withDelay_alike (x : Record) (name : String) (delay : Int) :
    x.group.Alike (x.withDelay name delay).group := by
  refine ⟨rfl, ?_⟩
  show ((setDelay name delay x.group.members).map Proxy.identity).Perm _
  rw [setDelay_identity]

theorem Record.foldl_withDelay_alike (x : Record) (delays : List (String × Int)) :
    x.group.Alike (delays.foldl (fun r (name, delay) => r.withDelay name delay) x).group := by
  induction delays generalizing x with
  | nil => exact .refl _
  | cons d rest ih => exact (x.withDelay_alike d.1 d.2).trans (ih _)

namespace Board

def Shows (name : String) (g : Group) (b : Board) : Prop :=
  ∀ (i : Nat) (x : Record), b.records[i]? = some x → x.group.name = name → g.Alike x.group

variable {b b' : Board} {name : String} {g : Group}

theorem arrange_alike (b : Board) (g : Group) : g.Alike (b.arrange g) :=
  ⟨Registry.arrange_now b g, (Registry.arrange_perm b g).map Proxy.identity⟩

theorem Shows.of_same (h : b.Shows name g) (hs : b.SameRecords b') : b'.Shows name g := by
  intro i x hx
  rw [hs.records] at hx
  exact h i x hx

theorem Shows.put (h : b.Shows name g) (cause : PublishCause) {r : Record}
    (hr : r.group.name = name → g.Alike r.group) : (b.put cause r).Shows name g := by
  intro i x hx
  rw [records_put] at hx
  split at hx
  · rw [← Option.some.inj hx]
    exact hr
  · exact h i x hx

theorem Shows.modify (h : b.Shows name g) (index : Nat) (cause : PublishCause)
    {change : Record → Option Record}
    (hc : ∀ r next, b.records[index]? = some r → change r = some next → next.group.name = name →
      r.group.name = name ∧ (g.Alike r.group → g.Alike next.group)) :
    (b.modify index cause change).1.Shows name g := by
  rcases modify_cases b index cause change with he | ⟨r, next, hr, hnext, he⟩ <;> rw [he]
  · exact h
  · refine h.put cause fun hn => ?_
    obtain ⟨hname, ha⟩ := hc r next hr hnext hn
    exact ha (h index r hr hname)

theorem Shows.publish (h : b.Shows name g) (index : Nat) {x : Group}
    (hx : x.name = name → g.Alike x) : (b.publish index x).1.Shows name g := by
  rcases publish_cases b index x with he | he <;> rw [he]
  · exact h
  · refine h.put .topology fun hn => ?_
    exact (hx ((arrange_name b x).symm.trans hn)).trans (arrange_alike b x)

theorem publish_group (b : Board) (index : Nat) (g : Group) :
    ((b.publish index g).1.records[index]?).map Record.group = some (b.arrange g) := by
  unfold Board.publish
  dsimp only
  split
  · next h =>
    obtain ⟨x, hx, he⟩ := Option.any_eq_true _ _ |>.mp h
    rw [hx, Option.map_some, eq_of_beq he]
  · rw [records_put, if_pos rfl]
    rfl

theorem Shows.modifyDelays (h : b.Shows name g) (index : Nat) {change : Record → Option Record}
    (hc : ∀ r next, change r = some next →
      next.group.name = r.group.name ∧ r.group.Alike next.group) :
    (b.modifyDelays index change).1.Shows name g := by
  have hm : (b.modify index .delay change).1.Shows name g :=
    h.modify index .delay fun r next _ hnext hn =>
      have ⟨hname, ha⟩ := hc r next hnext
      ⟨hname.symm.trans hn, fun hr => hr.trans ha⟩
  unfold Board.modifyDelays
  dsimp only
  split
  · exact hm.of_same (requestResort_same _ _)
  · exact hm

theorem Shows.updateDelay (h : b.Shows name g) (index : Nat) (proxy : String) (delay : Int) :
    (b.updateDelay index proxy delay).1.Shows name g := by
  apply h.modifyDelays
  intro r next hc
  split at hc
  · cases hc
    exact ⟨rfl, r.withDelay_alike proxy delay⟩
  · cases hc

theorem Shows.updateDelays (h : b.Shows name g) (index : Nat) (delays : DelayTable) :
    (b.updateDelays index delays).1.Shows name g := by
  apply h.modifyDelays
  intro r next hc
  simp only [Record.withDelays?] at hc
  split at hc
  · cases hc
  · cases hc
    exact ⟨(foldl_withDelay_tag _ r).1, r.foldl_withDelay_alike _⟩

theorem Shows.setTesting (h : b.Shows name g) (index : Nat) (testing : Bool) :
    (b.setTesting index testing).1.Shows name g := by
  apply h.modify
  intro r next _ hc hn
  split at hc
  · cases hc
  · cases hc
    exact ⟨hn, id⟩

theorem Shows.setSelection (h : b.Shows name g) (index : Nat) {now : String}
    (hnow : ∀ x, b.records[index]? = some x → x.group.name = name → g.now = some now) :
    (b.setSelection index now).1.Shows name g := by
  apply h.modify
  intro r next hr hc hn
  split at hc
  · cases hc
  · cases hc
    exact ⟨hn, fun ha => ⟨(hnow r hr hn).symm, ha.members⟩⟩

theorem Shows.resortRecord (h : b.Shows name g) (index : Nat) :
    (b.resortRecord index).Shows name g := by
  apply h.modify
  intro r next _ hc hn
  dsimp only at hc
  split at hc
  · cases hc
  · cases hc
    refine ⟨hn, fun ha => ha.trans ⟨rfl, ?_⟩⟩
    exact (sortProxies_perm .delay r.group.members).map Proxy.identity

theorem Shows.serveResorting (h : b.Shows name g) (now : Nat) :
    (b.serveResorting now).Shows name g := by
  have hfold : ∀ (indices : List Nat) (b : Board), b.Shows name g →
      (indices.foldl Board.resortRecord b).Shows name g := fun indices _ h =>
    List.foldlRecOn indices _ h fun _ hb i _ => hb.resortRecord i
  unfold Board.serveResorting
  split
  · exact h
  · split
    · unfold resort
      split
      · exact hfold _ _ h
      · exact h
    · exact h

end Board

namespace Registry

variable {r r' : Registry} {name : String} {g : Group}

def Write.Fits (name : String) (g : Group) : Write → Prop
  | .publish _ x => x.name = name → g.Alike x
  | .setSelection _ group now => group = name → g.now = some now
  | _ => True

theorem shows_write (hr : r.Aligned) (h : r.board.Shows name g) {w : Write} (hw : w.Fits name g) :
    (w.apply r).1.board.Shows name g := by
  cases hh : r.holds w.index w.name with
  | false => rw [Write.apply_of_not_holds hh]; exact h
  | true =>
    rw [Write.apply_of_holds hh]
    cases w with
    | publish index x => exact h.publish index hw
    | setSelection index group now =>
      refine h.setSelection index fun x hx hn => hw ?_
      -- the record stands under the name that was written to
      have hx := hr.name hx
      rw [hn] at hx
      simpa [holds, Write.index, Write.name, hx] using (beq_iff_eq.mp hh).symm
    | updateDelay index group proxy delay => exact h.updateDelay index proxy delay
    | updateDelays index group delays => exact h.updateDelays index delays
    | setTesting index group testing => exact h.setTesting index testing

theorem index_eq {names : List String} (hd : names.Nodup) {i j : Nat}
    (hi : names[i]? = some name) (hj : names[j]? = some name) : i = j :=
  (List.getElem?_inj (List.getElem?_eq_some_iff.mp hi).1 hd).mp (hi.trans hj.symm)

theorem shows_publish (hr : r.Aligned) (hd : r.names.Nodup) {index : Nat} {x : Group}
    (hi : r.names[index]? = some x.name) (hx : g.Alike x) :
    (r.publish index x).1.board.Shows x.name g := by
  intro i y hy hn
  have hname := (hr.write (.publish index x)).name hy
  rw [Write.names_apply, hn] at hname
  obtain rfl := index_eq hd hname hi
  have hh : r.holds i x.name = true := by simp [holds, hi]
  have hb : (r.publish i x).1.board = (r.board.publish i x).1 := by
    rw [Registry.publish, Registry.write, if_pos hh]
  have hg := r.board.publish_group i x
  rw [← hb, hy] at hg
  exact Option.some.inj hg ▸ hx.trans (Board.arrange_alike r.board x)

theorem shows_replace (hr : r.Aligned) (h : r.board.Shows name g) (hn : name ∈ r.names)
    {names : List String} (hd : names.Nodup) : (r.replace names).1.board.Shows name g := by
  by_cases he : r.names = names
  · rw [replace, if_pos he]
    exact h
  · intro i x hx hxn
    have ha := (hr.replace names).name hx
    rw [replace_names, hxn] at ha
    have hfirst : IsFirst names name i := by
      refine ⟨ha, fun k hk hname => ?_⟩
      have := index_eq hd hname ha
      omega
    obtain ⟨j, y, hj, hy, hc⟩ := carried_of_first hr hfirst hn
    have hyn : y.group.name = name := Option.some.inj ((hr.name hy).symm.trans hj.1)
    rw [replace_record r he ha] at hx
    rw [← Option.some.inj hx, hc]
    exact (h j y hy hyn).trans (Board.arrange_alike r.board y.group)

def enter (r : Registry) (table : GroupTable) (name : String) : GroupTable :=
  match r.groupByName? name with
  | none => table
  | some g => table.insert name g

theorem table_eq (r : Registry) : r.table = r.names.foldl r.enter ∅ := rfl

theorem foldl_enter (hg : r.groupByName? name = some g) {names : List String} {table : GroupTable}
    (h : table[name]? = some g ∨ name ∈ names) :
    (names.foldl r.enter table)[name]? = some g := by
  induction names generalizing table with
  | nil => exact h.resolve_right List.not_mem_nil
  | cons n rest ih =>
    apply ih
    by_cases hn : n = name
    · subst hn
      rw [enter, hg]
      exact .inl Std.ExtTreeMap.getElem?_insert_self
    · refine (h.imp_right fun hm => (List.mem_cons.mp hm).resolve_left (Ne.symm hn)).imp_left ?_
      intro ht
      have hne : ¬ compare n name = .eq := by simpa using hn
      unfold enter
      split
      · exact ht
      · rw [Std.ExtTreeMap.getElem?_insert, if_neg hne]
        exact ht

theorem groupByName?_eq_some (hr : r.Aligned) (hn : name ∈ r.names) :
    ∃ (i : Nat) (x : Record), r.board.records[i]? = some x ∧ x.group.name = name ∧
      r.groupByName? name = some x.group := by
  have hsome : (r.indexOf? name).isSome = true := by
    simpa [indexOf?] using hn
  obtain ⟨i, hi⟩ := Option.isSome_iff_exists.mp hsome
  obtain ⟨hlt, hname, _⟩ := List.findIdx?_eq_some_iff_getElem.mp hi
  have hname : r.names[i]? = some name := by
    rw [List.getElem?_eq_getElem hlt, eq_of_beq hname]
  have hmem := (hr.mem_iff i).mpr hlt
  rw [Std.ExtTreeMap.mem_iff_isSome_getElem?] at hmem
  obtain ⟨x, hx⟩ := Option.isSome_iff_exists.mp hmem
  have hxn : x.group.name = name := Option.some.inj ((hr.name hx).symm.trans hname)
  refine ⟨i, x, hx, hxn, ?_⟩
  rw [groupByName?, hi, Option.bind_some, group?, hx]
  simp [holds, hname, hxn]

theorem table_shows (hr : r.Aligned) (h : r.board.Shows name g) (hn : name ∈ r.names) :
    ∃ g', r.table[name]? = some g' ∧ g.Alike g' := by
  obtain ⟨i, x, hx, hxn, hg⟩ := groupByName?_eq_some hr hn
  exact ⟨x.group, table_eq r ▸ foldl_enter hg (.inr hn), h i x hx hxn⟩

end Registry

end ProxyPulse
