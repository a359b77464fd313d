import ProxyPulse.Proofs.Board
import ProxyPulse.Registry

namespace ProxyPulse.Registry

inductive Write where
  | publish (index : Nat) (g : Group)
  | setSelection (index : Nat) (name now : String)
  | updateDelay (index : Nat) (name proxy : String) (delay : Int)
  | updateDelays (index : Nat) (name : String) (delays : DelayTable)
  | setTesting (index : Nat) (name : String) (testing : Bool)

namespace Write

def index : Write → Nat
  | .publish index _ => index
  | .setSelection index _ _ => index
  | .updateDelay index _ _ _ => index
  | .updateDelays index _ _ => index
  | .setTesting index _ _ => index

def name : Write → String
  | .publish _ g => g.name
  | .setSelection _ name _ => name
  | .updateDelay _ name _ _ => name
  | .updateDelays _ name _ => name
  | .setTesting _ name _ => name

def isFlag : Write → Bool
  | .setTesting _ _ _ => true
  | _ => false

def act : Write → Board → Board × Bool
  | .publish index g => (·.publish index g)
  | .setSelection index _ now => (·.setSelection index now)
  | .updateDelay index _ proxy delay => (·.updateDelay index proxy delay)
  | .updateDelays index _ delays => (·.updateDelays index delays)
  | .setTesting index _ testing => (·.setTesting index testing)

def apply (r : Registry) : Write → Registry × Bool
  | .publish index g => r.publish index g
  | .setSelection index name now => r.setSelection index name now
  | .updateDelay index name proxy delay => r.updateDelay index name proxy delay
  | .updateDelays index name delays => r.updateDelays index name delays
  | .setTesting index name testing => r.setTesting index name testing

theorem apply_eq (r : Registry) (w : Write) : w.apply r = r.write w.index w.name w.act := by
  cases w <;> rfl

theorem apply_of_not_holds {r : Registry} {w : Write} (h : r.holds w.index w.name = false) :
    w.apply r = (r, false) := by
  simp [apply_eq, Registry.write, h]

theorem apply_of_holds {r : Registry} {w : Write} (h : r.holds w.index w.name = true) :
    (w.apply r).1 = { r with board := (w.act r.board).1 } := by
  simp [apply_eq, Registry.write, h]

theorem names_apply (r : Registry) (w : Write) : (w.apply r).1.names = r.names := by
  cases h : r.holds w.index w.name with
  | false => rw [apply_of_not_holds h]
  | true => rw [apply_of_holds h]

theorem act_records_of_ne (b : Board) (w : Write) {j : Nat} (hj : j ≠ w.index) :
    (w.act b).1.records[j]? = b.records[j]? := by
  cases w with
  | publish index g => exact b.publish_records_of_ne hj g
  | setSelection index name now => exact b.modify_records_of_ne hj _ _
  | updateDelay index name proxy delay => exact b.modifyDelays_records_of_ne hj _
  | updateDelays index name delays => exact b.modifyDelays_records_of_ne hj _
  | setTesting index name testing => exact b.setTesting_records_of_ne hj testing

theorem target_of_changed {r : Registry} {w : Write} {j : Nat}
    (h : (w.apply r).1.board.records[j]? ≠ r.board.records[j]?) :
    j = w.index ∧ r.names[j]? = some w.name := by
  cases hw : r.holds w.index w.name with
  | false => rw [apply_of_not_holds hw] at h; exact absurd rfl h
  | true =>
    rw [apply_of_holds hw] at h
    by_cases hj : j = w.index
    · subst hj
      exact ⟨rfl, by simpa [holds] using hw⟩
    · exact absurd (act_records_of_ne r.board w hj) h

theorem config_apply (r : Registry) (w : Write) :
    (w.apply r).1.board.config = r.board.config := by
  cases h : r.holds w.index w.name with
  | false => rw [apply_of_not_holds h]
  | true =>
    rw [apply_of_holds h]
    cases w with
    | publish index g => exact r.board.publish_config index g
    | setSelection | setTesting => exact r.board.modify_config _ _ _
    | updateDelay | updateDelays => exact r.board.modifyDelays_config _ _

end Write

structure Aligned (r : Registry) : Prop where
  named : ∀ i, (r.board.tag i).map Prod.fst = r.names[i]?
  indexed : r.board.Indexed

theorem Aligned.mem_iff {r : Registry} (h : r.Aligned) (i : Nat) :
    i ∈ r.board.records ↔ i < r.names.length := by
  have hn := congrArg Option.isSome (h.named i)
  simp only [Board.tag, Option.map_map, Option.isSome_map] at hn
  rw [Std.ExtTreeMap.mem_iff_isSome_getElem?, hn]
  simp

theorem Aligned.name {r : Registry} (h : r.Aligned) {i : Nat} {x : Record}
    (hx : r.board.records[i]? = some x) : r.names[i]? = some x.group.name := by
  rw [← h.named i, Board.tag, hx]
  rfl

theorem Aligned.of_keeps {r r' : Registry} (hr : r.Aligned) (hn : r'.names = r.names)
    (hb : r.board.Keeps r'.board) : r'.Aligned :=
  ⟨fun i => by rw [hb.tags, hn, hr.named], hb.indexed hr.indexed⟩

theorem Write.apply_keeps {r : Registry} (hr : r.Aligned) {w : Write} (hw : w.isFlag = false) :
    r.board.Keeps (w.apply r).1.board := by
  cases h : r.holds w.index w.name with
  | false => rw [apply_of_not_holds h]; exact .refl _
  | true =>
    rw [apply_of_holds h]
    cases w with
    | publish index g =>
      apply Board.publish_keeps
      rw [hr.named]
      simpa [holds, Write.index, Write.name] using h
    | setSelection index name now => exact Board.setSelection_keeps _ _ _
    | updateDelay index name proxy delay => exact Board.updateDelay_keeps _ _ _ _
    | updateDelays index name delays => exact Board.updateDelays_keeps _ _ _
    | setTesting index name testing => cases hw

theorem group_name {r : Registry} {index : Nat} {g : Group} (h : r.group? index = some g) :
    r.names[index]? = some g.name := by
  obtain ⟨x, hx, rfl⟩ := Option.map_eq_some_iff.mp h
  have hh := (Option.filter_eq_some_iff.mp hx).2
  simpa [holds] using hh

theorem setTesting_board {r : Registry} {index : Nat} {name : String}
    (h : r.names[index]? = some name) (testing : Bool) :
    (r.setTesting index name testing).1.board = (r.board.setTesting index testing).1 := by
  rw [setTesting, write, if_pos (by simp [holds, h])]

theorem setTesting_tag {r : Registry} {index : Nat} {name : String}
    (h : r.names[index]? = some name) (testing : Bool) (i : Nat) :
    (r.setTesting index name testing).1.board.tag i =
      if i = index then (r.board.tag i).map fun t => (t.1, testing) else r.board.tag i := by
  rw [setTesting_board h]
  exact Board.tag_setTesting _ _ _ _

theorem setTesting_indexed {r : Registry} (h : r.board.Indexed) (index : Nat) (name : String)
    (testing : Bool) : (r.setTesting index name testing).1.board.Indexed := by
  unfold setTesting write
  split
  · exact Board.setTesting_indexed h _ _
  · exact h

theorem setTesting_content (r : Registry) (index : Nat) (name : String) (testing : Bool)
    (j : Nat) : (r.setTesting index name testing).1.board.content j = r.board.content j := by
  unfold setTesting write
  split
  · exact Board.setTesting_content _ _ _ _
  · rfl

theorem setTesting_events (r : Registry) (index : Nat) (name : String) (testing : Bool) :
    r.board.events <:+ (r.setTesting index name testing).1.board.events := by
  unfold setTesting write
  split
  · exact Board.setTesting_events _ _ _
  · exact List.suffix_refl _

theorem setTesting_names (r : Registry) (index : Nat) (name : String) (testing : Bool) :
    (r.setTesting index name testing).1.names = r.names :=
  Write.names_apply r (.setTesting index name testing)

theorem Aligned.setTesting {r : Registry} (hr : r.Aligned) (index : Nat) (name : String)
    (testing : Bool) : (r.setTesting index name testing).1.Aligned := by
  unfold Registry.setTesting Registry.write
  split
  · refine ⟨fun i => ?_, Board.setTesting_indexed hr.indexed _ _⟩
    rw [← hr.named i, Board.tag_setTesting]
    split
    · simp [Function.comp_def]
    · rfl
  · exact hr

theorem Aligned.write {r : Registry} (hr : r.Aligned) (w : Write) : (w.apply r).1.Aligned := by
  cases hw : w.isFlag with
  | false => exact hr.of_keeps (Write.names_apply r w) (Write.apply_keeps hr hw)
  | true =>
    cases w with
    | setTesting index name testing => exact hr.setTesting index name testing
    | publish | setSelection | updateDelay | updateDelays => cases hw

def WellNamed (table : GroupTable) : Prop :=
  ∀ name (g : Group), table[name]? = some g → g.name = name

theorem wellNamed_insert {table : GroupTable} (h : WellNamed table) (g : Group) :
    WellNamed (table.insert g.name g) := by
  intro name x hx
  simp only [Std.ExtTreeMap.getElem?_insert, Std.compare_eq_iff_eq] at hx
  split at hx
  · next hn => rw [← Option.some.inj hx, hn]
  · exact h name x hx

theorem wellNamed_erase {table : GroupTable} (h : WellNamed table) (name : String) :
    WellNamed (table.erase name) := by
  intro n x hx
  rw [Std.ExtTreeMap.getElem?_erase] at hx
  split at hx
  · cases hx
  · exact h n x hx

theorem shown_wellNamed (r : Registry) : WellNamed r.shown := by
  unfold shown
  have hempty : WellNamed ∅ := fun name g h => by simp at h
  generalize r.board.records.toList = records
  generalize (∅ : GroupTable) = table at hempty ⊢
  induction records generalizing table with
  | nil => exact hempty
  | cons x rest ih =>
    apply ih
    dsimp only
    split
    · exact wellNamed_insert hempty _
    · exact hempty

theorem takeOver_names {table : GroupTable} (ht : WellNamed table) (names : List String) :
    (takeOver table names).map Group.name = names := by
  induction names generalizing table with
  | nil => rfl
  | cons name rest ih =>
    have hname : (table[name]?.getD (Group.empty name)).name = name := by
      cases hg : table[name]? with
      | none => rfl
      | some g => exact ht name g hg
    rw [takeOver, List.map_cons, hname, ih (wellNamed_erase ht name)]

theorem publishAll_records (groups : List Group) (b : Board) (start : Nat)
    (hb : ∀ i, start ≤ i → b.records[i]? = none) (j : Nat) :
    (publishAll b start groups).records[j]? =
      if start ≤ j then
        groups[j - start]?.map fun g =>
          ⟨j, b.arrange g, linksFor (b.arrange g).members, false, b.revision + (j - start) + 1⟩
      else b.records[j]? := by
  -- the places from `start` on are empty, and stay so behind the one that is filled first
  induction groups generalizing b start with
  | nil =>
    split
    · next hj => simp [publishAll, hb j hj]
    · rfl
  | cons g rest ih =>
    rw [publishAll, b.publish_empty g (hb start (Nat.le_refl _)), ih _ (start + 1)]
    · rcases Nat.lt_trichotomy j start with hj | rfl | hj
      · rw [if_neg (by omega), if_neg (by omega), Board.records_put, if_neg (Nat.ne_of_lt hj)]
      · rw [if_neg (by omega), if_pos (Nat.le_refl _), Board.records_put, if_pos rfl, Nat.sub_self]
        rfl
      · have hs : j - start = (j - (start + 1)) + 1 := by omega
        have hr : b.revision + (j - (start + 1) + 1) = b.revision + 1 + (j - (start + 1)) := by omega
        rw [if_pos (Nat.succ_le_of_lt hj), if_pos (Nat.le_of_lt hj), hs, List.getElem?_cons_succ, hr]
        rfl
    · intro i hi
      rw [Board.records_put, if_neg (Nat.ne_of_gt hi)]
      exact hb i (Nat.le_of_succ_le hi)

theorem publishAll_events (groups : List Group) (b : Board) (start : Nat)
    (hb : ∀ i, start ≤ i → b.records[i]? = none) :
    (publishAll b start groups).events =
      ((List.range groups.length).map fun i =>
        StateEvent.updated (start + i) (b.revision + i + 1)).reverse ++ b.events := by
  induction groups generalizing b start with
  | nil => rfl
  | cons g rest ih =>
    rw [publishAll, b.publish_empty g (hb start (Nat.le_refl _)), ih _ (start + 1)]
    · rw [List.length_cons, List.range_succ_eq_map, List.map_cons, List.map_map, List.reverse_cons,
        List.append_assoc]
      congr 2
      refine List.map_congr_left fun i _ => ?_
      show StateEvent.updated (start + 1 + i) (b.revision + 1 + i + 1) =
        .updated (start + (i + 1)) (b.revision + (i + 1) + 1)
      congr 1 <;> omega
    · intro i hi
      rw [Board.records_put, if_neg (Nat.ne_of_gt hi)]
      exact hb i (Nat.le_of_succ_le hi)

theorem reset_records (b : Board) (i : Nat) : b.reset.records[i]? = none := by
  simp [Board.reset, Board.emit]

theorem replace_records (r : Registry) {names : List String} (h : r.names ≠ names) (i : Nat) :
    (r.replace names).1.board.records[i]? = (takeOver r.shown names)[i]?.map fun g =>
      ⟨i, r.board.arrange g, linksFor (r.board.arrange g).members, false,
        r.board.revision + i + 1⟩ := by
  rw [replace, if_neg h]
  exact publishAll_records _ r.board.reset 0 (fun i _ => reset_records r.board i) i

theorem replace_tag (r : Registry) {names : List String} (h : r.names ≠ names) (i : Nat) :
    (r.replace names).1.board.tag i = names[i]?.map (·, false) := by
  have hn : ((takeOver r.shown names)[i]?).map Group.name = names[i]? := by
    rw [← List.getElem?_map, takeOver_names (shown_wellNamed r)]
  rw [Board.tag, replace_records r h, ← hn, Option.map_map, Option.map_map]
  congr 1
  funext g
  exact congrArg (·, false) (Board.arrange_name r.board g)

theorem replace_names (r : Registry) (names : List String) : (r.replace names).1.names = names := by
  unfold replace
  split
  · assumption
  · rfl

theorem replace_events_eq (r : Registry) {names : List String} (h : r.names ≠ names) :
    (r.replace names).1.board.events =
      ((List.range names.length).map fun i =>
        StateEvent.updated i (r.board.revision + i + 1)).reverse ++ .reset :: r.board.events := by
  have hl : (takeOver r.shown names).length = names.length := by
    rw [← List.length_map Group.name, takeOver_names (shown_wellNamed r)]
  rw [replace, if_neg h]
  refine (publishAll_events _ r.board.reset 0 fun i _ => reset_records r.board i).trans ?_
  rw [hl]
  simp only [Nat.zero_add]
  rfl

theorem replace_events (r : Registry) (names : List String) :
    r.board.events <:+ (r.replace names).1.board.events := by
  by_cases h : r.names = names
  · have hs : (r.replace names).1 = r := by rw [replace, if_pos h]
    exact hs.symm ▸ List.suffix_refl _
  · rw [replace_events_eq r h]
    exact (List.suffix_cons _ _).trans (List.suffix_append _ _)

theorem publishAll_config (groups : List Group) (b : Board) (start : Nat) :
    (publishAll b start groups).config = b.config := by
  induction groups generalizing b start with
  | nil => rfl
  | cons g rest ih => rw [publishAll, ih, Board.publish_config]

theorem replace_config (r : Registry) (names : List String) :
    (r.replace names).1.board.config = r.board.config := by
  unfold replace
  split
  · rfl
  · exact publishAll_config _ r.board.reset 0

theorem replace_indexed {r : Registry} (hr : r.board.Indexed) (names : List String) :
    (r.replace names).1.board.Indexed := by
  by_cases h : r.names = names
  · rw [replace, if_pos h]
    exact hr
  · intro i x hx
    rw [replace_records r h] at hx
    obtain ⟨g, _, rfl⟩ := Option.map_eq_some_iff.mp hx
    rfl

theorem Aligned.replace {r : Registry} (hr : r.Aligned) (names : List String) :
    (r.replace names).1.Aligned := by
  refine ⟨fun i => ?_, replace_indexed hr.indexed names⟩
  by_cases h : r.names = names
  · rw [Registry.replace, if_pos h]
    exact hr.named i
  · rw [replace_tag r h, replace_names, Option.map_map]
    simp [Function.comp_def]

inductive Step (r : Registry) : Registry → Prop
  | write (w : Write) : Step r (w.apply r).1
  | replace (names : List String) : Step r (r.replace names).1
  | set {b : Board} (h : r.board.Setting b) : Step r { r with board := b }
  | resort (now : Nat) : Step r { r with board := r.board.serveResorting now }

inductive Reachable : Registry → Prop
  | start (config : Config) : Reachable { board := { config } }
  | step {r r' : Registry} : Reachable r → Step r r' → Reachable r'

theorem Aligned.step {r r' : Registry} (hr : r.Aligned) (h : Step r r') : r'.Aligned := by
  cases h with
  | write w => exact hr.write w
  | replace names => exact hr.replace names
  | set hb => exact hr.of_keeps rfl hb.same.keeps
  | resort now => exact hr.of_keeps rfl (Board.serveResorting_keeps _ now)

theorem start_aligned (config : Config) : Aligned { board := { config } } :=
  ⟨fun i => by simp [Board.tag], fun i r h => by simp at h⟩

theorem Reachable.aligned {r : Registry} (h : Reachable r) : r.Aligned := by
  induction h with
  | start config => exact start_aligned config
  | step _ hs ih => exact ih.step hs

end ProxyPulse.Registry
