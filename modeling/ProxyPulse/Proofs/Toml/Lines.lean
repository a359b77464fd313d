import ProxyPulse.Proofs.Toml.Values

namespace ProxyPulse.Toml

namespace Entries

variable {front entries : Entries} {key : String} {node : Node}

theorem get?_eq_none : entries.get? key = none ↔ key ∉ entries.map Prod.fst := by
  rw [get?, List.lookup_eq_none_iff]
  simp only [List.mem_map, not_exists, not_and, bne_iff_ne]
  exact ⟨fun h e he heq => h e he heq.symm, fun h e he heq => h e he heq.symm⟩

theorem get?_last (h : front.get? key = none) : get? (front ++ [(key, node)]) key = some node := by
  rw [get?] at h ⊢
  rw [List.lookup_append, h, List.lookup_cons_self, Option.none_or]

theorem set_absent (h : entries.get? key = none) : entries.set key node = entries := by
  refine (List.map_congr_left fun e he => ?_).trans (List.map_id _)
  exact if_neg fun heq => get?_eq_none.mp h (List.mem_map.mpr ⟨e, he, beq_iff_eq.mp heq⟩)

theorem set_last (h : front.get? key = none) (new : Node) :
    set (front ++ [(key, node)]) key new = front ++ [(key, new)] := by
  have hfront : set front key new = front := set_absent h
  rw [set] at hfront ⊢
  rw [List.map_append, hfront, List.map_singleton, if_pos BEq.rfl]

theorem remove_absent (h : entries.get? key = none) : entries.remove key = entries := by
  refine List.filter_eq_self.mpr fun e he => bne_iff_ne.mpr fun heq => ?_
  exact get?_eq_none.mp h (List.mem_map.mpr ⟨e, he, heq⟩)

end Entries

def Reads (d : Draft) (s : String) (d' : Draft) : Prop :=
  ∀ fuel rest, s.toList.length + rest.length < fuel →
    ∃ fuel', rest.length < fuel' ∧ lines? fuel d (s.toList ++ rest) = lines? fuel' d' rest

variable {d d' d'' : Draft} {s t : String}

theorem Reads.refl (d : Draft) : Reads d "" d :=
  fun fuel _ hfuel => ⟨fuel, by simpa using hfuel, rfl⟩

theorem Reads.append (h : Reads d s d') (h' : Reads d' t d'') : Reads d (s ++ t) d'' := by
  intro fuel rest hfuel
  rw [String.toList_append, List.length_append] at hfuel
  obtain ⟨fuel', hfuel', heq⟩ := h fuel (t.toList ++ rest) (by rw [List.length_append]; omega)
  obtain ⟨fuel'', hfuel'', heq'⟩ := h' fuel' rest (by rwa [List.length_append] at hfuel')
  exact ⟨fuel'', hfuel'', by rw [String.toList_append, List.append_assoc, heq, heq']⟩

theorem Reads.of_step (hlines : ∀ fuel rest,
    lines? (fuel + 1) d (s.toList ++ rest) = lines? fuel d' rest) (hpos : s ≠ "") :
    Reads d s d' := by
  intro fuel rest hfuel
  have hlength := List.length_pos_iff.mpr (mt String.toList_eq_nil_iff.mp hpos)
  match fuel with
  | 0 => omega
  | fuel + 1 => exact ⟨fuel, by omega, hlines fuel rest⟩

theorem reads_blank (d : Draft) : Reads d "\n" d :=
  .of_step (fun _ _ => rfl) (by decide)

theorem endOfLine?_line (rest : List Char) : endOfLine? ('\n' :: rest) = some rest := rfl

structure Line where
  name : String
  value : String
  document : Document

namespace Line

def text (l : Line) : String :=
  l.name ++ " = " ++ l.value ++ "\n"

def entry (l : Line) : String × Node :=
  (l.name, .value l.document)

structure Sound (l : Line) : Prop where
  name : IsBare l.name
  value : Spells l.value l.document

end Line

theorem Line.toList_append (l : Line) (rest : List Char) : l.text.toList ++ rest =
    l.name.toList ++ ' ' :: '=' :: ' ' :: (l.value.toList ++ '\n' :: rest) := by
  simp [Line.text]

theorem keyLine?_of_key {path : List String} {s rest : List Char}
    (h : key? s = some (path, '=' :: rest)) :
    keyLine? d s = (value? (2 * rest.length + 2) 0 (rest.dropWhile isBlank)).bind fun (v, s) =>
      (endOfLine? s).bind fun s => (d.insert path v).map fun d => (d, s) := by
  rw [keyLine?, h, Option.bind_eq_bind, Option.bind_some]
  simp only [Option.map_eq_bind]
  rfl

theorem keyLine?_line {l : Line} (h : l.Sound) (hnew : d.current.get? l.name = none)
    (rest : List Char) :
    keyLine? d (l.text.toList ++ rest) =
      some ({ d with current := d.current ++ [l.entry] }, rest) := by
  have hkey (s : List Char) : key? (l.name.toList ++ ' ' :: '=' :: s) = some ([l.name], '=' :: s) :=
    names?_last h.name (by rintro _ ⟨⟩; rfl) (by simp [isBlank])
  have hinsert : d.insert [l.name] l.document =
      some { d with current := d.current ++ [l.entry] } := by
    simp [Draft.insert, Draft.splitLast, Entries.insert, Entries.update, hnew, Line.entry]
  rw [l.toList_append, keyLine?_of_key (hkey _), List.dropWhile_cons_of_pos rfl, h.value.dropWhile,
    h.value.value?, Option.bind_some]
  dsimp only
  rw [endOfLine?_line, Option.bind_some, hinsert, Option.map_some]

theorem lines?_key {c : Char} (hc : isBareKeyChar c = true) (fuel : Nat) (s : List Char) :
    lines? (fuel + 1) d (c :: s) =
      (keyLine? d (c :: s)).bind fun (d, s) => lines? fuel d s := by
  have hnewline : newline? (c :: s) = none := by
    rw [newline?.eq_def]
    split
    · next heq => exact absurd heq (front_ne hc rfl)
    · next heq => exact absurd heq (front_ne hc rfl)
    · rfl
  rw [lines?, List.dropWhile_cons_of_neg (not_blank hc rfl rfl)]
  split
  · next heq => cases heq
  · next heq => exact absurd heq (front_ne hc rfl)
  · next heq => exact absurd heq (front_ne hc rfl)
  · rw [hnewline]

theorem reads_line {l : Line} (h : l.Sound) (hnew : d.current.get? l.name = none) :
    Reads d l.text { d with current := d.current ++ [l.entry] } := by
  obtain ⟨c, more, heq, hc⟩ := h.name.front
  refine .of_step (fun fuel rest => ?_) (by simp [Line.text])
  have hline := keyLine?_line h hnew rest
  rw [l.toList_append, heq, List.cons_append] at hline ⊢
  rw [lines?_key hc, hline, Option.bind_some]

theorem reads_lines {lines : List Line} (h : ∀ l ∈ lines, l.Sound)
    (hnames : (d.current.map Prod.fst ++ lines.map Line.name).Nodup) :
    Reads d (String.join (lines.map Line.text))
      { d with current := d.current ++ lines.map Line.entry } := by
  -- the lines read so far are at the end of the current table
  induction lines generalizing d with
  | nil => simpa using Reads.refl d
  | cons l lines ih =>
    obtain ⟨hl, hlines⟩ := List.forall_mem_cons.mp h
    have hnew : d.current.get? l.name = none := by
      rw [Entries.get?_eq_none]
      exact fun hm => (List.nodup_append.mp hnames).2.2 _ hm _ List.mem_cons_self rfl
    have hmore : ((d.current ++ [l.entry]).map Prod.fst ++ lines.map Line.name).Nodup := by
      simpa [Line.entry] using hnames
    have hread := (reads_line hl hnew).append (ih hlines hmore)
    rw [List.append_assoc] at hread
    rw [List.map_cons, String.join_cons]
    exact hread

variable {front fields root root' root'' : Entries} {a b name : String} {tables : List Entries}

namespace Entries

def withTable (entries : Entries) (key : String) (inner : Entries) : Entries :=
  entries ++ [(key, .table false false inner)]

theorem update_withTable {change : Bool → Entries → Option Entries} (h : front.get? a = none)
    (inner : Entries) : update false change [a] false (front.withTable a inner) =
      (change false inner).map (front.withTable a) := by
  unfold withTable
  rw [update, get?_last h]
  simp [update, set_last h]

def withSeries (fields : Entries) (key : String) (tables : List Entries) : Entries :=
  if tables.isEmpty then fields else fields ++ [(key, .series tables)]

end Entries

namespace Draft

theorem openTable_new (hclose : d.close = some root) (h : root.get? name = none) :
    d.openTable [name] = some ⟨root, [], [name], false⟩ := by
  simp [openTable, hclose, splitLast, Entries.update, claimed?, find?, h, Entries.remove_absent h]

theorem close_table (h : root.get? name = none) (entries : Entries) :
    close ⟨root, entries, [name], false⟩ = some (root.withTable name entries) := by
  simp [close, splitLast, Entries.update, h, Entries.withTable]

theorem openSeries_last (ha : front.get? a = none) (hb : fields.get? b = none)
    (hroot : root = front.withTable a (fields.withSeries b tables)) (hclose : d.close = some root) :
    d.openSeries [a, b] = some ⟨root, [], [a, b], true⟩ := by
  -- before its first table the series is not among the fields
  cases tables with
  | nil =>
    simp [openSeries, hclose, splitLast, hroot, Entries.update_withTable ha, Entries.withSeries, hb]
  | cons table tables =>
    simp [openSeries, hclose, splitLast, hroot, Entries.update_withTable ha, Entries.withSeries,
      Entries.get?_last hb]

theorem close_series (ha : front.get? a = none) (hb : fields.get? b = none) (row : Entries) :
    close ⟨front.withTable a (fields.withSeries b tables), row, [a, b], true⟩ =
      some (front.withTable a (fields.withSeries b (tables ++ [row]))) := by
  cases tables with
  | nil =>
    simp [close, splitLast, Entries.update_withTable ha, Entries.withSeries, hb]
  | cons table tables =>
    simp [close, splitLast, Entries.update_withTable ha, Entries.withSeries, Entries.get?_last hb,
      Entries.set_last hb]

end Draft

theorem header?_table (h : IsBare name) (rest : List Char) :
    header? d (name.toList ++ ']' :: '\n' :: rest) =
      (d.openTable [name]).map fun d => (d, rest) := by
  obtain ⟨c, more, heq, hc⟩ := h.front
  have hkey : key? (name.toList ++ ']' :: '\n' :: rest) = some ([name], ']' :: '\n' :: rest) :=
    names?_last h (by rintro _ ⟨⟩; rfl) (by simp [isBlank])
  rw [header?.eq_def]
  split
  · next hcons => exact absurd (heq ▸ hcons) (front_ne hc rfl)
  · rw [hkey, Option.bind_eq_bind, Option.bind_some]
    change ((d.openTable [name]).bind fun d =>
      (endOfLine? ('\n' :: rest)).bind fun s => some (d, s)) = _
    cases d.openTable [name] <;> rfl

theorem header?_series (ha : IsBare a) (hb : IsBare b) (rest : List Char) :
    header? d ('[' :: (a.toList ++ '.' :: (b.toList ++ ']' :: ']' :: '\n' :: rest))) =
      (d.openSeries [a, b]).map fun d => (d, rest) := by
  have hlast : names? (depthLimit - 2) (b.toList ++ ']' :: ']' :: '\n' :: rest) =
      some ([b], ']' :: ']' :: '\n' :: rest) :=
    names?_last hb (by rintro _ ⟨⟩; rfl) (by simp [isBlank])
  have hkey : key? (a.toList ++ '.' :: (b.toList ++ ']' :: ']' :: '\n' :: rest)) =
      some ([a, b], ']' :: ']' :: '\n' :: rest) :=
    (names?_more ha).trans (congrArg _ hlast)
  rw [header?, hkey, Option.bind_eq_bind, Option.bind_some]
  change ((d.openSeries [a, b]).bind fun d =>
    (endOfLine? ('\n' :: rest)).bind fun s => some (d, s)) = _
  cases d.openSeries [a, b] <;> rfl

theorem lines?_header (fuel : Nat) (s : List Char) : lines? (fuel + 1) d ('[' :: s) =
    (header? d s).bind fun (d, s) => lines? fuel d s := rfl

def Closes (root : Entries) (s : String) (root' : Entries) : Prop :=
  ∀ d : Draft, d.close = some root → ∃ d', Reads d s d' ∧ d'.close = some root'

theorem Closes.append (h : Closes root s root') (h' : Closes root' t root'') :
    Closes root (s ++ t) root'' := by
  intro d hd
  obtain ⟨d', hread, hd'⟩ := h d hd
  obtain ⟨d'', hread', hd''⟩ := h' d' hd'
  exact ⟨d'', hread.append hread', hd''⟩

theorem Closes.refl (root : Entries) : Closes root "" root :=
  fun d hd => ⟨d, .refl d, hd⟩

theorem closes_blank (root : Entries) : Closes root "\n" root :=
  fun d hd => ⟨d, reads_blank d, hd⟩

structure Sound (lines : List Line) : Prop where
  sound : ∀ l ∈ lines, l.Sound
  nodup : (lines.map Line.name).Nodup

theorem closes_table {lines : List Line} (h : Sound lines) (hname : IsBare name)
    (hnew : root.get? name = none) :
    Closes root ("[" ++ name ++ "]\n" ++ String.join (lines.map Line.text))
      (root.withTable name (lines.map Line.entry)) := by
  intro d hd
  have hheader : Reads d ("[" ++ name ++ "]\n") ⟨root, [], [name], false⟩ := by
    refine .of_step (fun fuel rest => ?_) (by simp)
    have htext : ("[" ++ name ++ "]\n").toList ++ rest =
        '[' :: (name.toList ++ ']' :: '\n' :: rest) := by
      simp
    rw [htext, lines?_header, header?_table hname, Draft.openTable_new hd hnew, Option.map_some,
      Option.bind_some]
  exact ⟨_, hheader.append (reads_lines h.sound h.nodup), Draft.close_table hnew _⟩

section

variable {lines : List Line} (ha : IsBare a) (hb : IsBare b) (hfront : front.get? a = none)
  (hfields : fields.get? b = none)

include ha hb hfront hfields

theorem closes_row (tables : List Entries) (h : Sound lines) :
    Closes (front.withTable a (fields.withSeries b tables))
      ("[[" ++ a ++ "." ++ b ++ "]]\n" ++ String.join (lines.map Line.text))
      (front.withTable a (fields.withSeries b (tables ++ [lines.map Line.entry]))) := by
  intro d hd
  have hheader : Reads d ("[[" ++ a ++ "." ++ b ++ "]]\n")
      ⟨front.withTable a (fields.withSeries b tables), [], [a, b], true⟩ := by
    refine .of_step (fun fuel rest => ?_) (by simp)
    have htext : ("[[" ++ a ++ "." ++ b ++ "]]\n").toList ++ rest =
        '[' :: '[' :: (a.toList ++ '.' :: (b.toList ++ ']' :: ']' :: '\n' :: rest)) := by
      simp
    rw [htext, lines?_header, header?_series ha hb, Draft.openSeries_last hfront hfields rfl hd,
      Option.map_some, Option.bind_some]
  exact ⟨_, hheader.append (reads_lines h.sound h.nodup), Draft.close_series hfront hfields _⟩

theorem closes_series {α : Type} (tables : List Entries) {rows : List α} {lines : α → List Line}
    (h : ∀ row ∈ rows, Sound (lines row)) :
    Closes (front.withTable a (fields.withSeries b tables))
      (String.join (rows.map fun row =>
        "\n" ++ ("[[" ++ a ++ "." ++ b ++ "]]\n" ++ String.join ((lines row).map Line.text))))
      (front.withTable a
        (fields.withSeries b (tables ++ rows.map fun row => (lines row).map Line.entry))) := by
  induction rows generalizing tables with
  | nil =>
    rw [List.map_nil, List.map_nil, List.append_nil]
    exact .refl _
  | cons row rows ih =>
    obtain ⟨hrow, hrows⟩ := List.forall_mem_cons.mp h
    have hone := (closes_blank _).append (closes_row ha hb hfront hfields tables hrow)
    have hall := hone.append (ih _ hrows)
    rw [List.append_assoc] at hall
    rw [List.map_cons, String.join_cons]
    exact hall

end

theorem Closes.parse? (h : Closes [] s root) (hmark : s.toList.head? ≠ some '\uFEFF') :
    parse? s = some (.table (Node.entriesToDocument root)) := by
  obtain ⟨d, hread, hd⟩ := h {} rfl
  obtain ⟨fuel, hfuel, hlines⟩ := hread (s.toList.length + 1) [] (by simp)
  have hend : lines? fuel d [] = some d := by
    match fuel with
    | 0 => omega
    | fuel + 1 => rfl
  rw [List.append_nil, hend] at hlines
  unfold Toml.parse?
  split
  · next heq => exact absurd (congrArg List.head? heq) hmark
  · dsimp only
    rw [hlines, Option.bind_some, Draft.finish, hd, Option.map_some]

end ProxyPulse.Toml
