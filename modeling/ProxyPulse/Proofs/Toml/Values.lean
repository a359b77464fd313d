import ProxyPulse.Proofs.Toml.Strings
import ProxyPulse.Toml.Reader

namespace ProxyPulse.Toml

variable {rest ds : List Char}

theorem front_ne {p : Char → Bool} {c d : Char} {s t : List Char} (hc : p c = true)
    (hd : p d = false) : c :: s ≠ d :: t := by
  intro heq
  obtain ⟨rfl, _⟩ := List.cons.inj heq
  exact absurd (hd ▸ hc) Bool.false_ne_true

theorem not_blank {p : Char → Bool} {c : Char} (hc : p c = true) (hspace : p ' ' = false)
    (htab : p '\t' = false) : ¬ isBlank c = true := by
  rw [isBlank, Bool.or_eq_true, beq_iff_eq, beq_iff_eq]
  rintro (rfl | rfl)
  · exact absurd (hspace ▸ hc) Bool.false_ne_true
  · exact absurd (htab ▸ hc) Bool.false_ne_true

theorem digitChar_ne_zero : ∀ n < 10, n ≠ 0 → n.digitChar ≠ '0' := by
  decide

theorem toDigits_head (n : Nat) (hn : n ≠ 0) : (Nat.toDigits 10 n).head? ≠ some '0' := by
  induction n using Nat.strongRecOn with
  | ind n ih =>
    rcases Nat.lt_or_ge n 10 with hlt | hge
    · rw [Nat.toDigits_of_lt_base hlt, List.head?_cons]
      exact fun h => digitChar_ne_zero n hlt hn (Option.some.inj h)
    · obtain ⟨c, t, heq⟩ := List.exists_cons_of_ne_nil (Nat.toDigits_ne_nil (n := n / 10) (b := 10))
      have hfront := ih (n / 10) (by omega) (by omega)
      rw [Nat.toDigits_of_base_le (by decide) hge, heq]
      rwa [heq] at hfront

theorem hexDigit?_digit {c : Char} (hc : c.isDigit = true) :
    (hexDigit? c).getD 0 = c.toNat - '0'.toNat := by
  simp only [Char.isDigit, Bool.and_eq_true, decide_eq_true_eq] at hc
  have hge : '0' ≤ c := hc.1
  have hle : c ≤ '9' := hc.2
  simp [hexDigit?, hge, hle]

theorem digitsValue_toDigits (n : Nat) : digitsValue 10 (Nat.toDigits 10 n) = n := by
  have hfold (ds : List Char) (hds : ∀ c ∈ ds, c.isDigit = true) (m : Nat) :
      ds.foldl (fun n c => 10 * n + (hexDigit? c).getD 0) m = Nat.ofDigitChars 10 ds m := by
    induction ds generalizing m with
    | nil => rfl
    | cons c ds ih =>
      obtain ⟨hc, hds⟩ := List.forall_mem_cons.mp hds
      rw [List.foldl_cons, hexDigit?_digit hc, ih hds]
      rfl
  rw [digitsValue, hfold _ fun c hc => Nat.isDigit_of_mem_toDigits (by decide) (by decide) hc]
  exact Nat.ofDigitChars_ten_toDigits

theorem moreDigits?_line (hds : ∀ c ∈ ds, c.isDigit = true) :
    moreDigits? Char.isDigit (ds ++ '\n' :: rest) = some (ds, '\n' :: rest) := by
  induction ds with
  | nil => simp [moreDigits?]
  | cons c ds ih =>
    obtain ⟨hc, hds⟩ := List.forall_mem_cons.mp hds
    rw [List.cons_append, moreDigits?.eq_def]
    split
    · next heq => cases heq
    · next heq => exact absurd heq (front_ne hc rfl)
    · next heq => exact absurd heq (front_ne hc rfl)
    · next heq =>
      obtain ⟨rfl, rfl⟩ := List.cons.inj heq
      rw [if_pos hc, ih hds, Option.map_some]

theorem whole?_line {c : Char} (hds : ∀ d ∈ c :: ds, d.isDigit = true) (hzero : c = '0' → ds = []) :
    whole? (c :: ds ++ '\n' :: rest) = some (c :: ds, '\n' :: rest) := by
  obtain ⟨hc, hds⟩ := List.forall_mem_cons.mp hds
  rw [List.cons_append, whole?.eq_def]
  split
  · next heq =>
    obtain ⟨rfl, rfl⟩ := List.cons.inj heq
    rw [hzero rfl]
    rfl
  · rw [digitRun?, if_pos hc, moreDigits?_line hds, Option.map_some]

theorem mark_behind_digits {front more : List Char} {mark : Char}
    (hds : ∀ c ∈ ds, c.isDigit = true) (hfront : ∀ c ∈ front, c.isDigit = true)
    (hmark : mark.isDigit = false) (heq : ds ++ '\n' :: rest = front ++ mark :: more) :
    mark = '\n' := by
  have h := congrArg (List.dropWhile Char.isDigit) heq
  rw [List.dropWhile_append_of_pos hds, List.dropWhile_append_of_pos hfront,
    List.dropWhile_cons_of_neg (by decide), List.dropWhile_cons_of_neg (by simp [hmark])] at h
  exact (List.cons.inj h).1.symm

theorem no_moment_line (hds : ∀ c ∈ ds, c.isDigit = true) :
    (startsDate (ds ++ '\n' :: rest) || startsTime (ds ++ '\n' :: rest)) = false := by
  rw [Bool.or_eq_false_iff, startsDate.eq_def, startsTime.eq_def]
  constructor
  · split
    · next a b c d more heq =>
      refine Bool.eq_false_iff.mpr fun hall => ?_
      have hfront : ∀ e ∈ [a, b, c, d], e.isDigit = true := List.all_eq_true.mp hall
      exact absurd (mark_behind_digits hds hfront rfl heq) (by decide)
    · rfl
  · split
    · next a b more heq =>
      refine Bool.eq_false_iff.mpr fun hall => ?_
      have hfront : ∀ e ∈ [a, b], e.isDigit = true := by simpa using hall
      exact absurd (mark_behind_digits hds hfront rfl heq) (by decide)
    · rfl

theorem number?_line {c : Char} (hds : ∀ d ∈ c :: ds, d.isDigit = true) :
    number? (c :: ds ++ '\n' :: rest) = decimal? false (c :: ds ++ '\n' :: rest) := by
  obtain ⟨hc, hds⟩ := List.forall_mem_cons.mp hds
  -- a mark of another base would stand where there is a digit or the end of the line
  have hbase {mark : Char} {more : List Char} (hmark : mark.isDigit = false) (hline : mark ≠ '\n') :
      ds ++ '\n' :: rest ≠ mark :: more :=
    fun heq => hline (mark_behind_digits hds (List.forall_mem_nil _) hmark heq)
  rw [List.cons_append, number?.eq_def]
  split
  case h_1 heq => exact absurd (List.cons.inj heq).2 (hbase rfl (by decide))
  case h_2 heq => exact absurd (List.cons.inj heq).2 (hbase rfl (by decide))
  case h_3 heq => exact absurd (List.cons.inj heq).2 (hbase rfl (by decide))
  case h_4 heq => exact absurd heq (front_ne hc rfl)
  case h_5 heq => exact absurd heq (front_ne hc rfl)
  case h_6 =>
    rw [signless?.eq_def]
    split
    · next heq => exact absurd heq (front_ne hc rfl)
    · next heq => exact absurd heq (front_ne hc rfl)
    · rfl

theorem scalar?_line {c : Char} (hds : ∀ d ∈ c :: ds, d.isDigit = true) :
    scalar? (c :: ds ++ '\n' :: rest) = decimal? false (c :: ds ++ '\n' :: rest) := by
  have hc := hds c List.mem_cons_self
  rw [scalar?.eq_def]
  split
  · next heq => exact absurd heq (front_ne hc rfl)
  · next heq => exact absurd heq (front_ne hc rfl)
  · rw [no_moment_line hds]
    exact number?_line hds

theorem decimal?_line {n : Nat} (hn : n < Nat.pow 2 63) {c : Char}
    (hwhole : whole? (c :: ds ++ '\n' :: rest) = some (c :: ds, '\n' :: rest))
    (hvalue : digitsValue 10 (c :: ds) = n) :
    decimal? false (c :: ds ++ '\n' :: rest) = some (.integer n, '\n' :: rest) := by
  have hfraction : fraction? ('\n' :: rest) = some (none, '\n' :: rest) := rfl
  have hexponent : exponent? ('\n' :: rest) = some (none, '\n' :: rest) := rfl
  have hsigned : signed64? false n = some (.integer n) := by
    rw [signed64?, if_neg Bool.false_ne_true, if_pos hn]
  simp only [decimal?, hwhole, hfraction, hexponent, hvalue, hsigned, Option.bind_eq_bind,
    Option.bind_some, Option.pure_def]

theorem toString_digits (n : Nat) : ∃ c ds, (toString n).toList = c :: ds ∧
    (∀ d ∈ c :: ds, d.isDigit = true) ∧ (c = '0' → ds = []) ∧ digitsValue 10 (c :: ds) = n := by
  have hlist : (toString n).toList = Nat.toDigits 10 n := Nat.toList_repr
  obtain ⟨c, ds, heq⟩ := List.exists_cons_of_ne_nil (Nat.toDigits_ne_nil (n := n) (b := 10))
  rw [hlist, heq]
  refine ⟨c, ds, rfl, ?_, ?_, heq ▸ digitsValue_toDigits n⟩
  · rw [← heq]
    exact fun d hd => Nat.isDigit_of_mem_toDigits (by decide) (by decide) hd
  · rintro rfl
    rcases Nat.eq_zero_or_pos n with rfl | hpos
    · exact (List.cons.inj heq).2.symm
    · exact absurd (congrArg List.head? heq) (toDigits_head n (Nat.ne_of_gt hpos))

structure Spells (text : String) (d : Document) : Prop where
  front : ∀ c ∈ text.toList.head?, isBlank c = false
  value? : ∀ fuel rest, value? (fuel + 1) 0 (text.toList ++ '\n' :: rest) = some (d, '\n' :: rest)

theorem Spells.dropWhile {text : String} {d : Document} (h : Spells text d) :
    (text.toList ++ '\n' :: rest).dropWhile isBlank = text.toList ++ '\n' :: rest := by
  have hfront := h.front
  cases heq : text.toList with
  | nil => rfl
  | cons c cs => exact List.dropWhile_cons_of_neg (by simp [hfront c (heq ▸ rfl)])

theorem quote_front (text : String) :
    ∃ q more, (quote text).toList = q :: more ∧ (q = '"' ∨ q = '\'') := by
  unfold quote
  dsimp only
  split <;> split <;> simp

theorem spells_text (text : String) : Spells (quote text) (.text text) := by
  obtain ⟨q, more, heq, hq⟩ := quote_front text
  refine ⟨fun c hc => ?_, fun fuel rest => ?_⟩
  · rw [heq] at hc
    obtain rfl := Option.some.inj hc
    rcases hq with rfl | rfl <;> rfl
  · have hread : string? ((quote text).toList ++ '\n' :: rest) = some (text, '\n' :: rest) :=
      string?_quote text (by simp) (by simp)
    rw [heq, List.cons_append] at hread ⊢
    rw [value?.eq_def]
    rcases hq with rfl | rfl
    · simp only [hread, Option.map_some]
    · simp only [hread, Option.map_some]

theorem spells_number {n : Nat} (hn : n < Nat.pow 2 63) : Spells (toString n) (.integer n) := by
  obtain ⟨c, ds, heq, hdigits, hzero, hvalue⟩ := toString_digits n
  have hc := hdigits c List.mem_cons_self
  refine ⟨fun d hd => ?_, fun fuel rest => ?_⟩
  · rw [heq] at hd
    obtain rfl := Option.some.inj hd
    exact Bool.eq_false_iff.mpr (not_blank hc rfl rfl)
  · rw [heq, List.cons_append, value?.eq_def]
    dsimp only
    split
    case h_5 =>
      rw [← List.cons_append, scalar?_line hdigits]
      exact decimal?_line hn (whole?_line hdigits hzero) hvalue
    -- no digit opens a text, a list or a table
    all_goals
      next h => exact absurd h (front_ne hc rfl)

theorem spells_bool (b : Bool) : Spells (if b then "true" else "false") (.bool b) := by
  cases b
  · exact ⟨by rintro _ ⟨⟩; rfl, fun _ _ => rfl⟩
  · exact ⟨by rintro _ ⟨⟩; rfl, fun _ _ => rfl⟩

theorem spells_empty : Spells "[]" (.list []) :=
  ⟨by rintro _ ⟨⟩; rfl, fun _ _ => rfl⟩

def IsBare (name : String) : Prop :=
  name ≠ "" ∧ name.toList.all isBareKeyChar = true

instance (name : String) : Decidable (IsBare name) :=
  inferInstanceAs (Decidable (_ ∧ _))

theorem IsBare.front {name : String} (h : IsBare name) :
    ∃ c more, name.toList = c :: more ∧ isBareKeyChar c = true := by
  obtain ⟨c, more, heq⟩ :=
    List.exists_cons_of_ne_nil (mt String.toList_eq_nil_iff.mp h.1)
  exact ⟨c, more, heq, List.all_eq_true.mp h.2 c (heq ▸ List.mem_cons_self)⟩

theorem name?_bare {name : String} (h : IsBare name)
    (hrest : ∀ c ∈ rest.head?, isBareKeyChar c = false) :
    name? (name.toList ++ rest) = some (name, rest) := by
  obtain ⟨c, more, heq, hc⟩ := h.front
  have hspan := span_append (List.all_eq_true.mp h.2) hrest
  rw [name?.eq_def]
  split
  · next hq => exact absurd (heq ▸ hq) (front_ne hc rfl)
  · next hq => exact absurd (heq ▸ hq) (front_ne hc rfl)
  · rw [hspan, heq]
    dsimp only
    rw [← heq, String.ofList_toList]

theorem IsBare.dropWhile {name : String} (h : IsBare name) :
    (name.toList ++ rest).dropWhile isBlank = name.toList ++ rest := by
  obtain ⟨c, more, heq, hc⟩ := h.front
  rw [heq, List.cons_append, List.dropWhile_cons_of_neg (not_blank hc rfl rfl)]

theorem names?_last {name : String} (h : IsBare name) {fuel : Nat}
    (hrest : ∀ c ∈ rest.head?, isBareKeyChar c = false)
    (hdot : (rest.dropWhile isBlank).head? ≠ some '.') :
    names? (fuel + 1) (name.toList ++ rest) = some ([name], rest.dropWhile isBlank) := by
  rw [names?, h.dropWhile, name?_bare h hrest, Option.bind_eq_bind, Option.bind_some]
  dsimp only
  split
  · next heq => exact absurd (congrArg List.head? heq) hdot
  · rfl

theorem names?_more {name : String} (h : IsBare name) {fuel : Nat} :
    names? (fuel + 1) (name.toList ++ '.' :: rest) =
      (names? fuel rest).map fun (names, s) => (name :: names, s) := by
  have hrest : ∀ c ∈ ('.' :: rest).head?, isBareKeyChar c = false := by
    rintro _ ⟨⟩
    rfl
  rw [names?, h.dropWhile, name?_bare h hrest, Option.bind_eq_bind, Option.bind_some]
  dsimp only
  rw [List.dropWhile_cons_of_neg (by decide)]
  rfl

end ProxyPulse.Toml
