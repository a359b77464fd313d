import Mathlib.Data.List.TakeDrop
import ProxyPulse.Toml.Writer

namespace ProxyPulse.Toml

variable {c q : Char} {s rest acc : List Char} {several escapes : Bool} {fuel run : Nat}

theorem span_append {α : Type} {p : α → Bool} {l rest : List α} (h : ∀ x ∈ l, p x = true)
    (hrest : ∀ x ∈ rest.head?, p x = false) : (l ++ rest).span p = (l, rest) := by
  have hnone : rest.takeWhile p = [] ∧ rest.dropWhile p = rest := by
    cases rest with
    | nil => exact ⟨rfl, rfl⟩
    | cons x rest =>
      have hx : ¬ p x = true := by simp [hrest x rfl]
      exact ⟨List.takeWhile_cons_of_neg hx, List.dropWhile_cons_of_neg hx⟩
  rw [List.span_eq_takeWhile_dropWhile, List.takeWhile_append_of_pos h,
    List.dropWhile_append_of_pos h, hnone.1, hnone.2, List.append_nil]

theorem hexChar?_hexDigit : ∀ n < 128,
    hexChar? ['0', '0', hexDigit (n / 16), hexDigit (n % 16)] = some (Char.ofNat n) := by
  decide

theorem newline?_of_text (h : isTextChar c = true) : newline? (c :: rest) = none := by
  unfold newline?
  split
  · next heq =>
    obtain ⟨rfl, _⟩ := List.cons.inj heq
    cases h
  · next heq =>
    obtain ⟨rfl, _⟩ := List.cons.inj heq
    cases h
  · rfl

/-- How a character can stand between double quotes: on its own or behind a backslash. -/
inductive Stands (several : Bool) (c : Char) : List Char → Prop
  | plain : isTextChar c = true → c ≠ '"' → c ≠ '\\' → Stands several c [c]
  | newline : several = true → c = '\n' → Stands several c [c]
  | escaped {code : List Char} : (∀ rest, escape? (code ++ rest) = some (c, rest)) →
    (∀ rest, skippedLine? (code ++ rest) = none) → Stands several c ('\\' :: code)

theorem quote_stands : Stands several '"' ['\\', '"'] :=
  .escaped (fun _ => rfl) fun _ => rfl

theorem escapeChar_stands (hc : c ≠ '"') : Stands several c (escapeChar several c) := by
  have hmark {mark : Char} (hread : ∀ rest, escape? (mark :: rest) = some (c, rest))
      (hskip : ∀ rest, skippedLine? (mark :: rest) = none) : Stands several c ['\\', mark] :=
    .escaped hread hskip
  unfold escapeChar
  split
  · next h => exact hmark (fun _ => h ▸ rfl) fun _ => rfl
  split
  · next h => exact hmark (fun _ => h ▸ rfl) fun _ => rfl
  split
  · next h =>
    cases several
    · exact hmark (fun _ => h ▸ rfl) fun _ => rfl
    · rw [← h]
      exact .newline rfl h
  split
  · next h => exact hmark (fun _ => h ▸ rfl) fun _ => rfl
  split
  · next h => exact hmark (fun _ => h ▸ rfl) fun _ => rfl
  split
  · next h => exact hmark (fun _ => by rw [h]; rfl) fun _ => rfl
  split
  · next hcontrol =>
    have hn : c.toNat < 128 := by
      simp only [Bool.or_eq_true, decide_eq_true_eq, beq_iff_eq] at hcontrol
      omega
    have hread := hexChar?_hexDigit c.toNat hn
    rw [Char.ofNat_toNat] at hread
    apply Stands.escaped
    · intro rest
      simp only [List.cons_append, List.nil_append, escape?, hread, Option.map_some]
    · exact fun _ => rfl
  · next hb hcontrol =>
    simp only [Bool.or_eq_true, decide_eq_true_eq, beq_iff_eq, not_or, Nat.not_lt] at hcontrol
    have htext : isTextChar c = true := by simp [isTextChar, hcontrol]
    exact .plain htext hc hb

theorem Stands.length_pos {code : List Char} (h : Stands several c code) : 0 < code.length := by
  cases h <;> exact Nat.succ_pos _

theorem Stands.basic? {code : List Char} (h : Stands false c code) :
    Toml.basic? (fuel + 1) acc (code ++ rest) = Toml.basic? fuel (c :: acc) rest := by
  cases h with
  | plain htext hq hb =>
    rw [List.singleton_append, Toml.basic?.eq_def]
    dsimp only
    split
    · next heq => cases heq
    · next heq => exact absurd (List.cons.inj heq).1 hq
    · next heq => exact absurd (List.cons.inj heq).1 hb
    · next heq =>
      obtain ⟨rfl, rfl⟩ := List.cons.inj heq
      rw [if_pos htext]
  | newline hseveral => cases hseveral
  | escaped hread =>
    rw [List.cons_append, Toml.basic?, hread]

theorem escape_cons (several : Bool) (c : Char) (s : List Char)
    (h : c = '"' → ¬ run < rawQuotes several) : ∃ code, Stands several c code ∧
    escape several run (c :: s) = code ++ escape several 0 s := by
  rw [escape]
  split
  · next hc =>
    rw [if_neg (h hc), hc]
    exact ⟨_, quote_stands, rfl⟩
  · next hc => exact ⟨_, escapeChar_stands hc, rfl⟩

theorem basic?_escape (s acc rest : List Char) (run fuel : Nat)
    (hfuel : (escape false run s).length < fuel) :
    basic? fuel acc (escape false run s ++ '"' :: rest) =
      some (String.ofList (acc.reverse ++ s), rest) := by
  induction s generalizing acc run fuel with
  | nil =>
    obtain ⟨fuel, rfl⟩ : ∃ n, fuel = n + 1 := ⟨fuel - 1, by omega⟩
    rw [escape, List.nil_append, List.append_nil, basic?]
  | cons c s ih =>
    obtain ⟨code, hcode, heq⟩ := escape_cons false c s fun _ => Nat.not_lt_zero run
    have hpos := hcode.length_pos
    rw [heq, List.length_append] at hfuel
    obtain ⟨fuel, rfl⟩ : ∃ n, fuel = n + 1 := ⟨fuel - 1, by omega⟩
    rw [heq, List.append_assoc, hcode.basic?, ih _ 0 fuel (by omega), List.reverse_cons,
      List.append_assoc, List.singleton_append]

def quoteOf (escapes : Bool) : Char :=
  if escapes then '"' else '\''

theorem takeWhile_run (h : rest.head? ≠ some q) :
    (List.replicate run q ++ rest).takeWhile (· == q) = List.replicate run q := by
  have hnone : rest.takeWhile (· == q) = [] := by
    cases rest with
    | nil => rfl
    | cons c rest =>
      rw [List.takeWhile_cons_of_neg]
      simpa using h
  rw [List.takeWhile_append_of_pos, hnone, List.append_nil]
  intro c hc
  rw [(List.mem_replicate.mp hc).2, beq_self_eq_true]

theorem multiline?_quotes (hpos : 0 < run) (hrest : rest.head? ≠ some (quoteOf escapes)) :
    multiline? escapes (fuel + 1) acc (List.replicate run (quoteOf escapes) ++ rest) =
      match quotes run with
      | .inside n =>
        multiline? escapes fuel (List.replicate n (quoteOf escapes) ++ acc)
          ((List.replicate run (quoteOf escapes) ++ rest).drop n)
      | .closing n =>
        some (String.ofList (List.replicate n (quoteOf escapes) ++ acc).reverse,
          (List.replicate run (quoteOf escapes) ++ rest).drop (n + 3)) := by
  obtain ⟨run, rfl⟩ : ∃ n, run = n + 1 := ⟨run - 1, by omega⟩
  have hlength : ((List.replicate (run + 1) (quoteOf escapes) ++ rest).takeWhile
      (· == quoteOf escapes)).length = run + 1 := by
    rw [takeWhile_run hrest, List.length_replicate]
  rw [multiline?.eq_def]
  rw [List.replicate_succ, List.cons_append] at hlength ⊢
  dsimp only
  rw [← quoteOf, if_pos rfl]
  exact hlength ▸ rfl

theorem multiline?_run (escapes : Bool) (acc : List Char) (hrun : run < 3) (hfuel : run < fuel)
    (hrest : rest.head? ≠ some (quoteOf escapes)) : ∃ left, fuel ≤ left + run ∧
      multiline? escapes fuel acc (List.replicate run (quoteOf escapes) ++ rest) =
        multiline? escapes left (List.replicate run (quoteOf escapes) ++ acc) rest := by
  rcases Nat.eq_zero_or_pos run with rfl | hpos
  · exact ⟨fuel, Nat.le_refl _, rfl⟩
  · obtain ⟨fuel, rfl⟩ : ∃ n, fuel = n + 1 := ⟨fuel - 1, by omega⟩
    refine ⟨fuel, by omega, ?_⟩
    rw [multiline?_quotes hpos hrest, quotes, if_pos hrun]
    dsimp only
    rw [List.drop_left' (List.length_replicate)]

theorem multiline?_close (hrun : run < 3) (hrest : rest.head? ≠ some (quoteOf escapes)) :
    multiline? escapes (fuel + 1) acc (List.replicate (run + 3) (quoteOf escapes) ++ rest) =
      some (String.ofList (acc.reverse ++ List.replicate run (quoteOf escapes)), rest) := by
  have hextra : min (run + 3 - 3) 2 = run := by omega
  rw [multiline?_quotes (Nat.succ_pos _) hrest, quotes, if_neg (by omega), hextra]
  dsimp only
  rw [List.drop_left' (List.length_replicate), List.reverse_append, List.reverse_replicate]

theorem multiline?_char (hq : c ≠ quoteOf escapes) (hb : escapes = true → c ≠ '\\')
    (hc : isTextChar c = true ∨ c = '\n') :
    multiline? escapes (fuel + 1) acc (c :: rest) = multiline? escapes fuel (c :: acc) rest := by
  rw [multiline?.eq_def]
  dsimp only
  rw [← quoteOf, if_neg hq, if_neg fun h => hb h.1 h.2]
  rcases hc with hc | rfl
  · rw [newline?_of_text hc]
    dsimp only
    rw [if_pos hc]
  · rfl

theorem Stands.multiline? {code : List Char} (h : Stands true c code) :
    Toml.multiline? true (fuel + 1) acc (code ++ rest) =
      Toml.multiline? true fuel (c :: acc) rest := by
  cases h with
  | plain htext hq hb => exact multiline?_char hq (fun _ => hb) (.inl htext)
  | newline _ hc => exact multiline?_char (hc ▸ by decide) (fun _ => hc ▸ by decide) (.inr hc)
  | @escaped code hread hskip =>
    rw [List.cons_append, Toml.multiline?.eq_def]
    dsimp only
    rw [if_neg (by decide), if_pos ⟨rfl, rfl⟩, hskip]
    dsimp only
    rw [hread]

theorem Stands.head? {code : List Char} (h : Stands several c code) (rest : List Char) :
    (code ++ rest).head? ≠ some '"' := by
  cases h with
  | plain _ hq _ => simpa using hq
  | newline _ hc => simp [hc]
  | escaped => simp

theorem multiline?_escape (s acc : List Char) (run fuel : Nat) (hrun : run < 3)
    (hrest : rest.head? ≠ some '"') (hfuel : run + (escape true run s).length < fuel) :
    multiline? true fuel acc
        (List.replicate run '"' ++ (escape true run s ++ (List.replicate 3 '"' ++ rest))) =
      some (String.ofList (acc.reverse ++ (List.replicate run '"' ++ s)), rest) := by
  induction s generalizing acc run fuel with
  | nil =>
    obtain ⟨fuel, rfl⟩ : ∃ n, fuel = n + 1 := ⟨fuel - 1, by omega⟩
    rw [escape, List.nil_append, ← List.append_assoc, List.replicate_append_replicate,
      List.append_nil]
    exact multiline?_close hrun hrest
  | cons c s ih =>
    -- a quote that stands as it is joins the run, anything else has the run read first
    by_cases hraw : c = '"' ∧ run < rawQuotes true
    · obtain ⟨rfl, hraw⟩ := hraw
      have hescape : escape true run ('"' :: s) = '"' :: escape true (run + 1) s := by
        rw [escape, if_pos rfl, if_pos hraw]
      have hmove (l : List Char) :
          List.replicate run '"' ++ '"' :: l = List.replicate (run + 1) '"' ++ l := by
        rw [List.replicate_succ', List.append_assoc, List.singleton_append]
      rw [hescape, List.length_cons] at hfuel
      rw [hescape, List.cons_append, hmove, hmove]
      exact ih acc (run + 1) fuel (Nat.succ_lt_succ hraw) (by omega)
    · obtain ⟨code, hcode, heq⟩ := escape_cons true c s fun hc hlt => hraw ⟨hc, hlt⟩
      have hpos := hcode.length_pos
      rw [heq, List.length_append] at hfuel
      obtain ⟨left, hleft, hread⟩ := multiline?_run true acc hrun
        (by omega : run < fuel) (hcode.head? (escape true 0 s ++ (List.replicate 3 '"' ++ rest)))
      obtain ⟨left, rfl⟩ : ∃ n, left = n + 1 := ⟨left - 1, by omega⟩
      rw [heq, List.append_assoc]
      refine hread.trans ?_
      rw [hcode.multiline?]
      refine (ih _ 0 left (by decide) (by omega)).trans ?_
      simp [quoteOf]

theorem multiline?_literal (s acc : List Char) (run fuel : Nat) (hrun : longestQuoteRun run s < 3)
    (hlast : s = [] → run = 0) (hend : s.getLast? ≠ some '\'')
    (htext : ∀ c ∈ s, isTextChar c = true ∨ c = '\n') (hrest : rest.head? ≠ some '\'')
    (hfuel : run + s.length < fuel) :
    multiline? false fuel acc
        (List.replicate run '\'' ++ (s ++ (List.replicate 3 '\'' ++ rest))) =
      some (String.ofList (acc.reverse ++ (List.replicate run '\'' ++ s)), rest) := by
  induction s generalizing acc run fuel with
  | nil =>
    obtain rfl := hlast rfl
    obtain ⟨fuel, rfl⟩ : ∃ n, fuel = n + 1 := ⟨fuel - 1, by omega⟩
    exact multiline?_close hrun hrest
  | cons c s ih =>
    obtain ⟨hc, hs⟩ := List.forall_mem_cons.mp htext
    rw [List.length_cons] at hfuel
    have hend' : s.getLast? ≠ some '\'' := by
      cases s with
      | nil => simp
      | cons d s => rwa [List.getLast?_cons_cons] at hend
    by_cases hq : c = '\''
    · subst hq
      have hmove (l : List Char) :
          List.replicate run '\'' ++ '\'' :: l = List.replicate (run + 1) '\'' ++ l := by
        rw [List.replicate_succ', List.append_assoc, List.singleton_append]
      have hne : s ≠ [] := by
        rintro rfl
        exact hend rfl
      rw [List.cons_append, hmove, hmove]
      exact ih acc (run + 1) fuel hrun (fun h => absurd h hne) hend' hs (by omega)
    · rw [longestQuoteRun, Nat.max_lt] at hrun
      · obtain ⟨left, hleft, hread⟩ := multiline?_run false acc hrun.1 (by omega : run < fuel)
          (by simpa [quoteOf] using hq :
            (c :: (s ++ (List.replicate 3 '\'' ++ rest))).head? ≠ some (quoteOf false))
        obtain ⟨left, rfl⟩ : ∃ n, left = n + 1 := ⟨left - 1, by omega⟩
        refine hread.trans ?_
        rw [multiline?_char hq Bool.noConfusion hc]
        refine (ih _ 0 left hrun.2 (fun _ => rfl) hend' hs (by omega)).trans ?_
        simp [quoteOf]
      · exact hq

structure Literal (s : List Char) : Prop where
  ne_nil : s ≠ []
  shown : ∀ c ∈ s, isTextChar c = true ∨ c = '\n'
  run : longestQuoteRun 0 s < 3
  last : s.getLast? ≠ some '\''

theorem literal_of_prefers (h : prefersLiteral s = true) : Literal s := by
  simp only [prefersLiteral, Bool.and_eq_true, decide_eq_true_eq, bne_iff_ne, Bool.not_eq_true',
    List.any_eq_true, List.any_eq_false] at h
  obtain ⟨⟨⟨⟨c, hc, _⟩, hhidden⟩, hrun⟩, hlast⟩ := h
  refine ⟨List.ne_nil_of_mem hc, fun c hc => ?_, hrun, hlast⟩
  have hshown := hhidden c hc
  by_cases ht : c = '\t'
  · exact .inl (ht ▸ rfl)
  by_cases hn : c = '\n'
  · exact .inr hn
  simp only [isHiddenControl, bne_iff_ne, ne_eq, ht, hn, not_false_eq_true, true_and,
    Bool.and_eq_true, Bool.or_eq_true, decide_eq_true_eq, beq_iff_eq, not_or, Nat.not_lt] at hshown
  exact .inl (by simp [isTextChar, hshown])

theorem Literal.newline? (h : Literal s) (hn : '\n' ∉ s) : Toml.newline? (s ++ rest) = none := by
  obtain ⟨c, t, rfl⟩ := List.exists_cons_of_ne_nil h.ne_nil
  rcases h.shown c List.mem_cons_self with hc | rfl
  · exact newline?_of_text hc
  · exact absurd List.mem_cons_self hn

theorem Literal.multiline? (h : Literal s) (hrest : rest.head? ≠ some '\'')
    (hfuel : s.length < fuel) :
    Toml.multiline? false fuel [] (s ++ (List.replicate 3 '\'' ++ rest)) =
      some (String.ofList s, rest) :=
  multiline?_literal s [] 0 fuel h.run (fun _ => rfl) h.last h.shown hrest (by omega)

theorem literal?_line (htext : ∀ c ∈ s, isTextChar c = true) (hq : '\'' ∉ s) :
    literal? (s ++ '\'' :: rest) = some (String.ofList s, rest) := by
  have hall : ∀ c ∈ s, (c != '\'' && isTextChar c) = true := by
    intro c hc
    rw [Bool.and_eq_true, bne_iff_ne]
    exact ⟨fun h => hq (h ▸ hc), htext c hc⟩
  rw [literal?, span_append hall (by simp)]
  rfl

theorem singleLine?_of_string? {c : Char} (hc : rest.head? ≠ some c ∨ (rest.drop 1).head? ≠ some c)
    (hq : c = '"' ∨ c = '\'') : string? (c :: rest) = singleLine? (c :: rest) := by
  rw [string?.eq_def]
  -- it takes three quotes to open a string of several lines
  split
  · next heq =>
    obtain ⟨rfl, rfl⟩ := List.cons.inj heq
    simp at hc
  · next heq =>
    obtain ⟨rfl, rfl⟩ := List.cons.inj heq
    simp at hc
  · rfl

theorem frame_tripleLine (h : frame s = .tripleLine) : '\n' ∉ s := by
  unfold frame at h
  split at h
  · cases h
  · next hn => simpa using hn

theorem frame_oneLine (h : frame s = .oneLine) :
    '\n' ∉ s ∧ (prefersLiteral s = true → '\'' ∉ s) := by
  unfold frame at h
  split at h
  · cases h
  · next hn =>
    split at h
    · cases h
    · next hp =>
      refine ⟨by simpa using hn, fun hl => ?_⟩
      simpa [hl] using hp

theorem Literal.string? {text : String} (h : Literal text.toList) (hsingle : rest.head? ≠ some '\'')
    (hprefers : prefersLiteral text.toList = true) :
    Toml.string? ((quote text).toList ++ rest) = some (text, rest) := by
  have hread (fuel : Nat) (hfuel : text.toList.length < fuel) :
      Toml.multiline? false fuel [] (text.toList ++ (List.replicate 3 '\'' ++ rest)) =
        some (text, rest) := by
    rw [h.multiline? hsingle hfuel, String.ofList_toList]
  unfold quote
  dsimp only
  rw [if_pos hprefers]
  cases hframe : frame text.toList with
  | oneLine =>
    obtain ⟨hn, hq⟩ := frame_oneLine hframe
    have htext : ∀ c ∈ text.toList, isTextChar c = true := by
      intro c hc
      rcases h.shown c hc with ht | rfl
      · exact ht
      · exact absurd hc hn
    have hfirst : (text.toList ++ '\'' :: rest).head? ≠ some '\'' := by
      obtain ⟨c, t, heq⟩ := List.exists_cons_of_ne_nil h.ne_nil
      rw [heq, List.cons_append, List.head?_cons]
      intro hc
      exact hq hprefers (heq ▸ Option.some.inj hc ▸ List.mem_cons_self)
    simp only [String.toList_append, List.append_assoc]
    change Toml.string? ('\'' :: (text.toList ++ '\'' :: rest)) = _
    rw [singleLine?_of_string? (.inl hfirst) (.inr rfl), singleLine?,
      literal?_line htext (hq hprefers), String.ofList_toList]
  | tripleLine =>
    have hn := frame_tripleLine hframe
    simp only [String.toList_append, List.append_assoc]
    change Toml.multiline? false _ [] (skipFirstNewline
      (text.toList ++ (List.replicate 3 '\'' ++ rest))) = _
    rw [skipFirstNewline, h.newline? hn]
    exact hread _ (Nat.lt_succ_of_le (List.prefix_append _ _).length_le)
  | severalLines =>
    simp only [String.toList_append, List.append_assoc]
    exact hread _ (by simp; omega)

theorem string?_escape (s : List Char) (hdouble : rest.head? ≠ some '"') :
    string? ('"' :: (escape false 0 s ++ '"' :: rest)) = some (String.ofList s, rest) := by
  have hfirst : (escape false 0 s ++ '"' :: rest).head? ≠ some '"' ∨
      ((escape false 0 s ++ '"' :: rest).drop 1).head? ≠ some '"' := by
    cases s with
    | nil => exact .inr hdouble
    | cons c t =>
      obtain ⟨code, hcode, heq⟩ := escape_cons false c t fun _ => Nat.not_lt_zero 0
      rw [heq, List.append_assoc]
      exact .inl (hcode.head? _)
  rw [singleLine?_of_string? hfirst (.inl rfl), singleLine?]
  exact basic?_escape s [] rest 0 _ (by rw [List.length_append]; omega)

theorem string?_quote (text : String) (hdouble : rest.head? ≠ some '"')
    (hsingle : rest.head? ≠ some '\'') :
    string? ((quote text).toList ++ rest) = some (text, rest) := by
  by_cases hprefers : prefersLiteral text.toList = true
  · exact (literal_of_prefers hprefers).string? hsingle hprefers
  · unfold quote
    dsimp only
    rw [if_neg hprefers]
    have hline := string?_escape text.toList hdouble
    rw [String.ofList_toList] at hline
    cases hframe : frame text.toList with
    | severalLines =>
      simp only [String.toList_append, List.append_assoc, String.toList_ofList]
      refine (multiline?_escape text.toList [] 0 _ (by decide) hdouble ?_).trans ?_
      · simp
        omega
      · simp
    | _ =>
      simp only [String.toList_append, List.append_assoc, String.toList_ofList]
      exact hline

end ProxyPulse.Toml
