import ProxyPulse.Url

namespace ProxyPulse.Url

def bytes (s : String) : Bytes :=
  s.toList.flatMap String.utf8EncodeChar

theorem bytes_inj {s t : String} : bytes s = bytes t ↔ s = t := by
  constructor
  · intro h
    rw [← String.toByteArray_inj, ← String.utf8Encode_toList, ← String.utf8Encode_toList]
    exact congrArg List.toByteArray h
  · rintro rfl
    rfl

theorem hexValue?_hexChar : ∀ n < 16, hexValue? (hexChar n) = some n := by
  decide

theorem hexChar_plain : ∀ n < 16, hexChar n ≠ '/' ∧ hexChar n ≠ '?' := by
  decide

theorem unescape_escapeByte (b : UInt8) (rest : List Char) :
    unescape (escapeByte b ++ rest) = b :: unescape rest := by
  have hb : b.toNat < 256 := b.toNat_lt
  have hhigh := hexValue?_hexChar (b.toNat / 16) (by omega)
  have hlow := hexValue?_hexChar (b.toNat % 16) (by omega)
  have hsum : 16 * (b.toNat / 16) + b.toNat % 16 = b.toNat := by omega
  rw [escapeByte, List.cons_append, List.cons_append, List.cons_append, List.nil_append, unescape,
    hhigh, hlow]
  dsimp only
  rw [hsum, UInt8.ofNat_toNat]

theorem unescape_escapeBytes (bs : Bytes) (rest : List Char) :
    unescape (bs.flatMap escapeByte ++ rest) = bs ++ unescape rest := by
  induction bs with
  | nil => rfl
  | cons b bs ih =>
    rw [List.flatMap_cons, List.append_assoc, unescape_escapeByte, ih, List.cons_append]

theorem unescape_cons {c : Char} (hc : c ≠ '%') (rest : List Char) :
    unescape (c :: rest) = String.utf8EncodeChar c ++ unescape rest := by
  rw [unescape]
  rintro a b rest rfl
  exact absurd rfl hc

theorem unescape_escape {escaped : Char → Bool} (h : escaped '%' = true) (s : List Char) :
    unescape (escape escaped s) = s.flatMap String.utf8EncodeChar := by
  induction s with
  | nil => rfl
  | cons c s ih =>
    rw [escape, List.flatMap_cons, ← escape, List.flatMap_cons]
    split
    · rw [escapeChar, unescape_escapeBytes, ih]
    · next hplain =>
      have hc : c ≠ '%' := fun hc => hplain (hc ▸ h)
      rw [List.singleton_append, unescape_cons hc, ih]

theorem unescape_eq_nil_iff {s : List Char} : unescape s = [] ↔ s = [] := by
  constructor
  · intro h
    cases s with
    | nil => rfl
    | cons c rest =>
      rw [unescape.eq_def] at h
      have hlength := String.length_utf8EncodeChar c
      split at h
      · split at h <;> cases h
      · next heq =>
        obtain ⟨rfl, rfl⟩ := List.cons.inj heq
        have : c.utf8Size = 0 := by
          rw [← hlength, (List.append_eq_nil_iff.mp h).1, List.length_nil]
        have := c.utf8Size_pos
        omega
      · next heq => cases heq
  · rintro rfl
    rfl

def IsSegment (s : String) : Prop :=
  ∀ c ∈ s.toList, c ≠ '/' ∧ c ≠ '?'

theorem isSegment_empty : IsSegment "" :=
  nofun

theorem isSegment_escape {escaped : Char → Bool} {s : List Char}
    (h : ∀ c ∈ s, escaped c = false → c ≠ '/' ∧ c ≠ '?') :
    IsSegment (String.ofList (escape escaped s)) := by
  intro c hc
  rw [String.toList_ofList] at hc
  obtain ⟨d, hd, hc⟩ := List.mem_flatMap.mp hc
  split at hc
  · obtain ⟨b, _, hc⟩ := List.mem_flatMap.mp hc
    have hb : b.toNat < 256 := b.toNat_lt
    simp only [escapeByte, List.mem_cons, List.not_mem_nil, or_false] at hc
    rcases hc with rfl | rfl | rfl
    · decide
    · exact hexChar_plain _ (by omega)
    · exact hexChar_plain _ (by omega)
  · next hplain =>
    rw [List.mem_singleton.mp hc]
    exact h d hd (Bool.not_eq_true _ ▸ hplain)

theorem resolveDots_segments {parts : List String} {texts : List (List Char)}
    (hp : ∀ p ∈ parts, IsSegment p) (ht : ∀ t ∈ texts, IsSegment (String.ofList t)) :
    ∀ p ∈ resolveDots parts texts, IsSegment p := by
  have hsnoc {parts : List String} {p : String} (hparts : ∀ p ∈ parts, IsSegment p)
      (hp : IsSegment p) : ∀ q ∈ parts ++ [p], IsSegment q := by
    rw [List.forall_mem_append, List.forall_mem_singleton]
    exact ⟨hparts, hp⟩
  have hdrop {parts : List String} (hparts : ∀ p ∈ parts, IsSegment p) :
      ∀ p ∈ parts.dropLast, IsSegment p :=
    fun p h => hparts p (List.dropLast_subset _ h)
  fun_induction resolveDots parts texts with
  | case1 => exact hp
  | case2 => exact hsnoc (hdrop hp) isSegment_empty
  | case3 => exact hsnoc hp isSegment_empty
  | case4 => exact hsnoc hp (ht _ List.mem_cons_self)
  | case5 _ _ _ _ _ ih => exact ih (hdrop hp) fun t h => ht t (List.mem_cons_of_mem _ h)
  | case6 _ _ _ _ _ _ ih => exact ih hp fun t h => ht t (List.mem_cons_of_mem _ h)
  | case7 _ _ _ _ _ _ ih =>
    exact ih (hsnoc hp (ht _ List.mem_cons_self)) fun t h => ht t (List.mem_cons_of_mem _ h)

theorem not_mem_splitOnP {α : Type} {p : α → Bool} {l piece : List α} {x : α}
    (h : piece ∈ l.splitOnP p) (hx : x ∈ piece) : p x = false := by
  induction l generalizing piece with
  | nil =>
    rw [List.splitOnP_nil] at h
    rw [List.mem_singleton.mp h] at hx
    cases hx
  | cons y l ih =>
    rw [List.splitOnP_cons_eq_if_modifyHead] at h
    split at h
    · rcases List.mem_cons.mp h with rfl | h
      · cases hx
      · exact ih h hx
    · next hy =>
      cases hsplit : l.splitOnP p with
      | nil => exact absurd hsplit (List.splitOnP_ne_nil p l)
      | cons first rest =>
        rw [hsplit, List.modifyHead_cons] at h
        rcases List.mem_cons.mp h with rfl | h
        · rcases List.mem_cons.mp hx with rfl | hx
          · exact Bool.not_eq_true _ ▸ hy
          · exact ih (hsplit ▸ List.mem_cons_self) hx
        · exact ih (hsplit ▸ List.mem_cons_of_mem _ h) hx

theorem readSegments_segments (special : Bool) (s : List Char) :
    ∀ p ∈ readSegments special s, IsSegment p := by
  apply resolveDots_segments (List.forall_mem_nil _)
  intro t ht
  obtain ⟨piece, hpiece, rfl⟩ := List.mem_map.mp ht
  apply isSegment_escape
  intro c hc hplain
  constructor
  · rintro rfl
    have hslash : isSlash special '/' = false := not_mem_splitOnP hpiece hc
    cases hslash
  · rintro rfl
    exact absurd hplain (by decide)

theorem pathAfterHost_segments (special : Bool) (s : List Char) :
    ∀ p ∈ pathAfterHost special s, IsSegment p := by
  unfold pathAfterHost
  split
  · split
    · exact List.forall_mem_singleton.mpr isSegment_empty
    · exact List.forall_mem_nil _
  · exact readSegments_segments _ _

def IsSegmented (u : Url) : Prop :=
  ∀ parts, u.path = .segments parts → ∀ p ∈ parts, IsSegment p

theorem IsSegmented.of_path {u : Url} {special : Bool} {s : List Char}
    (h : u.path = .segments (pathAfterHost special s)) : u.IsSegmented := by
  intro parts hparts
  rw [h] at hparts
  obtain rfl := Path.segments.inj hparts
  exact pathAfterHost_segments special s

theorem readAuthority_segmented {scheme : String} {s : List Char} {u : Url}
    (h : readAuthority scheme s = .ok u) : u.IsSegmented := by
  unfold readAuthority at h
  simp only [bind, Except.bind, pure, Except.pure] at h
  -- whatever was read before, the path is read last and in one way
  repeat' split at h
  all_goals first
    | exact .of_path (congrArg Url.path (Except.ok.inj h)).symm
    | cases h

theorem readFile_segmented {s : List Char} {u : Url} (h : readFile s = .ok u) : u.IsSegmented := by
  unfold readFile at h
  simp only [bind, Except.bind, pure, Except.pure] at h
  -- whatever was read before, the path is read last and in one way
  repeat' split at h
  all_goals first
    | exact .of_path (congrArg Url.path (Except.ok.inj h)).symm
    | cases h

theorem readOther_segmented {scheme : String} {s : List Char} {u : Url}
    (h : readOther scheme s = .ok u) : u.IsSegmented := by
  unfold readOther at h
  split at h
  · exact readAuthority_segmented h
  · obtain rfl := Except.ok.inj h
    intro parts hparts
    dsimp only at hparts
    split at hparts
    · obtain rfl := Path.segments.inj hparts
      exact readSegments_segments _ _
    · cases hparts

theorem parse_segmented {text : String} {u : Url} (h : parse text = .ok u) : u.IsSegmented := by
  unfold parse at h
  split at h
  · cases h
  · split at h
    · exact readAuthority_segmented h
    · split at h
      · exact readFile_segmented h
      · exact readOther_segmented h

def pieces (u : Url) : List Bytes :=
  (((u.target.toList.takeWhile (· != '?')).drop 1).splitOn '/').map unescape

def decoded (s : String) : Bytes :=
  unescape s.toList

theorem decoded_eq_nil_iff {s : String} : decoded s = [] ↔ s = "" := by
  rw [decoded, unescape_eq_nil_iff, String.toList_eq_nil_iff]

theorem mem_intercalate {α : Type} {x c : α} {ls : List (List α)} (h : c ∈ [x].intercalate ls) :
    c = x ∨ ∃ l ∈ ls, c ∈ l := by
  induction ls with
  | nil => cases h
  | cons l ls ih =>
    cases ls with
    | nil => exact .inr ⟨l, List.mem_singleton_self l, by simpa using h⟩
    | cons l' ls =>
      rw [List.intercalate_cons_cons, List.mem_append, List.mem_append, List.mem_singleton] at h
      rcases h with (h | rfl) | h
      · exact .inr ⟨l, List.mem_cons_self, h⟩
      · exact .inl rfl
      · rcases ih h with hx | ⟨m, hm, hc⟩
        · exact .inl hx
        · exact .inr ⟨m, List.mem_cons_of_mem _ hm, hc⟩

theorem path_target {u : Url} {parts : List String} (hu : u.path = .segments parts)
    (hs : ∀ p ∈ parts, IsSegment p) :
    (u.target.toList.takeWhile (· != '?')).drop 1 = ['/'].intercalate (parts.map String.toList) := by
  have hpath : ∀ c ∈ ("/" ++ "/".intercalate parts).toList, (c != '?') = true := by
    intro c hc
    rw [String.toList_append, String.toList_intercalate, List.mem_append] at hc
    rw [bne_iff_ne]
    rcases hc with hc | hc
    · rw [List.mem_singleton.mp hc]
      decide
    · rcases mem_intercalate hc with rfl | ⟨l, hl, hc⟩
      · decide
      · obtain ⟨p, hp, rfl⟩ := List.mem_map.mp hl
        exact (hs p hp c hc).2
  have htarget : u.target.toList.takeWhile (· != '?') = ("/" ++ "/".intercalate parts).toList := by
    rw [target, hu]
    dsimp only
    split
    · rw [← List.append_nil ("/" ++ "/".intercalate parts).toList,
        List.takeWhile_append_of_pos hpath]
      rfl
    · rw [String.toList_append, String.toList_append, List.append_assoc,
        List.takeWhile_append_of_pos hpath]
      exact List.append_nil _
  rw [htarget, String.toList_append, String.toList_intercalate]
  rfl

theorem pieces_eq {u : Url} {parts : List String} (hu : u.path = .segments parts)
    (hs : ∀ p ∈ parts, IsSegment p) (hne : parts ≠ []) : u.pieces = parts.map decoded := by
  have hsplit : (['/'].intercalate (parts.map String.toList)).splitOn '/' =
      parts.map String.toList := by
    apply List.splitOn_intercalate
    · rintro _ hl hslash
      obtain ⟨p, hp, rfl⟩ := List.mem_map.mp hl
      exact (hs p hp _ hslash).1 rfl
    · exact fun h => hne (List.map_eq_nil_iff.mp h)
  rw [pieces, path_target hu hs, hsplit, List.map_map]
  rfl

theorem pieces_nil {u : Url} (hu : u.path = .segments []) : u.pieces = [[]] := by
  rw [pieces, path_target hu (List.forall_mem_nil _)]
  rfl

def isDots (name : String) : Bool :=
  name == "." || name == ".."

def flattened (name : String) : String :=
  String.ofList (name.toList.filter fun c => !isTabOrNewline c)

def kept (names : List String) : List String :=
  (names.filter fun name => !isDots name).map flattened

/-- Names that make an address longer: the first one is not empty, and none turns into dots when its
tabs and line ends are left out. -/
structure Extends (names : List String) : Prop where
  first : ∃ name rest, kept names = name :: rest ∧ name ≠ ""
  undotted : ∀ name ∈ kept names, isDots name = false

def IsPlain (name : String) : Prop :=
  isDots name = false ∧ ∀ c ∈ name.toList, isTabOrNewline c = false

theorem kept_of_plain {names : List String} (h : ∀ name ∈ names, IsPlain name) :
    kept names = names := by
  have hfilter : (names.filter fun name => !isDots name) = names :=
    List.filter_eq_self.mpr fun name hname => by rw [(h name hname).1, Bool.not_false]
  rw [kept, hfilter]
  refine (List.map_congr_left fun name hname => ?_).trans (List.map_id names)
  have hchars : (name.toList.filter fun c => !isTabOrNewline c) = name.toList :=
    List.filter_eq_self.mpr fun c hc => by rw [(h name hname).2 c hc, Bool.not_false]
  rw [flattened, hchars, String.ofList_toList, id_eq]

def escaped (name : String) : String :=
  String.ofList (escape escapedInSegment name.toList)

theorem decoded_escaped (name : String) : decoded (escaped name) = bytes name := by
  rw [decoded, escaped, String.toList_ofList, unescape_escape rfl]
  rfl

theorem escaped_inj {name name' : String} (h : escaped name = escaped name') : name = name' := by
  rw [← bytes_inj, ← decoded_escaped, ← decoded_escaped, h]

theorem escaped_segment (name : String) : IsSegment (escaped name) := by
  apply isSegment_escape
  intro c _ hplain
  constructor <;> rintro rfl <;> exact absurd hplain (by decide)

theorem addSegment_eq {parts : List String} {name : String} (h : isDots (flattened name) = false) :
    addSegment parts name =
      (if parts = [""] then [] else parts) ++ [escaped (flattened name)] := by
  obtain ⟨hone, htwo⟩ : flattened name ≠ "." ∧ flattened name ≠ ".." := by
    simpa [isDots] using h
  -- dots are not escaped, so only dots look like them
  have hdots (dots : String) (hne : flattened name ≠ dots) (he : escaped dots = dots) :
      escape escapedInSegment (flattened name).toList ≠ dots.toList := by
    intro h
    apply hne
    apply escaped_inj
    rw [he, escaped, h, String.ofList_toList]
  have hone : escape escapedInSegment (flattened name).toList ≠ ['.'] :=
    hdots "." hone (by decide)
  have htwo : escape escapedInSegment (flattened name).toList ≠ ['.', '.'] :=
    hdots ".." htwo (by decide)
  rw [flattened, String.toList_ofList] at hone htwo
  unfold addSegment
  dsimp only
  rw [if_neg htwo, if_neg hone, escaped, flattened, String.toList_ofList]

theorem foldl_addSegment {parts names : List String} (hparts : parts ≠ [] ∧ parts ≠ [""])
    (h : ∀ name ∈ names, isDots (flattened name) = false) :
    names.foldl addSegment parts = parts ++ names.map fun name => escaped (flattened name) := by
  induction names generalizing parts with
  | nil => rw [List.foldl_nil, List.map_nil, List.append_nil]
  | cons name rest ih =>
    obtain ⟨hname, hrest⟩ := List.forall_mem_cons.mp h
    rw [List.foldl_cons, addSegment_eq hname, if_neg hparts.2, ih _ hrest, List.append_assoc]
    · rfl
    · constructor
      · simp
      · intro heq
        have hlength := congrArg List.length heq
        have := List.length_pos_iff.mpr hparts.1
        simp only [List.length_append, List.length_cons, List.length_nil] at hlength
        omega

def root (parts : List String) : List String :=
  if withoutEmptyLast parts = [""] then [] else withoutEmptyLast parts

theorem mem_of_mem_root {parts : List String} {p : String} (h : p ∈ root parts) : p ∈ parts := by
  have hlast (hp : p ∈ withoutEmptyLast parts) : p ∈ parts := by
    unfold withoutEmptyLast at hp
    split at hp
    · exact List.dropLast_subset _ hp
    · exact hp
  rw [root] at h
  split at h
  · exact absurd h List.not_mem_nil
  · exact hlast h

theorem extend_eq {u : Url} {parts names : List String} (hu : u.path = .segments parts)
    (h : Extends names) :
    u.extend names = { u with path := .segments (root parts ++ (kept names).map escaped) } := by
  have hadded : (names.filter fun s => s != "." && s != "..") = names.filter fun s => !isDots s := by
    congr 1
    funext s
    rw [isDots, Bool.not_or]
    rfl
  obtain ⟨first, rest, hkept, hne⟩ := h.first
  have hundotted : ∀ name ∈ names.filter fun s => !isDots s, isDots (flattened name) = false :=
    fun name hname => h.undotted _ (List.mem_map_of_mem hname)
  rw [extend, hu]
  dsimp only
  rw [hadded]
  congr 2
  unfold kept at hkept ⊢
  cases hnames : names.filter fun s => !isDots s with
  | nil =>
    rw [hnames] at hkept
    cases hkept
  | cons name more =>
    rw [hnames] at hkept hundotted
    obtain ⟨rfl, rfl⟩ := List.cons.inj hkept
    obtain ⟨hname, hmore⟩ := List.forall_mem_cons.mp hundotted
    have hnonempty : escaped (flattened name) ≠ "" := by
      intro heq
      exact hne (escaped_inj (heq.trans (by decide)))
    rw [List.foldl_cons, addSegment_eq hname, foldl_addSegment _ hmore, ← root, List.append_assoc,
      List.map_cons, List.map_cons, List.map_map]
    · rfl
    · constructor
      · simp
      · intro heq
        have hlast := congrArg List.getLast? heq
        simp only [List.getLast?_append, List.getLast?_singleton, Option.some_or] at hlast
        exact hnonempty (Option.some.inj hlast)

end ProxyPulse.Url
