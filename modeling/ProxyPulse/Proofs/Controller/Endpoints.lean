import ProxyPulse.Controller
import ProxyPulse.Proofs.Url.Segments

namespace ProxyPulse

namespace Url

def rootPieces (pieces : List Bytes) : List Bytes :=
  let front := if pieces.getLast? = some [] then pieces.dropLast else pieces
  if front = [[]] then [] else front

theorem rootPieces_pieces {u : Url} {parts : List String} (hu : u.path = .segments parts)
    (hs : ∀ p ∈ parts, IsSegment p) : rootPieces u.pieces = (root parts).map decoded := by
  have hempty : decoded "" = [] := decoded_eq_nil_iff.mpr rfl
  have hlast (parts : List String) :
      (parts.map decoded).getLast? = some [] ↔ parts.getLast? = some "" := by
    rw [List.getLast?_map, Option.map_eq_some_iff]
    simp only [decoded_eq_nil_iff, exists_eq_right]
  have honly (parts : List String) : parts.map decoded = [[]] ↔ parts = [""] := by
    constructor
    · intro h
      obtain ⟨p, rfl, hp⟩ := List.map_eq_singleton_iff.mp h
      rw [decoded_eq_nil_iff.mp hp]
    · rintro rfl
      rw [List.map_singleton, hempty]
  have hfront (parts : List String) :
      (if (parts.map decoded).getLast? = some [] then (parts.map decoded).dropLast
        else parts.map decoded) = (withoutEmptyLast parts).map decoded := by
    unfold withoutEmptyLast
    simp only [hlast]
    split
    · exact List.map_dropLast.symm
    · rfl
  by_cases hne : parts = []
  · subst hne
    rw [pieces_nil hu]
    rfl
  · rw [pieces_eq hu hs hne, rootPieces, root, hfront]
    simp only [honly]
    split <;> rfl

end Url

namespace Controller

open Url

theorem ofSettings_base {settings : Config.Runtime} {c : Controller}
    (h : ofSettings settings = .ok c) :
    ∃ parts, c.base.path = .segments parts ∧ ∀ p ∈ parts, IsSegment p := by
  unfold ofSettings at h
  split at h
  · cases h
  · next base hbase =>
    split at h
    · next hcan =>
      obtain rfl := Except.ok.inj h
      unfold canBeBase at hcan
      split at hcan
      · next parts hparts => exact ⟨parts, hparts, parse_segmented hbase parts hparts⟩
      · cases hcan
    · cases h

section

variable {settings : Config.Runtime} {c : Controller} {names names' : List String}

theorem endpoint_path (h : ofSettings settings = .ok c) (hnames : Extends names) :
    ∃ parts, c.base.path = .segments parts ∧ (∀ p ∈ parts, IsSegment p) ∧
      c.endpoint names =
        { c.base with path := .segments (root parts ++ (kept names).map escaped) } := by
  obtain ⟨parts, hparts, hs⟩ := ofSettings_base h
  exact ⟨parts, hparts, hs, extend_eq hparts hnames⟩

theorem endpoint_pieces (h : ofSettings settings = .ok c) (hnames : Extends names) :
    (c.endpoint names).pieces = rootPieces c.base.pieces ++ (kept names).map bytes := by
  obtain ⟨parts, hparts, hs, hpath⟩ := endpoint_path h hnames
  have hsegments : ∀ p ∈ root parts ++ (kept names).map escaped, IsSegment p := by
    intro p hp
    rcases List.mem_append.mp hp with hp | hp
    · exact hs p (mem_of_mem_root hp)
    · obtain ⟨name, _, rfl⟩ := List.mem_map.mp hp
      exact escaped_segment name
  obtain ⟨name, rest, hkept, _⟩ := hnames.first
  have hne : root parts ++ (kept names).map escaped ≠ [] := by
    rw [hkept]
    simp
  rw [pieces_eq (congrArg Url.path hpath) hsegments hne, List.map_append,
    ← rootPieces_pieces hparts hs, List.map_map]
  exact congrArg (_ ++ List.map · _) (funext decoded_escaped)

theorem endpoint_path_eq_iff (h : ofSettings settings = .ok c) (hnames : Extends names)
    (hnames' : Extends names') :
    (c.endpoint names).path = (c.endpoint names').path ↔ kept names = kept names' := by
  obtain ⟨parts, hparts, _, hpath⟩ := endpoint_path h hnames
  have hpath' : c.endpoint names' = _ := extend_eq hparts hnames'
  rw [hpath, hpath']
  constructor
  · intro heq
    have hmaps := List.append_cancel_left (Path.segments.inj heq)
    exact (List.map_inj_right fun _ _ => escaped_inj).mp hmaps
  · intro heq
    rw [heq]

theorem addQuery_path (u : Url) (name value : String) : (u.addQuery name value).path = u.path := by
  unfold addQuery
  dsimp only
  split <;> rfl

theorem delayEndpoint_path (c : Controller) (names : List String) :
    (c.delayEndpoint names).path = (c.endpoint names).path := by
  rw [delayEndpoint, addQuery_path, addQuery_path]

theorem extends_of_plain {name : String} {rest : List String}
    (h : ∀ n ∈ name :: rest, IsPlain n) (hne : name ≠ "") :
    Extends (name :: rest) ∧ kept (name :: rest) = name :: rest := by
  have hkept := kept_of_plain h
  exact ⟨⟨⟨name, rest, hkept, hne⟩, fun n hn => (h n (hkept ▸ hn)).1⟩, hkept⟩

theorem plain_endpoint_inj (h : ofSettings settings = .ok c) {front name name' : String}
    {back : List String} (hfront : IsPlain front) (hne : front ≠ "") (hback : ∀ n ∈ back, IsPlain n)
    (hname : IsPlain name) (hname' : IsPlain name')
    (heq : (c.endpoint (front :: name :: back)).path = (c.endpoint (front :: name' :: back)).path) :
    name = name' := by
  have hplain {name : String} (hname : IsPlain name) : ∀ n ∈ front :: name :: back, IsPlain n :=
    List.forall_mem_cons.mpr ⟨hfront, List.forall_mem_cons.mpr ⟨hname, hback⟩⟩
  obtain ⟨hextends, hkept⟩ := extends_of_plain (hplain hname) hne
  obtain ⟨hextends', hkept'⟩ := extends_of_plain (hplain hname') hne
  have hkepts := (endpoint_path_eq_iff h hextends hextends').mp heq
  rw [hkept, hkept'] at hkepts
  exact (List.cons.inj (List.cons.inj hkepts).2).1

instance (name : String) : Decidable (IsPlain name) :=
  decidable_of_iff (isDots name = false ∧ name.toList.all (fun c => !isTabOrNewline c) = true)
    (by simp only [IsPlain, List.all_eq_true, Bool.not_eq_true'])

def nested : Controller :=
  { base := ⟨"http", "", none, some (.ipv4 2130706433), some 9090, .segments ["api", ""], none⟩
    secret := none, requestTimeout := 5000, probeUrl := "http://x", probeTimeout := 5000 }

theorem nested_eq :
    ofSettings { controllerUrl := "http://127.0.0.1:9090/api/", probeUrl := "http://x" } =
      .ok nested := by
  have hsome : (ofSettings
      { controllerUrl := "http://127.0.0.1:9090/api/", probeUrl := "http://x" }).toOption =
      some nested := by
    decide +kernel
  revert hsome
  cases ofSettings { controllerUrl := "http://127.0.0.1:9090/api/", probeUrl := "http://x" } with
  | error fault => exact nofun
  | ok c => exact fun hsome => congrArg Except.ok (Option.some.inj hsome)

end

end Controller

end ProxyPulse
