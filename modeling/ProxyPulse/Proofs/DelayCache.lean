import Mathlib.Tactic.Tauto
import ProxyPulse.DelayCache

namespace ProxyPulse.DelayCache

inductive Act where
  | record (name : String) (delay : Int)
  | lookUp (name : String)
  | cover (names : List String)
  | sweep
  | keep (names : List String)
  | wait (span : Nat)
  | setTtl (ttl : Nat)
  deriving DecidableEq, Repr

structure Clocked where
  cache : DelayCache := ∅
  now : Nat
  ttl : Nat

inductive Answer where
  | delay (delay : Option Int)
  | covered (all : Bool)
  deriving DecidableEq, Repr

def Act.isSweep (a : Act) : Bool :=
  a == .sweep

def Act.ttl? : Act → Option Nat
  | .setTtl ttl => some ttl
  | _ => none

namespace Clocked

def get? (s : Clocked) (name : String) : Option Int :=
  s.cache.fresh? s.ttl s.now name

def coversAll (s : Clocked) (names : List String) : Bool :=
  s.cache.coversAll s.ttl s.now names

def perform (s : Clocked) : Act → Clocked
  | .record name delay => { s with cache := s.cache.record s.now name delay }
  | .lookUp _ | .cover _ => s
  | .sweep => { s with cache := s.cache.sweep s.ttl s.now }
  | .keep names => { s with cache := s.cache.keep names }
  | .wait span => { s with now := s.now + span }
  | .setTtl ttl => { s with ttl }

def answer? (s : Clocked) : Act → Option Answer
  | .lookUp name => some (.delay (s.get? name))
  | .cover names => some (.covered (s.coversAll names))
  | _ => none

def answers (s : Clocked) : List Act → List Answer
  | [] => []
  | a :: rest => (s.answer? a).toList ++ (s.perform a).answers rest

def Spares (s : Clocked) (name : String) (recordedAt : Nat) : Act → Prop
  | .record other delay => other = name → delay ≤ 0
  | .keep names => name ∈ names
  | .sweep => s.now - recordedAt < s.ttl
  | _ => True

def SparesAll (name : String) (recordedAt : Nat) : Clocked → List Act → Prop
  | _, [] => True
  | s, a :: rest => s.Spares name recordedAt a ∧ SparesAll name recordedAt (s.perform a) rest

end Clocked

theorem getElem?_record (cache : DelayCache) (now : Nat) (other : String) (delay : Int)
    (name : String) : (cache.record now other delay)[name]? =
      if 0 < delay ∧ other = name then some ⟨delay, now⟩ else cache[name]? := by
  unfold record isKnownDelay
  by_cases hk : 0 < delay
  · simp [hk, Std.ExtTreeMap.getElem?_insert]
  · simp [hk]

theorem getElem?_sweep (cache : DelayCache) (ttl now : Nat) (name : String) :
    (cache.sweep ttl now)[name]? = cache[name]?.filter (isFresh ttl now) := by
  rw [sweep, Std.ExtTreeMap.getElem?_filter']

theorem getElem?_keep (cache : DelayCache) (names : List String) (name : String) :
    (cache.keep names)[name]? = cache[name]?.filter fun _ => names.contains name := by
  rw [keep, Std.ExtTreeMap.getElem?_filter']

theorem fresh?_eq_some_iff (cache : DelayCache) (ttl now : Nat) (name : String) (delay : Int) :
    cache.fresh? ttl now name = some delay ↔
      ∃ recordedAt, cache[name]? = some ⟨delay, recordedAt⟩ ∧ now - recordedAt < ttl := by
  rw [fresh?, Option.map_eq_some_iff]
  constructor
  · rintro ⟨⟨d, recordedAt⟩, hx, rfl⟩
    rw [Option.filter_eq_some_iff, isFresh, decide_eq_true_iff] at hx
    exact ⟨recordedAt, hx⟩
  · rintro ⟨recordedAt, hx, hage⟩
    exact ⟨⟨delay, recordedAt⟩, Option.filter_eq_some_iff.mpr ⟨hx, decide_eq_true hage⟩, rfl⟩

theorem coversAll_iff (cache : DelayCache) (ttl now : Nat) (names : List String) :
    cache.coversAll ttl now names = true ↔
      ∀ name ∈ names, (cache.fresh? ttl now name).isSome = true := by
  rw [coversAll, List.all_eq_true]
  refine forall₂_congr fun name _ => ?_
  rw [fresh?, Option.isSome_map, Option.isSome_filter]

namespace Clocked

variable {s s' : Clocked} {name : String} {acts acts' : List Act}

theorem perform_getElem? (s : Clocked) (a : Act) (name : String) (x : CachedDelay) :
    (s.perform a).cache[name]? = some x ↔
      s.cache[name]? = some x ∧ s.Spares name x.recordedAt a ∨
        0 < x.delay ∧ a = .record name x.delay ∧ x.recordedAt = s.now := by
  cases a with
  | record other delay =>
    obtain ⟨d, t⟩ := x
    simp only [perform, getElem?_record, Spares]
    split
    · next h =>
      obtain ⟨hk, rfl⟩ := h
      simp
      grind
    · next h => grind
  | sweep => simp [perform, Spares, getElem?_sweep, Option.filter_eq_some_iff, isFresh]
  | keep names => simp [perform, Spares, getElem?_keep, Option.filter_eq_some_iff]
  | _ => simp [perform, Spares]

/-- The last time that a delay was recorded of a name, and nothing since has taken it out. -/
def Remembers (start : Clocked) (acts : List Act) (name : String) (x : CachedDelay) : Prop :=
  ∃ before after, acts = before ++ .record name x.delay :: after ∧ 0 < x.delay ∧
    x.recordedAt = (before.foldl perform start).now ∧
    SparesAll name x.recordedAt ((before ++ [.record name x.delay]).foldl perform start) after

theorem performs_getElem? (s : Clocked) (acts : List Act) (name : String) (x : CachedDelay) :
    (acts.foldl perform s).cache[name]? = some x ↔
      s.cache[name]? = some x ∧ SparesAll name x.recordedAt s acts ∨ s.Remembers acts name x := by
  induction acts generalizing s with
  | nil => simp [SparesAll, Remembers]
  | cons a rest ih =>
    rw [List.foldl_cons, ih, perform_getElem?]
    have hcons : s.Remembers (a :: rest) name x ↔
        (0 < x.delay ∧ a = .record name x.delay ∧ x.recordedAt = s.now) ∧
          SparesAll name x.recordedAt (s.perform a) rest ∨ (s.perform a).Remembers rest name x := by
      constructor
      · rintro ⟨before, after, hl, hk, ht, hs⟩
        cases before with
        | nil =>
          obtain ⟨rfl, rfl⟩ := List.cons.inj hl
          exact .inl ⟨⟨hk, rfl, ht⟩, hs⟩
        | cons b before =>
          obtain ⟨rfl, rfl⟩ := List.cons.inj hl
          exact .inr ⟨before, after, rfl, hk, ht, hs⟩
      · rintro (⟨⟨hk, rfl, ht⟩, hs⟩ | ⟨before, after, rfl, hk, ht, hs⟩)
        · exact ⟨[], rest, rfl, hk, ht, hs⟩
        · exact ⟨a :: before, after, rfl, hk, ht, hs⟩
    rw [hcons, SparesAll]
    tauto

structure Alike (s s' : Clocked) : Prop where
  now : s'.now = s.now
  ttl : s'.ttl = s.ttl
  fresh : ∀ name : String,
    s'.cache[name]?.filter (isFresh s.ttl s.now) = s.cache[name]?.filter (isFresh s.ttl s.now)

theorem Alike.refl (s : Clocked) : Alike s s :=
  ⟨rfl, rfl, fun _ => rfl⟩

theorem filter_isFresh {ttl ttl' now now' : Nat} (ht : ttl' ≤ ttl) (hn : now ≤ now')
    (o : Option CachedDelay) :
    (o.filter (isFresh ttl now)).filter (isFresh ttl' now') = o.filter (isFresh ttl' now') := by
  rw [Option.filter_filter]
  congr 1
  funext x
  simp only [isFresh, Bool.and_eq_right_iff_imp, decide_eq_true_iff]
  omega

theorem Alike.later (h : Alike s s') {ttl now : Nat} (ht : ttl ≤ s.ttl) (hn : s.now ≤ now) :
    Alike { s with now, ttl } { s' with now, ttl } where
  now := rfl
  ttl := rfl
  fresh name := by
    show s'.cache[name]?.filter (isFresh ttl now) = s.cache[name]?.filter (isFresh ttl now)
    rw [← filter_isFresh ht hn, h.fresh, filter_isFresh ht hn]

theorem Alike.sweep (h : Alike s s') : Alike (s.perform .sweep) s' where
  now := h.now
  ttl := h.ttl
  fresh name := by
    show _ = (s.cache.sweep s.ttl s.now)[name]?.filter (isFresh s.ttl s.now)
    rw [getElem?_sweep, filter_isFresh (Nat.le_refl _) (Nat.le_refl _)]
    exact h.fresh name

theorem Alike.perform (h : Alike s s') {a : Act} (ha : a.isSweep = false)
    (hle : ∀ ttl ∈ a.ttl?, ttl ≤ s.ttl) : Alike (s.perform a) (s'.perform a) := by
  cases a with
  | record other delay =>
    refine ⟨h.now, h.ttl, fun name => ?_⟩
    simp only [Clocked.perform, getElem?_record, h.now]
    split
    · rfl
    · exact h.fresh name
  | lookUp | cover => exact h
  | sweep => cases ha
  | keep names =>
    refine ⟨h.now, h.ttl, fun name => ?_⟩
    simp only [Clocked.perform, getElem?_keep]
    cases names.contains name with
    | true => simpa using h.fresh name
    | false => simp
  | wait span =>
    have hl := h.later (Nat.le_refl s.ttl) (Nat.le_add_right s.now span)
    simpa [Clocked.perform, h.now, h.ttl] using hl
  | setTtl ttl =>
    have hl := h.later (hle ttl rfl) (Nat.le_refl s.now)
    simpa [Clocked.perform, h.now] using hl

theorem Alike.get? (h : Alike s s') (name : String) : s'.get? name = s.get? name := by
  rw [Clocked.get?, Clocked.get?, h.now, h.ttl, fresh?, fresh?, h.fresh]

theorem Alike.coversAll (h : Alike s s') (names : List String) :
    s'.coversAll names = s.coversAll names := by
  rw [Bool.eq_iff_iff, Clocked.coversAll, Clocked.coversAll, coversAll_iff, coversAll_iff]
  refine forall₂_congr fun name _ => ?_
  exact iff_of_eq (congrArg (fun d : Option Int => d.isSome = true) (h.get? name))

theorem Alike.answer? (h : Alike s s') (a : Act) : s'.answer? a = s.answer? a := by
  cases a with
  | lookUp name => exact congrArg (fun d => some (Answer.delay d)) (h.get? name)
  | cover names => exact congrArg (fun all => some (Answer.covered all)) (h.coversAll names)
  | _ => rfl

theorem filterMap_ttl (acts : List Act) :
    (acts.filter (!·.isSweep)).filterMap Act.ttl? = acts.filterMap Act.ttl? := by
  rw [List.filterMap_filter]
  congr 1
  funext a
  cases a <;> rfl

theorem Alike.answers (h : Alike s s')
    (hle : (s.ttl :: acts.filterMap Act.ttl?).Pairwise (· ≥ ·)) :
    s'.answers (acts.filter (!·.isSweep)) = s.answers acts := by
  induction acts generalizing s s' with
  | nil => rfl
  | cons a rest ih =>
    cases hsweep : a.isSweep with
    | true =>
      obtain rfl : a = .sweep := by simpa [Act.isSweep] using hsweep
      exact ih h.sweep hle
    | false =>
      have hfirst : ∀ ttl ∈ a.ttl?, ttl ≤ s.ttl := by
        intro ttl ht
        refine (List.pairwise_cons.mp hle).1 ttl ?_
        rw [List.filterMap_cons_some ht]
        exact List.mem_cons_self
      have hrest : ((s.perform a).ttl :: rest.filterMap Act.ttl?).Pairwise (· ≥ ·) := by
        cases a with
        | setTtl ttl => exact (List.pairwise_cons.mp hle).2
        | _ => exact hle
      rw [List.filter_cons_of_pos (by rw [hsweep]; rfl), Clocked.answers, Clocked.answers,
        h.answer?, ih (h.perform hsweep hfirst) hrest]

end Clocked

/-- After any history, what is handed out of a name is the delay that was last recorded of it, unless
something since has taken it out or it has grown too old; all of some names are covered if each of
them is handed out; and as long as the time to live does not grow, histories that differ only in
their sweeps are answered alike. -/
theorem history_tells_what_is_fresh (now ttl : Nat) (acts : List Act) :
    let start : Clocked := { now, ttl }
    let s := acts.foldl Clocked.perform start
    (∀ name delay, s.get? name = some delay ↔
      ∃ recordedAt, start.Remembers acts name ⟨delay, recordedAt⟩ ∧ s.now - recordedAt < s.ttl) ∧
    (∀ names, s.coversAll names = true ↔ ∀ name ∈ names, (s.get? name).isSome = true) ∧
    ∀ swept : List Act, swept.filter (!·.isSweep) = acts.filter (!·.isSweep) →
      (ttl :: acts.filterMap Act.ttl?).Pairwise (· ≥ ·) →
        start.answers swept = start.answers acts := by
  intro start s
  refine ⟨fun name delay => ?_, fun names => ?_, fun swept hsame hle => ?_⟩
  · rw [Clocked.get?, fresh?_eq_some_iff]
    refine exists_congr fun recordedAt => and_congr_left fun _ => ?_
    rw [Clocked.performs_getElem?]
    simp [start]
  · exact coversAll_iff s.cache s.ttl s.now names
  · have httls : swept.filterMap Act.ttl? = acts.filterMap Act.ttl? := by
      rw [← Clocked.filterMap_ttl, hsame, Clocked.filterMap_ttl]
    rw [← (Clocked.Alike.refl start).answers hle, ← hsame]
    exact ((Clocked.Alike.refl start).answers (httls ▸ hle)).symm

def aging : List Act :=
  [.record "direct" 70, .record "direct" 0, .wait 999, .lookUp "direct", .setTtl 1000,
    .cover ["direct"], .wait 1, .lookUp "direct"]

theorem history_tells_what_is_fresh_aging :
    let start : Clocked := { now := 5, ttl := 2000 }
    let swept := .sweep :: aging.flatMap fun a => [a, .sweep]
    start.answers swept = start.answers aging ∧
      start.answers aging = [.delay (some 70), .covered true, .delay none] := by
  intro start swept
  obtain ⟨-, -, hswept⟩ := history_tells_what_is_fresh 5 2000 aging
  exact ⟨hswept swept (by decide) (by decide), by decide⟩

end ProxyPulse.DelayCache
