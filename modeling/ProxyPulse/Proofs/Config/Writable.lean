import ProxyPulse.Config.Toml
import ProxyPulse.Proofs.Toml.Integers

namespace ProxyPulse

namespace Document

theorem Signed.fields? {dialect : Dialect} {names : List String} {d : Document} (h : d.Signed) :
    ∀ fields ∈ fields? dialect names d, ∀ field ∈ fields, ∀ d' ∈ field, d'.Signed := by
  intro fields hf field hm d' hd
  unfold Document.fields? at hf
  cases h with
  | table hs =>
    obtain rfl := Option.some.inj hf
    obtain ⟨name, _, rfl⟩ := List.mem_map.mp hm
    obtain ⟨e, he, rfl⟩ := Option.map_eq_some_iff.mp hd
    exact hs e (List.mem_reverse.mp (List.mem_of_find?_eq_some he))
  | list hs =>
    dsimp only at hf
    split at hf
    · obtain rfl := Option.some.inj hf
      obtain ⟨i, _, rfl⟩ := List.mem_map.mp hm
      exact hs d' (List.mem_of_getElem? hd)
    · cases hf
  | moment =>
    obtain rfl := Option.some.inj hf
    obtain ⟨name, _, rfl⟩ := List.mem_map.mp hm
    cases hd
  | null | bool | integer | real | text => cases hf

theorem Signed.of_fields {α : Type} {dialect : Dialect} {names : List String} {d : Document}
    (h : d.Signed) {read : List (Option Document) → Option α} {x : α}
    (hx : (Document.fields? dialect names d).bind read = some x) :
    ∃ fields, (∀ field ∈ fields, ∀ d' ∈ field, d'.Signed) ∧ read fields = some x := by
  obtain ⟨fields, hf, hx⟩ := Option.bind_eq_some_iff.mp hx
  exact ⟨fields, h.fields? fields hf, hx⟩

theorem Signed.word? {d : Document} (h : d.Signed) {bits : Nat} :
    ∀ n ∈ word? bits d, n < Nat.pow 2 63 := by
  intro n hn
  cases h with
  | @integer value hv =>
    obtain ⟨m, hm, hn⟩ := Option.bind_eq_some_iff.mp hn
    rw [Int.mem_toNat?.mp hm] at hv
    split at hn
    · obtain rfl := Option.some.inj hn
      omega
    · cases hn
  | _ => cases hn

variable {field : Option Document}

theorem orDefault_keeps {α : Type} {read : Document → Option α} {default : α} {P : α → Prop}
    (hf : ∀ d ∈ field, d.Signed) (hdefault : P default)
    (hread : ∀ d : Document, d.Signed → ∀ x ∈ read d, P x) :
    ∀ x ∈ orDefault read default field, P x := by
  cases field with
  | none =>
    rintro _ ⟨⟩
    exact hdefault
  | some d => exact hread d (hf d rfl)

theorem orDefault_word {bits default : Nat} (hf : ∀ d ∈ field, d.Signed)
    (hd : default < Nat.pow 2 63) :
    ∀ n ∈ orDefault (word? bits) default field, n < Nat.pow 2 63 :=
  orDefault_keeps hf hd fun _ h => h.word?

theorem required_word {bits : Nat} (hf : ∀ d ∈ field, d.Signed) :
    ∀ n ∈ required (word? bits) field, n < Nat.pow 2 63 := by
  cases field with
  | none => exact nofun
  | some d => exact (hf d rfl).word?

theorem mem_of_mapM {α β : Type} {f : α → Option β} {xs : List α} {ys : List β}
    (h : xs.mapM f = some ys) {y : β} (hy : y ∈ ys) : ∃ x ∈ xs, f x = some y := by
  induction xs generalizing ys with
  | nil =>
    obtain rfl := Option.some.inj h
    cases hy
  | cons x xs ih =>
    rw [List.mapM_cons] at h
    obtain ⟨z, hz, h⟩ := Option.bind_eq_some_iff.mp h
    obtain ⟨zs, hzs, h⟩ := Option.bind_eq_some_iff.mp h
    obtain rfl := Option.some.inj h
    rcases List.mem_cons.mp hy with rfl | hy
    · exact ⟨x, List.mem_cons_self, hz⟩
    · obtain ⟨x', hx', hf⟩ := ih hzs hy
      exact ⟨x', List.mem_cons_of_mem _ hx', hf⟩

end Document

def BudgetTier.words (t : BudgetTier) : List Nat :=
  [t.maxGroupSize, t.concurrency, t.maxWait]

namespace Config

open Document

def Scheduler.words (s : Scheduler) : List Nat :=
  [s.inProgressTimeoutSecs, s.cleanupTimeoutSecs, s.cleanupIntervalSecs, s.pollIntervalMs,
    s.maxPolls, s.stablePollsRequired, s.reloadConcurrency, s.prefetchAttempts,
    s.prefetchBaseDelay]

def words (c : Config) : List Nat :=
  [c.runtime.requestTimeout, c.runtime.probeTimeout] ++ c.scheduler.words ++
    [c.cache.ttlSecs, c.view.sortDebounce]

theorem isSome_bind_iff {α β : Type} {o : Option α} {f : α → Option β} {P : Prop}
    (h : ∀ x, (f x).isSome ↔ P) : (o.bind f).isSome ↔ o.isSome ∧ P := by
  cases o with
  | none => simp
  | some x => simpa using h x

theorem isSome_mapM_iff {α β : Type} {f : α → Option β} {xs : List α} :
    (xs.mapM f).isSome ↔ ∀ x ∈ xs, (f x).isSome := by
  induction xs with
  | nil => simp
  | cons x xs ih =>
    have hx : ((x :: xs).mapM f).isSome ↔ (f x).isSome ∧ (xs.mapM f).isSome ∧ True := by
      rw [List.mapM_cons]
      exact isSome_bind_iff fun _ => isSome_bind_iff fun _ => iff_of_true rfl trivial
    rw [hx, and_true, ih, List.forall_mem_cons]

theorem wordField?_isSome {name : String} {n : Nat} :
    (wordField? name n).isSome ↔ n < Nat.pow 2 63 := by
  unfold wordField?
  split
  · next h => exact iff_of_true rfl h
  · next h => exact iff_of_false Bool.false_ne_true h

theorem writeTier?_isSome {t : BudgetTier} :
    (writeTier? t).isSome ↔ ∀ n ∈ t.words, n < Nat.pow 2 63 := by
  have h : (writeTier? t).isSome ↔ _ ∧ _ ∧ _ ∧ True :=
    isSome_bind_iff fun _ => isSome_bind_iff fun _ => isSome_bind_iff fun _ =>
      iff_of_true rfl trivial
  rw [h]
  simp [wordField?_isSome, BudgetTier.words]

theorem writeScheduler?_isSome {s : Scheduler} :
    (writeScheduler? s).isSome ↔
      (∀ n ∈ s.words, n < Nat.pow 2 63) ∧ ∀ t ∈ s.tiers, ∀ n ∈ t.words, n < Nat.pow 2 63 := by
  have h : (writeScheduler? s).isSome ↔ _ ∧ _ ∧ _ ∧ _ ∧ _ ∧ _ ∧ _ ∧ _ ∧ _ ∧ _ ∧ True :=
    isSome_bind_iff fun _ => isSome_bind_iff fun _ => isSome_bind_iff fun _ =>
      isSome_bind_iff fun _ => isSome_bind_iff fun _ => isSome_bind_iff fun _ =>
      isSome_bind_iff fun _ => isSome_bind_iff fun _ => isSome_bind_iff fun _ =>
      isSome_bind_iff fun _ => iff_of_true rfl trivial
  rw [h]
  simp only [wordField?_isSome, isSome_mapM_iff, writeTier?_isSome, Scheduler.words,
    List.forall_mem_cons, List.not_mem_nil, false_imp_iff, implies_true, and_true, and_assoc]

theorem toToml?_isSome {c : Config} :
    c.toToml?.isSome ↔
      (∀ n ∈ c.words, n < Nat.pow 2 63) ∧
        ∀ t ∈ c.scheduler.tiers, ∀ n ∈ t.words, n < Nat.pow 2 63 := by
  have hruntime : (writeRuntime? c.runtime).isSome ↔ _ ∧ _ ∧ True :=
    isSome_bind_iff fun _ => isSome_bind_iff fun _ => iff_of_true rfl trivial
  have hcache : (writeCache? c.cache).isSome ↔ _ ∧ True :=
    isSome_bind_iff fun _ => iff_of_true rfl trivial
  have hview : (writeView? c.view).isSome ↔ _ ∧ True :=
    isSome_bind_iff fun _ => iff_of_true rfl trivial
  have h : c.toToml?.isSome ↔ _ ∧ _ ∧ _ ∧ _ ∧ True :=
    isSome_bind_iff fun _ => isSome_bind_iff fun _ => isSome_bind_iff fun _ =>
      isSome_bind_iff fun _ => iff_of_true rfl trivial
  rw [h, hruntime, hcache, hview, writeScheduler?_isSome]
  simp only [wordField?_isSome, words, List.forall_mem_append, List.forall_mem_cons,
    List.not_mem_nil, false_imp_iff, implies_true, and_true]
  constructor
  · rintro ⟨hr, ⟨hs, ht⟩, hcv⟩
    exact ⟨⟨⟨hr, hs⟩, hcv⟩, ht⟩
  · rintro ⟨⟨⟨hr, hs⟩, hcv⟩, ht⟩
    exact ⟨hr, ⟨hs, ht⟩, hcv⟩

section

variable {dialect : Dialect} {d : Document}

theorem decodeRuntime_words (h : d.Signed) :
    ∀ r ∈ decodeRuntime dialect d,
      r.requestTimeout < Nat.pow 2 63 ∧ r.probeTimeout < Nat.pow 2 63 := by
  intro r hr
  obtain ⟨fields, hs, hr⟩ := h.of_fields hr
  split at hr
  · simp only [Option.bind_eq_bind, Option.bind_eq_some_iff, Option.pure_def,
      Option.some.injEq] at hr
    obtain ⟨_, _, _, _, _, ht, _, _, _, hp, rfl⟩ := hr
    exact ⟨orDefault_word (hs _ (by simp)) (by decide) _ ht,
      orDefault_word (hs _ (by simp)) (by decide) _ hp⟩
  · cases hr

theorem decodeTier_words (h : d.Signed) :
    ∀ t ∈ decodeTier dialect d, ∀ n ∈ t.words, n < Nat.pow 2 63 := by
  intro t ht
  obtain ⟨fields, hs, ht⟩ := h.of_fields ht
  split at ht
  · simp only [Option.bind_eq_bind, Option.bind_eq_some_iff, Option.pure_def,
      Option.some.injEq] at ht
    obtain ⟨size, hsize, concurrency, hconcurrency, wait, hwait, rfl⟩ := ht
    simp only [BudgetTier.words, List.forall_mem_cons, List.not_mem_nil, false_imp_iff,
      implies_true, and_true]
    exact ⟨required_word (hs _ (by simp)) _ hsize, required_word (hs _ (by simp)) _ hconcurrency,
      required_word (hs _ (by simp)) _ hwait⟩
  · cases ht

theorem decodeTiers_words {field : Option Document} (hf : ∀ d ∈ field, d.Signed) :
    ∀ tiers ∈ orDefault (list? (decodeTier dialect)) defaultTiers field,
      tiers = defaultTiers ∨ ∀ t ∈ tiers, ∀ n ∈ t.words, n < Nat.pow 2 63 := by
  refine orDefault_keeps hf (.inl rfl) fun d h tiers ht => .inr fun t hm => ?_
  cases h with
  | list hs =>
    obtain ⟨row, hrow, hd⟩ := mem_of_mapM ht hm
    exact decodeTier_words (hs row hrow) t hd
  | _ => cases ht

theorem decodeScheduler_words (h : d.Signed) :
    ∀ s ∈ decodeScheduler dialect d, (∀ n ∈ s.words, n < Nat.pow 2 63) ∧
      (s.tiers = defaultTiers ∨ ∀ t ∈ s.tiers, ∀ n ∈ t.words, n < Nat.pow 2 63) := by
  intro s hd
  obtain ⟨fields, hs, hd⟩ := h.of_fields hd
  split at hd
  · simp only [Option.bind_eq_bind, Option.bind_eq_some_iff, Option.pure_def,
      Option.some.injEq] at hd
    obtain ⟨_, h₁, _, h₂, _, h₃, _, h₄, _, h₅, _, h₆, _, _, _, h₇, _, h₈, _, h₉, _, htiers, rfl⟩ := hd
    refine ⟨?_, decodeTiers_words (hs _ (by simp)) _ htiers⟩
    simp only [Scheduler.words, List.forall_mem_cons, List.not_mem_nil, false_imp_iff,
      implies_true, and_true]
    exact ⟨orDefault_word (hs _ (by simp)) (by decide) _ h₁,
      orDefault_word (hs _ (by simp)) (by decide) _ h₂,
      orDefault_word (hs _ (by simp)) (by decide) _ h₃,
      orDefault_word (hs _ (by simp)) (by decide) _ h₄,
      orDefault_word (hs _ (by simp)) (by decide) _ h₅,
      orDefault_word (hs _ (by simp)) (by decide) _ h₆,
      orDefault_word (hs _ (by simp)) (by decide) _ h₇,
      orDefault_word (hs _ (by simp)) (by decide) _ h₈,
      orDefault_word (hs _ (by simp)) (by decide) _ h₉⟩
  · cases hd

theorem decodeCache_words (h : d.Signed) :
    ∀ c ∈ decodeCache dialect d, c.ttlSecs < Nat.pow 2 63 := by
  intro c hc
  obtain ⟨fields, hs, hc⟩ := h.of_fields hc
  split at hc
  · obtain ⟨ttl, ht, hc⟩ := Option.bind_eq_some_iff.mp hc
    obtain rfl := Option.some.inj hc
    exact orDefault_word (hs _ (by simp)) (by decide) _ ht
  · cases hc

theorem decodeView_words (h : d.Signed) :
    ∀ v ∈ decodeView dialect d, v.sortDebounce < Nat.pow 2 63 := by
  intro v hv
  obtain ⟨fields, hs, hv⟩ := h.of_fields hv
  split at hv
  · simp only [Option.bind_eq_bind, Option.bind_eq_some_iff, Option.pure_def,
      Option.some.injEq] at hv
    obtain ⟨_, _, _, _, _, hd, _, _, rfl⟩ := hv
    exact orDefault_word (hs _ (by simp)) (by decide) _ hd
  · cases hv

theorem decode_words (h : d.Signed) :
    ∀ c ∈ decode dialect d, (∀ n ∈ c.words, n < Nat.pow 2 63) ∧
      (c.scheduler.tiers = defaultTiers ∨
        ∀ t ∈ c.scheduler.tiers, ∀ n ∈ t.words, n < Nat.pow 2 63) := by
  intro c hc
  obtain ⟨fields, hs, hc⟩ := h.of_fields hc
  split at hc
  · simp only [Option.bind_eq_bind, Option.bind_eq_some_iff, Option.pure_def,
      Option.some.injEq] at hc
    obtain ⟨_, hr, _, hsched, _, hcache, _, hview, _, _, rfl⟩ := hc
    have hruntime := orDefault_keeps (hs _ (by simp)) (by decide) (fun _ => decodeRuntime_words) _ hr
    have hscheduler := orDefault_keeps (hs _ (by simp)) ⟨by decide, .inl rfl⟩
      (fun _ => decodeScheduler_words) _ hsched
    have httl := orDefault_keeps (hs _ (by simp)) (by decide) (fun _ => decodeCache_words) _ hcache
    have hdebounce := orDefault_keeps (hs _ (by simp)) (by decide) (fun _ => decodeView_words) _ hview
    refine ⟨?_, hscheduler.2⟩
    simp only [words, List.forall_mem_append, List.forall_mem_cons, List.not_mem_nil, false_imp_iff,
      implies_true, and_true]
    exact ⟨⟨hruntime, hscheduler.1⟩, httl, hdebounce⟩
  · cases hc

end

end Config

end ProxyPulse
