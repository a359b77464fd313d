import ProxyPulse.Proofs.Config.Writable
import ProxyPulse.Proofs.Toml.Lines

/-!
Settings that were written are read back as they were: a section stands for its lines, the rows of
the budget table for a series below the last table, and a missing secret for no line at all.
-/

namespace ProxyPulse

open Toml Document

namespace Toml

namespace Line

def ofText (name text : String) : Line :=
  ⟨name, quote text, .text text⟩

def ofWord (name : String) (n : Nat) : Line :=
  ⟨name, toString n, .integer n⟩

def ofBool (name : String) (b : Bool) : Line :=
  ⟨name, if b then "true" else "false", .bool b⟩

def member (l : Line) : String × Document :=
  (l.name, l.document)

variable {name : String}

theorem Sound.ofText (h : IsBare name) (text : String) : (Line.ofText name text).Sound :=
  ⟨h, spells_text text⟩

theorem Sound.ofWord (h : IsBare name) {n : Nat} (hn : n < Nat.pow 2 63) :
    (Line.ofWord name n).Sound :=
  ⟨h, spells_number hn⟩

theorem Sound.ofBool (h : IsBare name) (b : Bool) : (Line.ofBool name b).Sound :=
  ⟨h, spells_bool b⟩

end Line

theorem entriesToDocument_append (entries more : Entries) :
    Node.entriesToDocument (entries ++ more) =
      Node.entriesToDocument entries ++ Node.entriesToDocument more := by
  induction entries with
  | nil => rfl
  | cons e entries ih =>
    rw [List.cons_append, Node.entriesToDocument, Node.entriesToDocument, ih, List.cons_append]

theorem entriesToDocument_lines (lines : List Line) :
    Node.entriesToDocument (lines.map Line.entry) = lines.map Line.member := by
  induction lines with
  | nil => rfl
  | cons l lines ih =>
    rw [List.map_cons, List.map_cons, Line.entry, Node.entriesToDocument, ih]
    rfl

theorem seriesToDocument_eq (tables : List Entries) :
    Node.seriesToDocument tables =
      tables.map fun entries => .table (Node.entriesToDocument entries) := by
  induction tables with
  | nil => rfl
  | cons entries tables ih => rw [List.map_cons, Node.seriesToDocument, ih]

end Toml

def BudgetTier.lines (t : BudgetTier) : List Line :=
  [.ofWord "max_group_size" t.maxGroupSize, .ofWord "concurrency" t.concurrency,
    .ofWord "max_wait_ms" t.maxWait]

namespace Config

def Runtime.lines (r : Runtime) : List Line :=
  [.ofText "controller_url" r.controllerUrl] ++ r.secret.toList.map (.ofText "secret") ++
    [.ofWord "request_timeout_ms" r.requestTimeout, .ofText "probe_url" r.probeUrl,
      .ofWord "probe_timeout_ms" r.probeTimeout]

def Scheduler.lines (s : Scheduler) : List Line :=
  [.ofWord "in_progress_timeout_secs" s.inProgressTimeoutSecs,
    .ofWord "cleanup_timeout_secs" s.cleanupTimeoutSecs,
    .ofWord "cleanup_interval_secs" s.cleanupIntervalSecs,
    .ofWord "poll_interval_ms" s.pollIntervalMs,
    .ofWord "max_polls" s.maxPolls,
    .ofWord "stable_polls_required" s.stablePollsRequired,
    .ofText "strategy" s.strategy.tag,
    .ofWord "reload_concurrency" s.reloadConcurrency,
    .ofWord "prefetch_attempts" s.prefetchAttempts,
    .ofWord "prefetch_base_delay_ms" s.prefetchBaseDelay] ++
  if s.tiers.isEmpty then [⟨"tiers", "[]", .list []⟩] else []

def Cache.lines (c : Cache) : List Line :=
  [.ofWord "ttl_secs" c.ttlSecs]

def View.lines (v : View) : List Line :=
  [.ofText "sort" v.sort.tag, .ofBool "sort_by_delay" v.sortByDelay,
    .ofWord "sort_debounce_ms" v.sortDebounce,
    .ofBool "exclude_not_selectable" v.excludeNotSelectable]

def Observability.lines (o : Observability) : List Line :=
  [.ofText "log_level" o.logLevel, .ofBool "metrics_enabled" o.metricsEnabled,
    .ofText "metrics_address" o.metricsAddress]

theorem wordField?_eq {name : String} {n : Nat} (hn : n < Nat.pow 2 63) :
    wordField? name n = some (Line.ofWord name n).text :=
  if_pos hn

theorem textField_eq (name value : String) : textField name value = (Line.ofText name value).text :=
  rfl

theorem boolField_eq (name : String) (value : Bool) :
    boolField name value = (Line.ofBool name value).text :=
  rfl

theorem writeRuntime?_eq {r : Runtime} (ht : r.requestTimeout < Nat.pow 2 63)
    (hp : r.probeTimeout < Nat.pow 2 63) :
    writeRuntime? r = some ("[runtime]\n" ++ String.join (r.lines.map Line.text)) := by
  simp only [writeRuntime?, wordField?_eq ht, wordField?_eq hp, textField_eq, Runtime.lines]
  cases r.secret <;> simp [String.join_cons, String.append_assoc, textField_eq]

theorem writeTier?_eq {t : BudgetTier} (h : ∀ n ∈ t.words, n < Nat.pow 2 63) :
    writeTier? t =
      some ("\n[[scheduler.tiers]]\n" ++ String.join (t.lines.map Line.text)) := by
  simp only [BudgetTier.words, List.forall_mem_cons] at h
  obtain ⟨hsize, hconcurrency, hwait, _⟩ := h
  simp [writeTier?, wordField?_eq hsize, wordField?_eq hconcurrency, wordField?_eq hwait,
    BudgetTier.lines, String.join_cons, String.append_assoc]

theorem mapM_eq_some {α β : Type} {f : α → Option β} {g : α → β} {xs : List α}
    (h : ∀ x ∈ xs, f x = some (g x)) : xs.mapM f = some (xs.map g) := by
  induction xs with
  | nil => rfl
  | cons x xs ih =>
    obtain ⟨hx, hxs⟩ := List.forall_mem_cons.mp h
    rw [List.mapM_cons, hx, ih hxs]
    rfl

theorem writeScheduler?_eq {s : Scheduler} (h : ∀ n ∈ s.words, n < Nat.pow 2 63)
    (htiers : ∀ t ∈ s.tiers, ∀ n ∈ t.words, n < Nat.pow 2 63) :
    writeScheduler? s = some ("\n[scheduler]\n" ++ String.join (s.lines.map Line.text) ++
      String.join (s.tiers.map fun t =>
        "\n[[scheduler.tiers]]\n" ++ String.join (t.lines.map Line.text))) := by
  simp only [Scheduler.words, List.forall_mem_cons] at h
  obtain ⟨h₁, h₂, h₃, h₄, h₅, h₆, h₇, h₈, h₉, _⟩ := h
  have hrows := mapM_eq_some fun t ht => writeTier?_eq (htiers t ht)
  simp only [writeScheduler?, wordField?_eq h₁, wordField?_eq h₂, wordField?_eq h₃,
    wordField?_eq h₄, wordField?_eq h₅, wordField?_eq h₆, wordField?_eq h₇, wordField?_eq h₈,
    wordField?_eq h₉, hrows, textField_eq, Scheduler.lines]
  split <;> simp [String.join_cons, String.append_assoc]
  rfl

theorem writeCache?_eq {c : Cache} (h : c.ttlSecs < Nat.pow 2 63) :
    writeCache? c = some ("\n[cache]\n" ++ String.join (c.lines.map Line.text)) := by
  simp [writeCache?, wordField?_eq h, Cache.lines, String.join_cons]

theorem writeView?_eq {v : View} (h : v.sortDebounce < Nat.pow 2 63) :
    writeView? v = some ("\n[view]\n" ++ String.join (v.lines.map Line.text)) := by
  simp [writeView?, wordField?_eq h, textField_eq, boolField_eq, View.lines, String.join_cons,
    String.append_assoc]

theorem writeObservability_eq (o : Observability) :
    writeObservability o = "\n[observability]\n" ++ String.join (o.lines.map Line.text) := by
  unfold writeObservability
  simp [textField_eq, boolField_eq, Observability.lines, String.join_cons, String.append_assoc]

theorem sound_runtime {r : Runtime} (ht : r.requestTimeout < Nat.pow 2 63)
    (hp : r.probeTimeout < Nat.pow 2 63) : Sound r.lines := by
  constructor
  · simp only [Runtime.lines, List.forall_mem_append, List.forall_mem_cons, List.forall_mem_map]
    exact ⟨⟨⟨.ofText (by decide) _, List.forall_mem_nil _⟩,
      fun secret _ => .ofText (by decide) secret⟩,
      .ofWord (by decide) ht, .ofText (by decide) _,
      .ofWord (by decide) hp, List.forall_mem_nil _⟩
  · rw [Runtime.lines]
    cases r.secret <;> simp [Line.ofText, Line.ofWord]

theorem sound_tier {t : BudgetTier} (h : ∀ n ∈ t.words, n < Nat.pow 2 63) : Sound t.lines := by
  simp only [BudgetTier.words, List.forall_mem_cons] at h
  obtain ⟨hsize, hconcurrency, hwait, _⟩ := h
  constructor
  · simp only [BudgetTier.lines, List.forall_mem_cons]
    exact ⟨.ofWord (by decide) hsize, .ofWord (by decide) hconcurrency,
      .ofWord (by decide) hwait, List.forall_mem_nil _⟩
  · simp [BudgetTier.lines, Line.ofWord]

theorem sound_scheduler {s : Scheduler} (h : ∀ n ∈ s.words, n < Nat.pow 2 63) :
    Sound s.lines := by
  simp only [Scheduler.words, List.forall_mem_cons] at h
  obtain ⟨h₁, h₂, h₃, h₄, h₅, h₆, h₇, h₈, h₉, _⟩ := h
  have hempty : ∀ l ∈ if s.tiers.isEmpty then [⟨"tiers", "[]", .list []⟩] else [],
      Line.Sound l := by
    split
    · exact List.forall_mem_singleton.mpr ⟨by decide, spells_empty⟩
    · exact List.forall_mem_nil _
  constructor
  · rw [Scheduler.lines, List.forall_mem_append]
    refine ⟨?_, hempty⟩
    simp only [List.forall_mem_cons]
    exact ⟨.ofWord (by decide) h₁, .ofWord (by decide) h₂,
      .ofWord (by decide) h₃, .ofWord (by decide) h₄,
      .ofWord (by decide) h₅, .ofWord (by decide) h₆,
      .ofText (by decide) _, .ofWord (by decide) h₇,
      .ofWord (by decide) h₈, .ofWord (by decide) h₉, List.forall_mem_nil _⟩
  · rw [Scheduler.lines]
    split <;> simp [Line.ofText, Line.ofWord]

theorem sound_cache {c : Cache} (h : c.ttlSecs < Nat.pow 2 63) : Sound c.lines := by
  constructor
  · exact List.forall_mem_singleton.mpr (.ofWord (by decide) h)
  · simp [Cache.lines]

theorem sound_view {v : View} (h : v.sortDebounce < Nat.pow 2 63) : Sound v.lines := by
  constructor
  · simp only [View.lines, List.forall_mem_cons]
    exact ⟨.ofText (by decide) _, .ofBool (by decide) _,
      .ofWord (by decide) h, .ofBool (by decide) _, List.forall_mem_nil _⟩
  · simp [View.lines, Line.ofText, Line.ofWord, Line.ofBool]

theorem sound_observability (o : Observability) : Sound o.lines := by
  constructor
  · simp only [Observability.lines, List.forall_mem_cons]
    exact ⟨.ofText (by decide) _, .ofBool (by decide) _,
      .ofText (by decide) _, List.forall_mem_nil _⟩
  · simp [Observability.lines, Line.ofText, Line.ofBool]

theorem word?_integer {bits n : Nat} (h : n < Nat.pow 2 bits) :
    word? bits (.integer n) = some n := by
  have hcast : (n : Int).toNat? = some n := Int.mem_toNat?.mpr rfl
  rw [word?, hcast, Option.bind_some, if_pos h]

theorem word64?_integer {n : Nat} (h : n < Nat.pow 2 63) : word64? (.integer n) = some n :=
  word?_integer (Nat.lt_trans h (by decide))

def document (lines : List Line) : Document :=
  .table (lines.map Line.member)

theorem decodeRuntime_lines {r : Runtime} (ht : r.requestTimeout < Nat.pow 2 63)
    (hp : r.probeTimeout < Nat.pow 2 63) : decodeRuntime .toml (document r.lines) = some r := by
  obtain ⟨url, secret, timeout, probeUrl, probeTimeout⟩ := r
  have hfields : fields? .toml
      ["controller_url", "secret", "request_timeout_ms", "probe_url", "probe_timeout_ms"]
      (document (Runtime.lines ⟨url, secret, timeout, probeUrl, probeTimeout⟩)) =
      some [some (.text url), secret.map .text, some (.integer timeout), some (.text probeUrl),
        some (.integer probeTimeout)] := by
    cases secret <;> rfl
  rw [decodeRuntime, hfields]
  cases secret <;>
    simp [orDefault, optional?, Document.string?, word64?_integer ht, word64?_integer hp]

theorem decodeTier_lines {t : BudgetTier} (h : ∀ n ∈ t.words, n < Nat.pow 2 63) :
    decodeTier .toml (document t.lines) = some t := by
  simp only [BudgetTier.words, List.forall_mem_cons] at h
  obtain ⟨hsize, hconcurrency, hwait, _⟩ := h
  have hfields : fields? .toml ["max_group_size", "concurrency", "max_wait_ms"]
      (document t.lines) = some [some (.integer t.maxGroupSize), some (.integer t.concurrency),
        some (.integer t.maxWait)] := rfl
  rw [decodeTier, hfields]
  simp [required, word64?_integer hsize, word64?_integer hconcurrency, word64?_integer hwait]

theorem decodeTiers_lines {tiers : List BudgetTier}
    (h : ∀ t ∈ tiers, ∀ n ∈ t.words, n < Nat.pow 2 63) :
    list? (decodeTier .toml) (.list (tiers.map fun t => document t.lines)) = some tiers := by
  have hread : tiers.mapM (fun t => decodeTier .toml (document t.lines)) = some (tiers.map id) :=
    mapM_eq_some fun t ht => decodeTier_lines (h t ht)
  rw [list?, List.mapM_map, Function.comp_def, hread, List.map_id]

def schedulerDocument (s : Scheduler) : Document :=
  .table (s.lines.map Line.member ++
    if s.tiers.isEmpty then [] else [("tiers", .list (s.tiers.map fun t => document t.lines))])

theorem decodeScheduler_lines {s : Scheduler} (h : ∀ n ∈ s.words, n < Nat.pow 2 63)
    (htiers : ∀ t ∈ s.tiers, ∀ n ∈ t.words, n < Nat.pow 2 63)
    (hpolls : s.maxPolls < Nat.pow 2 32) (hstable : s.stablePollsRequired < Nat.pow 2 32)
    (hattempts : s.prefetchAttempts < Nat.pow 2 32) :
    decodeScheduler .toml (schedulerDocument s) = some s := by
  have hrows := decodeTiers_lines htiers
  obtain ⟨inProgress, cleanup, interval, poll, polls, stable, strategy, reloads, attempts, base,
    tiers⟩ := s
  simp only [Scheduler.words, List.forall_mem_cons] at h
  obtain ⟨h₁, h₂, h₃, h₄, -, -, h₇, -, h₉, -⟩ := h
  have hfields : fields? .toml ["in_progress_timeout_secs", "cleanup_timeout_secs",
        "cleanup_interval_secs", "poll_interval_ms", "max_polls", "stable_polls_required",
        "strategy", "reload_concurrency", "prefetch_attempts", "prefetch_base_delay_ms", "tiers"]
      (schedulerDocument ⟨inProgress, cleanup, interval, poll, polls, stable, strategy, reloads,
        attempts, base, tiers⟩) =
      some [some (.integer inProgress), some (.integer cleanup), some (.integer interval),
        some (.integer poll), some (.integer polls), some (.integer stable),
        some (.text strategy.tag), some (.integer reloads), some (.integer attempts),
        some (.integer base), some (.list (tiers.map fun t => document t.lines))] := by
    cases tiers <;> rfl
  have hstrategy : (variant? .toml (.text strategy.tag)).bind ProbeStrategy.ofTag? =
      some strategy := by
    cases strategy <;> rfl
  rw [decodeScheduler, hfields]
  simp [orDefault, word64?_integer h₁, word64?_integer h₂, word64?_integer h₃, word64?_integer h₄,
    word64?_integer h₇, word64?_integer h₉, word32?, word?_integer hpolls, word?_integer hstable,
    word?_integer hattempts, hstrategy, hrows]

theorem decodeCache_lines {c : Cache} (h : c.ttlSecs < Nat.pow 2 63) :
    decodeCache .toml (document c.lines) = some c := by
  have hfields : fields? .toml ["ttl_secs"] (document c.lines) = some [some (.integer c.ttlSecs)] :=
    rfl
  rw [decodeCache, hfields]
  simp [orDefault, word64?_integer h]

theorem decodeView_lines {v : View} (h : v.sortDebounce < Nat.pow 2 63) :
    decodeView .toml (document v.lines) = some v := by
  have hfields : fields? .toml
      ["sort", "sort_by_delay", "sort_debounce_ms", "exclude_not_selectable"]
      (document v.lines) = some [some (.text v.sort.tag), some (.bool v.sortByDelay),
        some (.integer v.sortDebounce), some (.bool v.excludeNotSelectable)] := rfl
  have hsort : (variant? .toml (.text v.sort.tag)).bind SortMode.ofTag? = some v.sort := by
    cases v.sort <;> rfl
  rw [decodeView, hfields]
  simp [orDefault, bool?, hsort, word64?_integer h]

theorem decodeObservability_lines (o : Observability) :
    decodeObservability .toml (document o.lines) = some o := by
  have hfields : fields? .toml ["log_level", "metrics_enabled", "metrics_address"]
      (document o.lines) = some [some (.text o.logLevel), some (.bool o.metricsEnabled),
        some (.text o.metricsAddress)] := rfl
  rw [decodeObservability, hfields]
  rfl

def Scheduler.entries (s : Scheduler) : Entries :=
  Entries.withSeries (s.lines.map Line.entry) "tiers" (s.tiers.map fun t => t.lines.map Line.entry)

def tables (c : Config) : Entries :=
  [("runtime", .table false false (c.runtime.lines.map Line.entry)),
    ("scheduler", .table false false c.scheduler.entries),
    ("cache", .table false false (c.cache.lines.map Line.entry)),
    ("view", .table false false (c.view.lines.map Line.entry)),
    ("observability", .table false false (c.observability.lines.map Line.entry))]

theorem toDocument_lines (lines : List Line) :
    (Node.table false false (lines.map Line.entry)).toDocument = document lines := by
  rw [Node.toDocument, entriesToDocument_lines, document]

theorem toDocument_scheduler (s : Scheduler) :
    (Node.table false false s.entries).toDocument = schedulerDocument s := by
  rw [Node.toDocument, Scheduler.entries, schedulerDocument, Entries.withSeries]
  split
  · next hempty =>
    rw [List.isEmpty_map] at hempty
    rw [entriesToDocument_lines, if_pos hempty, List.append_nil]
  · next hempty =>
    rw [List.isEmpty_map] at hempty
    simp [entriesToDocument_append, entriesToDocument_lines, Node.entriesToDocument,
      Node.toDocument, seriesToDocument_eq, hempty, document]

section

variable {root : Entries}

theorem closes_section {lines : List Line} {name header : String} (h : Sound lines)
    (hname : IsBare name) (hnew : root.get? name = none)
    (hheader : "\n" ++ ("[" ++ name ++ "]\n") = header) :
    Closes root (header ++ String.join (lines.map Line.text))
      (root.withTable name (lines.map Line.entry)) := by
  have hsection := (closes_blank root).append (closes_table h hname hnew)
  rwa [← String.append_assoc, hheader] at hsection

theorem closes_scheduler {s : Scheduler} (h : ∀ n ∈ s.words, n < Nat.pow 2 63)
    (htiers : ∀ t ∈ s.tiers, ∀ n ∈ t.words, n < Nat.pow 2 63)
    (hnew : root.get? "scheduler" = none) :
    Closes root ("\n[scheduler]\n" ++ String.join (s.lines.map Line.text) ++
        String.join (s.tiers.map fun t =>
          "\n[[scheduler.tiers]]\n" ++ String.join (t.lines.map Line.text)))
      (root.withTable "scheduler" s.entries) := by
  have hname : IsBare "scheduler" := by decide
  refine (closes_section (sound_scheduler h) hname hnew (by decide)).append ?_
  cases hempty : s.tiers.isEmpty with
  | true =>
    rw [Scheduler.entries, List.isEmpty_iff.mp hempty]
    exact .refl _
  | false =>
    -- with rows to come the name of their series is not among the lines
    have hfields : Entries.get? (s.lines.map Line.entry) "tiers" = none := by
      rw [Scheduler.lines, hempty]
      rfl
    have hheader (t : String) : "\n[[scheduler.tiers]]\n" ++ t =
        "\n" ++ ("[[" ++ "scheduler" ++ "." ++ "tiers" ++ "]]\n" ++ t) := by
      rw [← String.append_assoc]
      exact congrArg (· ++ t) (by decide)
    simp only [hheader]
    exact closes_series hname (by decide) hnew hfields [] fun t ht => sound_tier (htiers t ht)

end

theorem closes_runtime {r : Runtime} (ht : r.requestTimeout < Nat.pow 2 63)
    (hp : r.probeTimeout < Nat.pow 2 63) :
    Closes [] ("[runtime]\n" ++ String.join (r.lines.map Line.text))
      (Entries.withTable [] "runtime" (r.lines.map Line.entry)) := by
  have hheader : "[" ++ "runtime" ++ "]\n" = "[runtime]\n" := by decide
  have hruntime := closes_table (sound_runtime ht hp) (by decide : IsBare "runtime")
    (rfl : Entries.get? [] "runtime" = none)
  rwa [hheader] at hruntime

theorem closes_toToml {c : Config} (hwords : ∀ n ∈ c.words, n < Nat.pow 2 63)
    (htiers : ∀ t ∈ c.scheduler.tiers, ∀ n ∈ t.words, n < Nat.pow 2 63) :
    ∃ text, c.toToml? = some text ∧ text.toList.head? = some '[' ∧ Closes [] text c.tables := by
  simp only [words, List.forall_mem_append, List.forall_mem_cons] at hwords
  obtain ⟨⟨⟨htimeout, hprobe, -⟩, hscheduler⟩, httl, hdebounce, -⟩ := hwords
  have hschedule := (closes_runtime htimeout hprobe).append (closes_scheduler hscheduler htiers rfl)
  have hcache {root : Entries} (hnew : root.get? "cache" = none) :
      Closes root ("\n[cache]\n" ++ String.join (c.cache.lines.map Line.text)) _ :=
    closes_section (sound_cache httl) (by decide) hnew (by decide)
  have hview {root : Entries} (hnew : root.get? "view" = none) :
      Closes root ("\n[view]\n" ++ String.join (c.view.lines.map Line.text)) _ :=
    closes_section (sound_view hdebounce) (by decide) hnew (by decide)
  have hobservability {root : Entries} (hnew : root.get? "observability" = none) :
      Closes root ("\n[observability]\n" ++ String.join (c.observability.lines.map Line.text)) _ :=
    closes_section (sound_observability _) (by decide) hnew (by decide)
  refine ⟨_, ?_, ?_,
    ((hschedule.append (hcache rfl)).append (hview rfl)).append (hobservability rfl)⟩
  · rw [toToml?, writeRuntime?_eq htimeout hprobe, writeScheduler?_eq hscheduler htiers,
      writeCache?_eq httl, writeView?_eq hdebounce, writeObservability_eq]
    rfl
  · simp [String.toList_append]

def counts (c : Config) : List Nat :=
  [c.scheduler.maxPolls, c.scheduler.stablePollsRequired, c.scheduler.prefetchAttempts]

theorem decode_tables {c : Config} (hwords : ∀ n ∈ c.words, n < Nat.pow 2 63)
    (htiers : ∀ t ∈ c.scheduler.tiers, ∀ n ∈ t.words, n < Nat.pow 2 63)
    (hcounts : ∀ n ∈ c.counts, n < Nat.pow 2 32) :
    decode .toml (.table (Node.entriesToDocument c.tables)) = some c := by
  simp only [words, List.forall_mem_append, List.forall_mem_cons] at hwords
  obtain ⟨⟨⟨htimeout, hprobe, -⟩, hscheduler⟩, httl, hdebounce, -⟩ := hwords
  simp only [counts, List.forall_mem_cons] at hcounts
  obtain ⟨hpolls, hstable, hattempts, -⟩ := hcounts
  have hfields : fields? .toml ["runtime", "scheduler", "cache", "view", "observability"]
      (.table (Node.entriesToDocument c.tables)) =
      some [some (document c.runtime.lines), some (schedulerDocument c.scheduler),
        some (document c.cache.lines), some (document c.view.lines),
        some (document c.observability.lines)] := by
    simp only [tables, Node.entriesToDocument, toDocument_lines, toDocument_scheduler]
    rfl
  rw [decode, hfields]
  simp [orDefault, decodeRuntime_lines htimeout hprobe,
    decodeScheduler_lines hscheduler htiers hpolls hstable hattempts, decodeCache_lines httl,
    decodeView_lines hdebounce, decodeObservability_lines]

def numbers (c : Config) : List Nat :=
  c.words ++ c.scheduler.tiers.flatMap BudgetTier.words

theorem forall_mem_numbers {c : Config} {P : Nat → Prop} : (∀ n ∈ c.numbers, P n) ↔
    (∀ n ∈ c.words, P n) ∧ ∀ t ∈ c.scheduler.tiers, ∀ n ∈ t.words, P n := by
  simp only [numbers, List.forall_mem_append, List.forall_mem_flatMap]

/-- Settings whose numbers are all below two to the 63 are written as a text that says them,
whatever their texts hold and whether or not they are sound. Any larger number keeps them from
being written. -/
theorem settings_survive_writing (c : Config) (hcounts : ∀ n ∈ c.counts, n < Nat.pow 2 32) :
    ((∀ n ∈ c.numbers, n < Nat.pow 2 63) →
      ∃ text, c.toToml? = some text ∧ ofToml? text = some c) ∧
    ((∃ n ∈ c.numbers, Nat.pow 2 63 ≤ n) → c.toToml? = none) := by
  constructor
  · intro h
    obtain ⟨hwords, htiers⟩ := forall_mem_numbers.mp h
    obtain ⟨text, hwrite, hfront, hcloses⟩ := closes_toToml hwords htiers
    refine ⟨text, hwrite, ?_⟩
    rw [ofToml?, hcloses.parse? (by simp [hfront]), Option.bind_some]
    exact decode_tables hwords htiers hcounts
  · rintro ⟨n, hn, hlarge⟩
    rw [← Option.not_isSome_iff_eq_none, toToml?_isSome, ← forall_mem_numbers]
    exact fun h => Nat.not_lt.mpr hlarge (h n hn)

def quoted : Config where
  runtime := { controllerUrl := "\ttab \"quote\"\nline\x7f", probeUrl := "'''\\" }
  scheduler := { tiers := [], strategy := .perProxy, maxPolls := 4294967295 }
  view := { sort := .delay }
  observability := { logLevel := "", metricsAddress := "it's \"so\"" }

theorem settings_survive_writing_quoted :
    (∀ n ∈ quoted.counts, n < Nat.pow 2 32) ∧ (∀ n ∈ quoted.numbers, n < Nat.pow 2 63) ∧
      (∃ text, quoted.toToml? = some text ∧ ofToml? text = some quoted) ∧
      (∃ n ∈ ({} : Config).numbers, Nat.pow 2 63 ≤ n) ∧ ({} : Config).toToml? = none := by
  have hcounts : ∀ n ∈ quoted.counts, n < Nat.pow 2 32 := by decide
  have hnumbers : ∀ n ∈ quoted.numbers, n < Nat.pow 2 63 := by decide
  have hdefault : ∃ n ∈ ({} : Config).numbers, Nat.pow 2 63 ≤ n := by decide
  exact ⟨hcounts, hnumbers, (settings_survive_writing quoted hcounts).1 hnumbers, hdefault,
    (settings_survive_writing {} (by decide)).2 hdefault⟩

end Config

end ProxyPulse
