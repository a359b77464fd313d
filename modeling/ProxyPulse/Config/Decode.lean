import ProxyPulse.Config
import ProxyPulse.Document

namespace ProxyPulse

open Document

def SortMode.ofTag? : String → Option SortMode
  | "default" => some .listed
  | "title" => some .title
  | "delay" => some .delay
  | _ => none

def SortMode.tag : SortMode → String
  | .listed => "default"
  | .title => "title"
  | .delay => "delay"

def ProbeStrategy.ofTag? : String → Option ProbeStrategy
  | "group" => some .group
  | "per_proxy" => some .perProxy
  | _ => none

def ProbeStrategy.tag : ProbeStrategy → String
  | .group => "group"
  | .perProxy => "per_proxy"

namespace Config

def word64? : Document → Option Nat :=
  word? 64

def word32? : Document → Option Nat :=
  word? 32

def decodeRuntime (dialect : Dialect) (d : Document) : Option Runtime := do
  let defaults : Runtime := {}
  let fields ← fields? dialect
    ["controller_url", "secret", "request_timeout_ms", "probe_url", "probe_timeout_ms"] d
  match fields with
  | [url, secret, timeout, probeUrl, probeTimeout] =>
    return {
      controllerUrl := ← orDefault string? defaults.controllerUrl url
      secret := ← orDefault (optional? string?) defaults.secret secret
      requestTimeout := ← orDefault word64? defaults.requestTimeout timeout
      probeUrl := ← orDefault string? defaults.probeUrl probeUrl
      probeTimeout := ← orDefault word64? defaults.probeTimeout probeTimeout }
  | _ => none

def decodeTier (dialect : Dialect) (d : Document) : Option BudgetTier := do
  let fields ← fields? dialect ["max_group_size", "concurrency", "max_wait_ms"] d
  match fields with
  | [size, concurrency, wait] =>
    return ⟨← required word64? size, ← required word64? concurrency, ← required word64? wait⟩
  | _ => none

def decodeScheduler (dialect : Dialect) (d : Document) : Option Scheduler := do
  let defaults : Scheduler := {}
  let fields ← fields? dialect
    ["in_progress_timeout_secs", "cleanup_timeout_secs", "cleanup_interval_secs",
      "poll_interval_ms", "max_polls", "stable_polls_required", "strategy", "reload_concurrency",
      "prefetch_attempts", "prefetch_base_delay_ms", "tiers"] d
  match fields with
  | [inProgress, cleanup, interval, poll, polls, stable, strategy, reloads, attempts, base,
      tiers] =>
    return {
      inProgressTimeoutSecs := ← orDefault word64? defaults.inProgressTimeoutSecs inProgress
      cleanupTimeoutSecs := ← orDefault word64? defaults.cleanupTimeoutSecs cleanup
      cleanupIntervalSecs := ← orDefault word64? defaults.cleanupIntervalSecs interval
      pollIntervalMs := ← orDefault word64? defaults.pollIntervalMs poll
      maxPolls := ← orDefault word32? defaults.maxPolls polls
      stablePollsRequired := ← orDefault word32? defaults.stablePollsRequired stable
      strategy := ← orDefault (fun d => (variant? dialect d).bind ProbeStrategy.ofTag?)
        defaults.strategy strategy
      reloadConcurrency := ← orDefault word64? defaults.reloadConcurrency reloads
      prefetchAttempts := ← orDefault word32? defaults.prefetchAttempts attempts
      prefetchBaseDelay := ← orDefault word64? defaults.prefetchBaseDelay base
      tiers := ← orDefault (list? (decodeTier dialect)) defaults.tiers tiers }
  | _ => none

def decodeCache (dialect : Dialect) (d : Document) : Option Cache := do
  let defaults : Cache := {}
  match ← fields? dialect ["ttl_secs"] d with
  | [ttl] => return ⟨← orDefault word64? defaults.ttlSecs ttl⟩
  | _ => none

def decodeView (dialect : Dialect) (d : Document) : Option View := do
  let defaults : View := {}
  let fields ← fields? dialect
    ["sort", "sort_by_delay", "sort_debounce_ms", "exclude_not_selectable"] d
  match fields with
  | [sort, byDelay, debounce, exclude] =>
    return {
      sort := ← orDefault (fun d => (variant? dialect d).bind SortMode.ofTag?) defaults.sort sort
      sortByDelay := ← orDefault bool? defaults.sortByDelay byDelay
      sortDebounce := ← orDefault word64? defaults.sortDebounce debounce
      excludeNotSelectable := ← orDefault bool? defaults.excludeNotSelectable exclude }
  | _ => none

def decodeObservability (dialect : Dialect) (d : Document) : Option Observability := do
  let defaults : Observability := {}
  match ← fields? dialect ["log_level", "metrics_enabled", "metrics_address"] d with
  | [level, enabled, address] =>
    return {
      logLevel := ← orDefault string? defaults.logLevel level
      metricsEnabled := ← orDefault bool? defaults.metricsEnabled enabled
      metricsAddress := ← orDefault string? defaults.metricsAddress address }
  | _ => none

def decode (dialect : Dialect) (d : Document) : Option Config := do
  match ← fields? dialect ["runtime", "scheduler", "cache", "view", "observability"] d with
  | [runtime, scheduler, cache, view, observability] =>
    return {
      runtime := ← orDefault (decodeRuntime dialect) {} runtime
      scheduler := ← orDefault (decodeScheduler dialect) {} scheduler
      cache := ← orDefault (decodeCache dialect) {} cache
      view := ← orDefault (decodeView dialect) {} view
      observability := ← orDefault (decodeObservability dialect) {} observability }
  | _ => none

def ofJson? (v : Json) : Option Config :=
  (Document.ofJson? v).bind (decode .json)

end Config

end ProxyPulse
