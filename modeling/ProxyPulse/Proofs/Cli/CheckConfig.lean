import ProxyPulse.Cli.Program
import ProxyPulse.Proofs.Config.Writable

namespace ProxyPulse

theorem Config.loadBytes_words {bytes : List UInt8} {c : Config} (h : loadBytes bytes = .ok c) :
    (∀ n ∈ c.words, n < Nat.pow 2 63) ∧
      (c.scheduler.tiers = defaultTiers ∨
        ∀ t ∈ c.scheduler.tiers, ∀ n ∈ t.words, n < Nat.pow 2 63) := by
  unfold loadBytes at h
  split at h
  · cases h
  · next text _ =>
    unfold load at h
    split at h
    · cases h
    · next c' hc =>
      split at h
      · obtain rfl := Except.ok.inj h
        obtain ⟨d, hd, hc⟩ := Option.bind_eq_some_iff.mp hc
        exact decode_words (Toml.parse?_signed d hd) c' hc
      · cases h

theorem Config.toToml?_default_tiers {c : Config} (h : c.scheduler.tiers = defaultTiers) :
    c.toToml? = none := by
  rw [← Option.not_isSome_iff_eq_none, toToml?_isSome, h]
  rintro ⟨_, ht⟩
  have hlast := ht ⟨Nat.pow 2 64 - 1, 20, 20000⟩ (by decide) (Nat.pow 2 64 - 1) (by decide)
  exact absurd hlast (by decide)

namespace Cli

theorem loadFile_words {s : Surroundings} {path : String} {c : Config}
    (h : loadFile s path = .ok c) :
    (∀ n ∈ c.words, n < Nat.pow 2 63) ∧
      (c.scheduler.tiers = defaultTiers ∨
        ∀ t ∈ c.scheduler.tiers, ∀ n ∈ t.words, n < Nat.pow 2 63) := by
  unfold loadFile at h
  split at h
  · cases h
  · exact Config.loadBytes_words h

/-- A file that can be loaded is shown to be valid. The rest is shown as well, unless the file gives
no table of budgets; the last row of the one that stands in for it has a size that no document can
hold, and the check fails. -/
theorem default_tiers_cannot_be_shown {s : Surroundings} {args : List String} {o : Options}
    {path : String} {config : Config} (ha : ofArgs? args = some (o, .checkConfig))
    (hp : o.config = some path) (hl : loadFile s path = .ok config) :
    (config.scheduler.tiers = defaultTiers →
      program s args = fail .notWritable (path ++ " is valid\n") []) ∧
    (config.scheduler.tiers ≠ defaultTiers → ∃ text, config.toToml? = some text ∧
      program s args = { output := path ++ " is valid\n" ++ text ++ "\n" }) := by
  have hrun : program s args = checkConfig s (some path) := by
    rw [program, ha, ← hp]
  rw [hrun, checkConfig, hl]
  refine ⟨fun hd => ?_, fun hd => ?_⟩
  · dsimp only
    rw [Config.toToml?_default_tiers hd]
  · obtain ⟨hwords, htiers⟩ := loadFile_words hl
    have hsome : config.toToml?.isSome := Config.toToml?_isSome.mpr ⟨hwords, htiers.resolve_left hd⟩
    obtain ⟨text, ht⟩ := Option.isSome_iff_exists.mp hsome
    refine ⟨text, ht, ?_⟩
    dsimp only
    rw [ht]

def holding (text : String) : Surroundings where
  file _ := some text.toUTF8.data.toList
  travel _ := .silence
  signal _ := none

def checking : List String :=
  ["--config", "config.toml", "check-config"]

theorem valid_file_fails_the_check :
    (loadFile (holding "") "config.toml").toOption = some {} ∧
      (program (holding "") checking).ending.code? = some 1 ∧
      (program (holding "") checking).output = "config.toml is valid\n" := by
  decide +kernel

def oneTier : String :=
  "[[scheduler.tiers]]\nmax_group_size = 9\nconcurrency = 2\nmax_wait_ms = 50\n"

theorem default_tiers_cannot_be_shown_given :
    (program (holding oneTier) checking).ending.code? = some 0 := by
  have ha : ofArgs? checking = some ({ config := "config.toml" }, .checkConfig) := by
    decide +kernel
  have ht : (loadFile (holding oneTier) "config.toml").toOption.map (·.scheduler.tiers) =
      some [⟨9, 2, 50⟩] := by
    decide +kernel
  cases hl : loadFile (holding oneTier) "config.toml" with
  | error e =>
    rw [hl] at ht
    cases ht
  | ok config =>
    rw [hl] at ht
    have hgiven : config.scheduler.tiers = [⟨9, 2, 50⟩] := Option.some.inj ht
    have hne : config.scheduler.tiers ≠ defaultTiers := by
      rw [hgiven]
      decide
    obtain ⟨text, _, hrun⟩ := (default_tiers_cannot_be_shown ha rfl hl).2 hne
    rw [hrun]
    rfl

end Cli

end ProxyPulse
