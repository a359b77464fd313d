import ProxyPulse.Proofs.Engine.Action

namespace ProxyPulse

def Core.single {σ : Type} (latency : Nat) : Core σ where
  start _ _ s := (s, some latency)
  names _ s := (s, some (.ok ["auto"]))
  report group _ s := (s, some (.ok ⟨group, .selector, "", [⟨"direct", .terminal, "", 0⟩]⟩))
  trigger _ s := (s, some (.ok ()))
  choose _ _ s := (s, some (.ok true))
  probe _ s := (s, some (.ok 5))
  mode s := (s, some (.ok none))
  setMode _ s := (s, some (.ok ()))
  draw s := (s, 0)

def Core.pair : Core Unit :=
  { Core.single 100 with
    report := fun group _ s => (s, some (.ok ⟨group, .selector, "",
      [⟨"direct", .terminal, "", 0⟩, ⟨"proxy", .terminal, "", 0⟩]⟩)) }

namespace Engine

variable {σ : Type} {C : Core σ} {e e' e'' : Engine σ}

def Reaches (C : Core σ) (e e' : Engine σ) : Prop :=
  ∃ calls, Run C e calls e'

theorem Run.trans {calls calls' : List (TestCall σ)} (h : Run C e calls e')
    (h' : Run C e' calls' e'') : Run C e (calls ++ calls') e'' := by
  induction h' with
  | refl => simpa using h
  | step _ ha ih =>
    rw [← List.append_assoc]
    exact ih.step ha

theorem Reaches.refl (C : Core σ) (e : Engine σ) : Reaches C e e :=
  ⟨[], .refl⟩

theorem Reaches.trans (h : Reaches C e e') (h' : Reaches C e' e'') : Reaches C e e'' := by
  obtain ⟨calls, hr⟩ := h
  obtain ⟨calls', hr'⟩ := h'
  exact ⟨calls ++ calls', hr.trans hr'⟩

theorem reaches_perform (C : Core σ) {a : Action σ} (ha : e.Allows a) :
    Reaches C e (e.perform C a) :=
  ⟨_, Run.refl.step ha⟩

theorem Reachable.reaches (h : Reachable C e) (h' : Reaches C e e') : Reachable C e' := by
  obtain ⟨core, config, overrides, calls, hr⟩ := h
  obtain ⟨calls', hr'⟩ := h'
  exact ⟨core, config, overrides, calls ++ calls', hr.trans hr'⟩

theorem new_reachable (C : Core σ) (core : σ) (config : Config) (overrides : Overrides) :
    Reachable C (Engine.new core config overrides) :=
  ⟨core, config, overrides, [], .refl⟩

/-- A run of actions of one kind only. -/
inductive RunOf (C : Core σ) (P : Action σ → Prop) (e : Engine σ) : Engine σ → Prop
  | refl : RunOf C P e e
  | step {e' : Engine σ} {a : Action σ} : RunOf C P e e' → e'.Allows a → P a →
    RunOf C P e (e'.perform C a)

theorem RunOf.reaches {P : Action σ → Prop} (h : RunOf C P e e') : Reaches C e e' := by
  induction h with
  | refl => exact .refl C e
  | step _ ha _ ih => exact ih.trans (reaches_perform C ha)

theorem turn_keeps (C : Core σ) {Q : Engine σ → Prop}
    (hQ : ∀ e t, t ∈ e.tasks → Q e → Q (resume C e t)) (id fuel : Nat) (hq : Q e) :
    Q (turn C id fuel e) := by
  induction fuel generalizing e with
  | zero => exact hq
  | succ fuel ih =>
    unfold turn
    split
    · exact hq
    · next t ht => exact ih (hQ e t (List.mem_of_find?_eq_some ht) hq)

theorem RunOf.turn {P : Action σ → Prop} (h : RunOf C P e e') (hP : ∀ t, P (.resume t))
    (id fuel : Nat) : RunOf C P e (turn C id fuel e') :=
  turn_keeps C (fun _ t ht h => h.step (a := .resume t) ht (hP t)) id fuel h

theorem turn_reaches (C : Core σ) (id fuel : Nat) (e : Engine σ) :
    Reaches C e (turn C id fuel e) :=
  turn_keeps C (fun _ _ ht h => h.trans (reaches_perform C (a := .resume _) ht)) id fuel
    (.refl C e)

theorem stepBoard_reaches (C : Core σ) (e : Engine σ) : Reaches C e e.stepBoard := by
  have ht : Reaches C e (e.perform C .takeResorts) := reaches_perform C trivial
  have hs : Reaches C _ ((e.perform C .takeResorts).perform C .serveResorts) :=
    reaches_perform C trivial
  exact ht.trans hs

theorem turns_reaches (C : Core σ) (fuel : Nat) (ids : List Nat) (e : Engine σ) :
    Reaches C e (ids.foldl (fun e id => turn C id fuel e) e) := by
  induction ids generalizing e with
  | nil => exact .refl C e
  | cons id rest ih => exact (turn_reaches C id fuel e).trans (ih _)

theorem settleAround_reaches (C : Core σ) (aside : Option Nat) (fuel : Nat) (e : Engine σ) :
    Reaches C e (settleAround C aside fuel e) := by
  induction fuel generalizing e with
  | zero => exact .refl C e
  | succ fuel ih =>
    unfold settleAround
    split
    · have hround : Reaches C e (round C aside fuel e) :=
        (stepBoard_reaches C e).trans (turns_reaches C fuel _ _)
      exact hround.trans (ih _)
    · exact .refl C e

theorem nextMoment_le {time : Nat} (h : e.nextMoment? = some time) : e.now ≤ time := by
  have hm := List.min?_mem h
  simp only [List.mem_filter, decide_eq_true_eq] at hm
  omega

theorem wait_reaches (C : Core σ) {time : Nat} (h : e.now ≤ time) :
    Reaches C e { e with now := time } :=
  reaches_perform C (a := .wait time) h

theorem runFor_reaches (C : Core σ) (id fuel : Nat) (e : Engine σ) :
    Reaches C e (runFor C id fuel e) := by
  induction fuel generalizing e with
  | zero => exact .refl C e
  | succ fuel ih =>
    have ht := turn_reaches C id fuel e
    have hs := ht.trans (settleAround_reaches C (some id) fuel _)
    unfold runFor
    dsimp only
    split
    · exact ht
    · split
      · exact hs.trans (ih _)
      · split
        · next next hn => exact (hs.trans (wait_reaches C (nextMoment_le hn))).trans (ih _)
        · exact hs

theorem await_reaches (C : Core σ) (e : Engine σ) (r : Request) :
    Reaches C e (e.await C r).1 := by
  have hr : Reaches C e (e.request r).1 := reaches_perform C (a := .request r) trivial
  exact hr.trans (runFor_reaches C _ _ _)

def refreshed (C : Core σ) (core : σ) (config : Config) : Engine σ :=
  (await C (Engine.new core config {}) .refresh).1

theorem refreshed_reachable (C : Core σ) (core : σ) (config : Config) :
    Reachable C (refreshed C core config) :=
  (new_reachable C core config {}).reaches (await_reaches C _ .refresh)

def tested (C : Core σ) (core : σ) (config : Config) : Engine σ :=
  ((refreshed C core config).requestTest 0).1

theorem tested_reachable (C : Core σ) (core : σ) (config : Config) :
    Reachable C (tested C core config) :=
  (refreshed_reachable C core config).reaches (reaches_perform C (a := .test 0) trivial)

def halted (C : Core σ) (e : Engine σ) : Engine σ :=
  ((settle C 9 e).stopTest 0).1

theorem halted_reaches (C : Core σ) (e : Engine σ) : Reaches C e (halted C e) :=
  (settleAround_reaches C none 9 e).trans (reaches_perform C (a := .stop 0) trivial)

def single (latency : Nat) (strategy : ProbeStrategy) : Engine Unit :=
  tested (Core.single latency) () { scheduler := { strategy } }

theorem single_reachable (latency : Nat) (strategy : ProbeStrategy) :
    Reachable (Core.single latency) (single latency strategy) :=
  tested_reachable _ _ _

def pairConfig (tier : BudgetTier) : Config :=
  { scheduler := { strategy := .perProxy, tiers := [tier] } }

def openedPair (tier : BudgetTier) : Engine Unit :=
  tested Core.pair () (pairConfig tier)

theorem openedPair_reachable (tier : BudgetTier) : Reachable Core.pair (openedPair tier) :=
  tested_reachable _ _ _

end Engine

end ProxyPulse
