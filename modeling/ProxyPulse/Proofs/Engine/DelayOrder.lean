import ProxyPulse.Proofs.Board.DelayOrder
import ProxyPulse.Proofs.Engine.Results
import ProxyPulse.Proofs.Registry.Operation

namespace ProxyPulse

theorem Registry.performs_ordered (config : Config) (ops : List Registry.Operation) :
    (ops.foldl Registry.perform { board := { config } }).board.Ordered :=
  performs_keep (Q := fun _ => True) (R := fun _ => True) (fun _ a _ h => h.perform a)
    (fun _ _ _ _ _ _ => trivial) (fun _ _ => trivial) (Board.new_ordered config)

namespace Engine

variable {σ : Type} {C : Core σ} {e : Engine σ}

theorem Reachable.ordered (h : Reachable C e) : e.board.Ordered := by
  obtain ⟨config, ops, hr⟩ := h.registry.operations
  rw [board, hr]
  exact Registry.performs_ordered config ops

/-- While delay order is on, whatever came before, a record that is not in order is one that waits
to be re-sorted; and where nothing waits, every record is in order. -/
theorem disorder_awaits_resort (C : Core σ) {b : Board}
    (hb : (∃ e, Reachable C e ∧ e.board = b) ∨
      ∃ config ops, (List.foldl Registry.perform { board := { config } } ops).board = b)
    (hs : b.sortsByDelay = true) :
    (∀ (i : Nat) (x : Record), b.records[i]? = some x → ¬ InDelayOrder x.group.members →
      i ∈ b.requests ∨ ∃ r, b.resorting = some r ∧ i ∈ r.indices) ∧
    (b.requests = [] → b.resorting = none → ∀ (i : Nat) (x : Record), b.records[i]? = some x →
      InDelayOrder x.group.members) := by
  have ho : b.Ordered := by
    rcases hb with ⟨e, he, rfl⟩ | ⟨config, ops, rfl⟩
    · exact he.ordered
    · exact Registry.performs_ordered config ops
  constructor
  · intro i x hx hn
    exact (ho hs i x hx).resolve_left hn
  · intro hr hw i x hx
    rcases ho hs i x hx with h | h | ⟨r, h, _⟩
    · exact h
    · rw [hr] at h
      cases h
    · cases hw.symm.trans h

def slowed : List Registry.Operation :=
  [.replace ["auto"],
    .write (.publish 0 ⟨"auto", [⟨"p", .terminal, "", 5⟩, ⟨"q", .terminal, "", 9⟩], true, none⟩),
    .act (.sortByDelay true), .write (.updateDelay 0 "auto" "p" 20)]

theorem disorder_awaits_resort_slowed :
    let b := (slowed.foldl Registry.perform { board := {} }).board
    (∃ x, b.records[0]? = some x ∧ ¬ InDelayOrder x.group.members) ∧ 0 ∈ b.requests := by
  intro b
  have hx : ∃ x, b.records[0]? = some x ∧ ¬ InDelayOrder x.group.members := by
    refine ⟨⟨0, ⟨"auto", [⟨"p", .terminal, "", 20⟩, ⟨"q", .terminal, "", 9⟩], true, none⟩,
      linksFor [⟨"p", .terminal, "", 20⟩, ⟨"q", .terminal, "", 9⟩], false, 3⟩, by decide, by decide⟩
  refine ⟨hx, ?_⟩
  obtain ⟨x, hx, hn⟩ := hx
  obtain ⟨hwaits, _⟩ := disorder_awaits_resort (Core.single 0 : Core Unit) (.inr ⟨{}, slowed, rfl⟩)
    (by decide : b.sortsByDelay = true)
  rcases hwaits 0 x hx hn with h | ⟨r, hr, _⟩
  · exact h
  · have hnone : b.resorting = none := by decide
    cases hnone.symm.trans hr

end Engine

end ProxyPulse
