import Mathlib.Data.List.Perm.Basic
import ProxyPulse.Engine.Task
import ProxyPulse.Permits

namespace ProxyPulse

namespace Query

def isCalling (q : Query) : Bool :=
  q.stage.isRight

def ticket? (q : Query) : Option Nat :=
  q.stage.getLeft?

end Query

namespace Permits

variable {p : Permits} {total ticket : Nat}

structure Balances (p : Permits) (total calls : Nat) (tickets : List Nat) : Prop where
  sum : p.free + p.granted.length + calls = total
  placed : tickets.Perm (p.queue ++ p.granted)
  distinct : tickets.Nodup
  issued : ∀ ticket ∈ tickets, ticket < p.nextTicket
  busy : p.queue ≠ [] → p.free = 0

section

variable {calls : Nat} {tickets : List Nat}

theorem Balances.perm {tickets' : List Nat} (h : p.Balances total calls tickets)
    (hp : tickets'.Perm tickets) : p.Balances total calls tickets' where
  sum := h.sum
  placed := hp.trans h.placed
  distinct := hp.nodup_iff.mpr h.distinct
  issued ticket ht := h.issued ticket (hp.mem_iff.mp ht)
  busy := h.busy

theorem Balances.acquire_none (h : p.Balances total calls tickets) (hn : p.acquire.2 = none) :
    p.acquire.1.Balances total (calls + 1) tickets := by
  unfold acquire at hn ⊢
  split at hn
  · cases hn
  · next hf =>
    rw [if_neg hf]
    have hsum := h.sum
    refine ⟨?_, h.placed, h.distinct, h.issued, fun hq => absurd (h.busy hq) hf⟩
    show p.free - 1 + p.granted.length + (calls + 1) = total
    omega

theorem Balances.acquire_some (h : p.Balances total calls tickets)
    (hs : p.acquire.2 = some ticket) : p.acquire.1.Balances total calls (ticket :: tickets) := by
  unfold acquire at hs ⊢
  split at hs
  · next hf =>
    cases hs
    rw [if_pos hf]
    refine ⟨h.sum, ?_, ?_, ?_, fun _ => hf⟩
    · show (p.nextTicket :: tickets).Perm (p.queue ++ [p.nextTicket] ++ p.granted)
      rw [List.append_assoc]
      exact (h.placed.cons _).trans List.perm_middle.symm
    · refine List.nodup_cons.mpr ⟨fun hm => ?_, h.distinct⟩
      exact absurd (h.issued _ hm) (Nat.lt_irrefl _)
    · intro t ht
      rcases List.mem_cons.mp ht with rfl | ht
      · exact Nat.lt_succ_self _
      · exact Nat.lt_succ_of_lt (h.issued t ht)
  · cases hs

theorem Balances.claim (h : p.Balances total calls (ticket :: tickets))
    (hg : ticket ∈ p.granted) : (p.claim ticket).Balances total (calls + 1) tickets := by
  have hd := h.placed.nodup_iff.mp h.distinct
  have hq : ticket ∉ p.queue := fun hq => (List.nodup_append.mp hd).2.2 ticket hq ticket hg rfl
  have hl := List.length_erase_of_mem hg
  have hpos := List.length_pos_of_mem hg
  have hsum := h.sum
  refine ⟨?_, ?_, (List.nodup_cons.mp h.distinct).2,
    fun t ht => h.issued t (List.mem_cons_of_mem _ ht), h.busy⟩
  · show p.free + (p.granted.erase ticket).length + (calls + 1) = total
    omega
  · have he := h.placed.erase ticket
    rw [List.erase_cons_head, List.erase_append_right _ hq] at he
    exact he

theorem Balances.release (h : p.Balances total (calls + 1) tickets) :
    p.release.Balances total calls tickets := by
  have hsum := h.sum
  unfold Permits.release
  split
  · next hq =>
    refine ⟨?_, h.placed, h.distinct, h.issued, fun hn => absurd hq hn⟩
    show p.free + 1 + p.granted.length + calls = total
    omega
  · next ticket rest hq =>
    have hbusy := h.busy (by simp [hq])
    refine ⟨?_, ?_, h.distinct, h.issued, fun _ => hbusy⟩
    · show p.free + (p.granted.length + 1) + calls = total
      omega
    · have ht := h.placed
      rw [hq] at ht
      exact ht.trans List.perm_middle.symm

theorem Balances.abandon (h : p.Balances total calls (ticket :: tickets)) :
    (p.abandon ticket).Balances total calls tickets := by
  unfold Permits.abandon
  split
  · next hg => exact (h.claim (List.contains_iff_mem.mp hg)).release
  · next hg =>
    have hm : ticket ∈ p.queue := by
      have hm := h.placed.mem_iff.mp List.mem_cons_self
      exact (List.mem_append.mp hm).resolve_right fun hm => hg (List.contains_iff_mem.mpr hm)
    refine ⟨h.sum, ?_, (List.nodup_cons.mp h.distinct).2,
      fun t ht => h.issued t (List.mem_cons_of_mem _ ht), fun hn => h.busy ?_⟩
    · have he := h.placed.erase ticket
      rw [List.erase_cons_head, List.erase_append_left _ hm] at he
      exact he
    · exact List.ne_nil_of_mem hm

end

/-- The permits are enough for these queries, and for no others. -/
def Serves (p : Permits) (total : Nat) (queries : List Query) : Prop :=
  p.Balances total (queries.countP Query.isCalling) (queries.filterMap Query.ticket?)

variable {queries rest : List Query} {q : Query} {call : Call}

theorem Serves.perm {queries' : List Query} (h : p.Serves total queries)
    (hp : queries'.Perm queries) : p.Serves total queries' := by
  rw [Serves, hp.countP_eq]
  exact Balances.perm h (hp.filterMap _)

theorem serves_calling (hq : q.stage = .inr call) :
    p.Serves total (q :: rest) ↔
      p.Balances total (rest.countP Query.isCalling + 1) (rest.filterMap Query.ticket?) := by
  simp [Serves, Query.isCalling, Query.ticket?, hq]

theorem serves_waiting (hq : q.stage = .inl ticket) :
    p.Serves total (q :: rest) ↔
      p.Balances total (rest.countP Query.isCalling) (ticket :: rest.filterMap Query.ticket?) := by
  simp [Serves, Query.isCalling, Query.ticket?, hq]

theorem new_serves (total : Nat) : Serves { free := total } total [] where
  sum := rfl
  placed := .refl _
  distinct := List.nodup_nil
  issued := nofun
  busy h := absurd rfl h

theorem Serves.outstanding_le (h : p.Serves total queries) :
    queries.countP Query.isCalling ≤ total := by
  have := h.sum
  omega

end Permits

end ProxyPulse
