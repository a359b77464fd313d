import ProxyPulse.Proofs.Board.Announcements
import ProxyPulse.Proofs.Proxy

namespace ProxyPulse.Board

variable {b b' : Board}

def Awaits (b : Board) (index : Nat) : Prop :=
  index ∈ b.requests ∨ ∃ r, b.resorting = some r ∧ index ∈ r.indices

def Ordered (b : Board) : Prop :=
  b.sortsByDelay = true → ∀ (i : Nat) (x : Record), b.records[i]? = some x →
    InDelayOrder x.group.members ∨ b.Awaits i

structure SameWaiting (b b' : Board) : Prop where
  requests : b'.requests = b.requests
  resorting : b'.resorting = b.resorting

theorem SameWaiting.awaits (h : SameWaiting b b') (i : Nat) : b'.Awaits i ↔ b.Awaits i := by
  rw [Awaits, Awaits, h.requests, h.resorting]

theorem Ordered.put (h : b.Ordered) (cause : PublishCause) {r : Record}
    (hr : b.sortsByDelay = true → InDelayOrder r.group.members ∨ b.Awaits r.index) :
    (b.put cause r).Ordered := by
  intro hs i x hx
  rw [records_put] at hx
  split at hx
  · next hi =>
    rw [hi, ← Option.some.inj hx]
    exact hr hs
  · exact h hs i x hx

theorem Ordered.modify (h : b.Ordered) (index : Nat) (cause : PublishCause)
    {change : Record → Option Record}
    (hc : ∀ r next, change r = some next → next.group.members = r.group.members) :
    (b.modify index cause change).1.Ordered := by
  rcases modify_cases b index cause change with he | ⟨r, next, hr, hnext, he⟩ <;> rw [he]
  · exact h
  · apply h.put
    intro hs
    show InDelayOrder next.group.members ∨ _
    rw [hc r next hnext]
    exact h hs index r hr

theorem Ordered.publish (h : b.Ordered) (index : Nat) (g : Group) :
    (b.publish index g).1.Ordered := by
  rcases publish_cases b index g with he | he <;> rw [he]
  · exact h
  · apply h.put
    intro hs
    left
    show InDelayOrder (b.arrange g).members
    rw [arrange, if_pos hs]
    exact sortProxies_inDelayOrder g.members

theorem Ordered.setTesting (h : b.Ordered) (index : Nat) (testing : Bool) :
    (b.setTesting index testing).1.Ordered := by
  apply h.modify
  intro r next hc
  split at hc
  · cases hc
  · cases hc; rfl

theorem Ordered.setSelection (h : b.Ordered) (index : Nat) (now : String) :
    (b.setSelection index now).1.Ordered := by
  apply h.modify
  intro r next hc
  split at hc
  · cases hc
  · cases hc; rfl

theorem Ordered.remove (h : b.Ordered) (index : Nat) : (b.remove index).1.Ordered := by
  intro hs i x hx
  have hx := remove_records hx
  by_cases hi : index ∈ b.records
  · rw [Board.remove, if_pos hi] at hs ⊢
    exact h hs i x hx
  · rw [Board.remove, if_neg hi] at hs ⊢
    exact h hs i x hx

theorem reset_ordered (b : Board) : b.reset.Ordered := by
  intro _ i x hx
  simp [Board.reset, emit] at hx

theorem requestResort_sortsByDelay (b : Board) (index : Nat) :
    (b.requestResort index).sortsByDelay = b.sortsByDelay := by
  unfold requestResort
  split <;> rfl

theorem Awaits.requestResort {i : Nat} (h : b.Awaits i) (index : Nat) :
    (b.requestResort index).Awaits i := by
  unfold Board.requestResort
  split
  · exact h.imp_left (List.mem_append_left _)
  · exact h

theorem requestResort_awaits (hs : b.sortsByDelay = true) (index : Nat) :
    (b.requestResort index).Awaits index := by
  rw [Board.requestResort, if_pos hs]
  exact .inl (List.mem_append_right _ List.mem_cons_self)

theorem requestResorts_eq (hs : b.sortsByDelay = true) (indices : List Nat) :
    indices.foldl requestResort b = { b with requests := b.requests ++ indices } := by
  induction indices generalizing b with
  | nil => simp
  | cons i rest ih =>
    have hi : b.requestResort i = { b with requests := b.requests ++ [i] } := if_pos hs
    rw [List.foldl_cons, ih ((requestResort_sortsByDelay b i).trans hs), hi, List.append_assoc]
    rfl

theorem Ordered.modifyDelays (h : b.Ordered) (index : Nat) (change : Record → Option Record) :
    (b.modifyDelays index change).1.Ordered := by
  rcases modify_cases b index .delay change with he | ⟨r, next, _, _, he⟩
  · have hb : (b.modifyDelays index change).1 = b := by simp [Board.modifyDelays, he]
    rw [hb]
    exact h
  · have hb : (b.modifyDelays index change).1 =
        (b.put .delay { next with index := index }).requestResort index := by
      simp [Board.modifyDelays, he]
    intro hs i x hx
    rw [hb, requestResort_sortsByDelay] at hs
    rw [hb, (requestResort_same _ _).records, records_put] at hx
    rw [hb]
    split at hx
    · next hi =>
      rw [hi]
      exact .inr (requestResort_awaits hs index)
    · exact (h hs i x hx).imp_right fun hw =>
        Awaits.requestResort (b := b.put .delay { next with index := index }) hw index

theorem setSortByDelay_ordered (b : Board) (on : Bool) : (b.setSortByDelay on).Ordered := by
  cases on with
  | false =>
    intro hs
    cases hs
  | true =>
    intro _ i x hx
    rw [setSortByDelay, if_pos rfl, requestResorts_eq rfl] at hx ⊢
    have hi : i ∈ b.records := by
      rw [Std.ExtTreeMap.mem_iff_isSome_getElem?, show b.records[i]? = some x from hx]
      rfl
    exact .inr (.inl (List.mem_append_right _ (Std.ExtTreeMap.mem_keys.mpr hi)))

theorem Ordered.configure (h : b.Ordered) (next : Config) : (b.configure next).Ordered := by
  unfold Board.configure
  dsimp only
  split
  · exact setSortByDelay_ordered _ _
  · next hsame =>
    have hsame : next.view.sortByDelay = b.sortsByDelay := by simpa using hsame
    intro hs i x hx
    exact h (hsame ▸ hs) i x hx

theorem takeRequests_awaits (b : Board) (now i : Nat) :
    (b.takeRequests now).Awaits i ↔ b.Awaits i := by
  unfold takeRequests
  split
  · rfl
  · cases hr : b.resorting with
    | none => simp [Awaits, hr, Std.ExtTreeSet.mem_insertMany_list]
    | some r => simp [Awaits, hr, Std.ExtTreeSet.mem_insertMany_list, or_comm]

theorem Ordered.takeRequests (h : b.Ordered) (now : Nat) : (b.takeRequests now).Ordered := by
  have hsame := takeRequests_same b now
  have hsorts : (b.takeRequests now).sortsByDelay = b.sortsByDelay := by
    unfold Board.takeRequests
    split <;> rfl
  intro hs i x hx
  rw [takeRequests_awaits]
  exact h (hsorts ▸ hs) i x (hsame.records ▸ hx)

theorem resortRecord_inOrder {index : Nat} {x : Record}
    (h : (b.resortRecord index).records[index]? = some x) : InDelayOrder x.group.members := by
  cases hr : b.records[index]? with
  | none => simp [resortRecord, Board.modify, hr] at h
  | some r =>
    by_cases hm : sortProxies .delay r.group.members = r.group.members
    · have hx : r = x := by simpa [resortRecord, Board.modify, hr, hm] using h
      rw [← hx, ← hm]
      exact sortProxies_inDelayOrder _
    · simp only [resortRecord, Board.modify, hr, Option.bind_some, if_neg hm, records_put,
        if_true] at h
      rw [← Option.some.inj h]
      exact sortProxies_inDelayOrder _

theorem resortRecords_waiting (indices : List Nat) (b : Board) :
    SameWaiting b (indices.foldl resortRecord b) := by
  refine List.foldlRecOn indices resortRecord ⟨rfl, rfl⟩ fun b' h i _ => ?_
  unfold resortRecord
  rcases modify_cases b' i .resort _ with he | ⟨r, next, _, _, he⟩ <;> rw [he]
  · exact h
  · exact ⟨h.requests, h.resorting⟩

theorem resortRecords_inOrder {indices : List Nat} {i : Nat} {x : Record}
    (h : (indices.foldl resortRecord b).records[i]? = some x) :
    InDelayOrder x.group.members ∨ i ∉ indices ∧ b.records[i]? = some x := by
  induction indices generalizing b with
  | nil => exact .inr ⟨List.not_mem_nil, h⟩
  | cons j rest ih =>
    rcases ih h with ho | ⟨hrest, hx⟩
    · exact .inl ho
    · by_cases hj : i = j
      · exact .inl (resortRecord_inOrder (hj ▸ hx))
      · rw [resortRecord, modify_records_of_ne b hj] at hx
        exact .inr ⟨by simp [hj, hrest], hx⟩

theorem Ordered.serveResorting (h : b.Ordered) (now : Nat) : (b.serveResorting now).Ordered := by
  unfold Board.serveResorting
  cases hr : b.resorting with
  | none => exact h
  | some r =>
    dsimp only
    split
    · unfold resort
      split
      · next hs =>
        have hsame := resortRecords_waiting r.indices.toList
          ({ b with resorting := none, resorts := b.resorts + 1 }.measure .resorted)
        intro _ i x hx
        rw [hsame.awaits]
        -- what was taken up is in order now, and what was asked for since then still waits
        rcases resortRecords_inOrder hx with ho | ⟨hi, hx⟩
        · exact .inl ho
        · rcases h hs i x hx with ho | hw | ⟨_, hr', hw⟩
          · exact .inl ho
          · exact .inr (.inl hw)
          · cases hr.symm.trans hr'
            exact absurd (Std.ExtTreeSet.mem_toList.mpr hw) hi
      · next hs =>
        intro hon
        exact absurd hon hs
    · exact h

theorem Ordered.perform (h : b.Ordered) (a : Act) : (b.perform a).Ordered := by
  cases a with
  | publish index g => exact h.publish index g
  | updateDelay index name delay => exact h.modifyDelays index _
  | updateDelays index delays => exact h.modifyDelays index _
  | setTesting index testing => exact h.setTesting index testing
  | setSelection index now => exact h.setSelection index now
  | remove index => exact h.remove index
  | reset => exact reset_ordered b
  | sortByDelay on => exact setSortByDelay_ordered b on
  | configure next => exact h.configure next
  | takeRequests now => exact h.takeRequests now
  | serveResorting now => exact h.serveResorting now

theorem new_ordered (config : Config) : Ordered { config } := by
  intro _ i x hx
  simp at hx

end ProxyPulse.Board
