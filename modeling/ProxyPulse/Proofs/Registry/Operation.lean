import ProxyPulse.Proofs.Board.Announcements
import ProxyPulse.Proofs.Registry

namespace ProxyPulse.Registry

inductive Operation where
  | act (a : Board.Act)
  | write (w : Write)
  | replace (names : List String)

def perform (r : Registry) : Operation → Registry
  | .act a => { r with board := r.board.perform a }
  | .write w => (w.apply r).1
  | .replace names => (r.replace names).1

def Write.toAct : Write → Board.Act
  | .publish index g => .publish index g
  | .setSelection index _ now => .setSelection index now
  | .updateDelay index _ proxy delay => .updateDelay index proxy delay
  | .updateDelays index _ delays => .updateDelays index delays
  | .setTesting index _ testing => .setTesting index testing

def publications : Nat → List Group → List Board.Act
  | _, [] => []
  | index, g :: rest => .publish index g :: publications (index + 1) rest

def acts (r : Registry) : Operation → List Board.Act
  | .act a => [a]
  | .write w => if r.holds w.index w.name then [w.toAct] else []
  | .replace names =>
    if r.names = names then [] else .reset :: publications 0 (takeOver r.shown names)

variable {r r' : Registry}

theorem Write.act_eq (b : Board) (w : Write) : (w.act b).1 = b.perform w.toAct := by
  cases w <;> rfl

theorem publishAll_eq (groups : List Group) (b : Board) (start : Nat) :
    publishAll b start groups = (publications start groups).foldl Board.perform b := by
  induction groups generalizing b start with
  | nil => rfl
  | cons g rest ih => exact ih _ _

theorem mem_publications {groups : List Group} {start : Nat} {a : Board.Act}
    (h : a ∈ publications start groups) : ∃ index, ∃ g ∈ groups, a = .publish index g := by
  induction groups generalizing start with
  | nil => cases h
  | cons g rest ih =>
    rcases List.mem_cons.mp h with rfl | h
    · exact ⟨start, g, List.mem_cons_self, rfl⟩
    · obtain ⟨index, x, hx, rfl⟩ := ih h
      exact ⟨index, x, List.mem_cons_of_mem _ hx, rfl⟩

theorem mem_acts_write {w : Write} {a : Board.Act} (h : a ∈ r.acts (.write w)) : a = w.toAct := by
  rw [acts] at h
  split at h
  · exact List.mem_singleton.mp h
  · cases h

theorem mem_acts_replace {names : List String} {a : Board.Act} (h : a ∈ r.acts (.replace names)) :
    a = .reset ∨ ∃ index, ∃ g ∈ takeOver r.shown names, a = .publish index g := by
  rw [acts] at h
  split at h
  · cases h
  · exact (List.mem_cons.mp h).imp_right mem_publications

theorem perform_board (r : Registry) (op : Operation) :
    (r.perform op).board = (r.acts op).foldl Board.perform r.board := by
  cases op with
  | act a => rfl
  | write w =>
    show (w.apply r).1.board =
      (if r.holds w.index w.name then [w.toAct] else []).foldl Board.perform r.board
    cases h : r.holds w.index w.name with
    | false => rw [Write.apply_of_not_holds h]; rfl
    | true => rw [Write.apply_of_holds h, Write.act_eq]; rfl
  | replace names =>
    show (r.replace names).1.board =
      (if r.names = names then [] else .reset :: publications 0 (takeOver r.shown names)).foldl
        Board.perform r.board
    by_cases h : r.names = names
    · rw [replace, if_pos h, if_pos h]; rfl
    · rw [replace, if_neg h, if_neg h]
      exact publishAll_eq _ _ _

section

variable {P : Board → Prop} {Q : Board.Act → Prop} {R : Operation → Prop}

theorem perform_keeps (hP : ∀ b a, Q a → P b → P (b.perform a)) {op : Operation}
    (hQ : ∀ a ∈ r.acts op, Q a) (h : P r.board) : P (r.perform op).board := by
  rw [perform_board]
  generalize r.acts op = acts at hQ
  generalize r.board = b at h
  induction acts generalizing b with
  | nil => exact h
  | cons a rest ih =>
    obtain ⟨ha, hrest⟩ := List.forall_mem_cons.mp hQ
    exact ih hrest _ (hP b a ha h)

theorem performs_keep (hP : ∀ b a, Q a → P b → P (b.perform a))
    (hQ : ∀ (r : Registry) (op : Operation), R op → P r.board → ∀ a ∈ r.acts op, Q a)
    {ops : List Operation}
    (hR : ∀ op ∈ ops, R op) (h : P r.board) : P (ops.foldl perform r).board := by
  induction ops generalizing r with
  | nil => exact h
  | cons op rest ih =>
    obtain ⟨hop, hrest⟩ := List.forall_mem_cons.mp hR
    exact ih hrest (perform_keeps hP (hQ r op hop h) h)

end

theorem Step.operation (h : Step r r') : ∃ op, r' = r.perform op := by
  cases h with
  | write w => exact ⟨.write w, rfl⟩
  | replace names => exact ⟨.replace names, rfl⟩
  | set hb =>
    cases hb with
    | take now => exact ⟨.act (.takeRequests now), rfl⟩
    | sort on => exact ⟨.act (.sortByDelay on), rfl⟩
    | configure next => exact ⟨.act (.configure next), rfl⟩
  | resort now => exact ⟨.act (.serveResorting now), rfl⟩

theorem Reachable.operations (h : r.Reachable) :
    ∃ (config : Config) (ops : List Operation), r = ops.foldl perform { board := { config } } := by
  induction h with
  | start config => exact ⟨config, [], rfl⟩
  | step _ hs ih =>
    obtain ⟨config, ops, rfl⟩ := ih
    obtain ⟨op, rfl⟩ := hs.operation
    exact ⟨config, ops ++ [op], by rw [List.foldl_append]; rfl⟩

end ProxyPulse.Registry
