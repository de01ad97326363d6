import Packrat.Proofs.Lexer.States

namespace Packrat

section

variable {row : LexRow} {code : Int} {target : Nat}

theorem LexRow.target?_eq_some_iff (ordered : SpanMap.Ordered row.edges) :
    row.target? code = some target ↔ ∃ span, (span, target) ∈ row.edges ∧ code ∈ span := by
  have sought (e : Span × Nat) :=
    @Span.mem_iff_getElem?_count _ _ e Prod.fst ordered.nonempty ordered.ascending code
  unfold LexRow.target?
  dsimp only
  constructor
  · intro here
    split at here
    · next span target' found =>
      split at here
      · next order =>
        cases here
        exact ⟨span, (sought (span, target)).mpr ⟨found, order⟩⟩
      · cases here
    · cases here
  · intro ⟨span, entry⟩
    obtain ⟨found, order⟩ := (sought (span, target)).mp entry
    rw [found]
    exact if_pos order

end

namespace LexState

variable {m : Automaton} {s : LexState} {n : Nat} {best : Option (Nat × Nat)} {cs : List Char}

def latest (m : Automaton) (s : LexState) (length : Nat) (best : Option (Nat × Nat)) : Option (Nat × Nat) :=
  ((s.accepted m).map fun token => (token, length)).or best

def munch (m : Automaton) (s : LexState) (length : Nat) (best : Option (Nat × Nat)) : List Char → Option (Nat × Nat)
  | [] => s.latest m length best
  | c :: rest => (step m s c.toNat).munch m (length + 1) (s.latest m length best) rest

theorem latest_of_none (nothing : s.accepted m = none) : s.latest m n best = best := by
  simp [latest, nothing]

theorem step_of_empty (empty : s.places = []) (x : Int) : (step m s x).places = [] := by
  rw [step, empty, List.flatMap_nil, closure, List.reverse_nil, Worklist.explore_nil]
  rfl

theorem munch_of_empty (empty : s.places = []) : s.munch m n best cs = best := by
  have nothing : ∀ {s : LexState}, s.places = [] → s.accepted m = none := fun none => by
    rw [accepted, none]
    rfl
  induction cs generalizing s n with
  | nil => exact latest_of_none (nothing empty)
  | cons c cs ih =>
    rw [munch, latest_of_none (nothing empty)]
    exact ih (step_of_empty empty c.toNat)

def Silent (m : Automaton) (s : LexState) (cs : List Char) : Prop :=
  ∀ j ≤ cs.length, (run m s (cs.take j)).accepted m = none

structure AcceptsLast (m : Automaton) (s : LexState) (cs : List Char) (k token : Nat) : Prop where
  within : k ≤ cs.length
  here : (run m s (cs.take k)).accepted m = some token
  behind : ∀ j ≤ cs.length, k < j → (run m s (cs.take j)).accepted m = none

variable {c : Char} {k token length : Nat}

theorem silent_nil : s.Silent m [] ↔ s.accepted m = none := by
  constructor
  · intro silent
    exact silent 0 (Nat.le_refl _)
  · intro nothing j _
    rw [List.take_nil]
    exact nothing

theorem silent_cons : s.Silent m (c :: cs) ↔ s.accepted m = none ∧ (step m s c.toNat).Silent m cs := by
  constructor
  · intro silent
    exact ⟨silent 0 (Nat.zero_le _), fun j within => silent (j + 1) (Nat.succ_le_succ within)⟩
  · intro ⟨first, later⟩ j within
    cases j with
    | zero => exact first
    | succ j => exact later j (Nat.le_of_succ_le_succ within)

theorem acceptsLast_nil : s.AcceptsLast m [] k token ↔ k = 0 ∧ s.accepted m = some token := by
  constructor
  · intro last
    have here := last.here
    rw [List.take_nil] at here
    exact ⟨Nat.le_zero.mp last.within, here⟩
  · intro ⟨start, here⟩
    subst start
    refine ⟨Nat.le_refl _, here, fun j within after => ?_⟩
    have := Nat.le_zero.mp within
    omega

theorem acceptsLast_zero :
    s.AcceptsLast m (c :: cs) 0 token ↔ s.accepted m = some token ∧ (step m s c.toNat).Silent m cs := by
  constructor
  · intro last
    exact ⟨last.here, fun j within => last.behind (j + 1) (Nat.succ_le_succ within) (Nat.succ_pos j)⟩
  · intro ⟨here, later⟩
    refine ⟨Nat.zero_le _, here, fun j within after => ?_⟩
    obtain ⟨j, rfl⟩ := Nat.exists_eq_succ_of_ne_zero (Nat.pos_iff_ne_zero.mp after)
    exact later j (Nat.le_of_succ_le_succ within)

theorem acceptsLast_succ : s.AcceptsLast m (c :: cs) (k + 1) token ↔ (step m s c.toNat).AcceptsLast m cs k token := by
  constructor
  · intro last
    refine ⟨Nat.le_of_succ_le_succ last.within, last.here, fun j within after => ?_⟩
    exact last.behind (j + 1) (Nat.succ_le_succ within) (Nat.succ_lt_succ after)
  · intro last
    refine ⟨Nat.succ_le_succ last.within, last.here, fun j within after => ?_⟩
    cases j with
    | zero => omega
    | succ j => exact last.behind j (Nat.le_of_succ_le_succ within) (Nat.lt_of_succ_lt_succ after)

theorem latest_eq_some_iff : s.latest m n best = some (token, length) ↔
    s.accepted m = some token ∧ length = n ∨ s.accepted m = none ∧ best = some (token, length) := by
  unfold latest
  cases s.accepted m with
  | none => simp
  | some found => simp [eq_comm]

theorem munch_eq_some_iff : s.munch m n best cs = some (token, length) ↔
    (∃ k, length = n + k ∧ s.AcceptsLast m cs k token) ∨ s.Silent m cs ∧ best = some (token, length) := by
  induction cs generalizing s n best with
  | nil =>
    simp only [munch, latest_eq_some_iff, acceptsLast_nil, silent_nil]
    grind
  | cons c cs ih =>
    have places : (∃ k, length = n + k ∧ s.AcceptsLast m (c :: cs) k token) ↔
        (length = n ∧ s.AcceptsLast m (c :: cs) 0 token) ∨
          ∃ k, length = n + 1 + k ∧ s.AcceptsLast m (c :: cs) (k + 1) token := by
      constructor
      · intro ⟨k, total, last⟩
        cases k with
        | zero => exact .inl ⟨total, last⟩
        | succ k => exact .inr ⟨k, by omega, last⟩
      · intro here
        cases here with
        | inl first => exact ⟨0, first⟩
        | inr later =>
          obtain ⟨k, total, last⟩ := later
          exact ⟨k + 1, by omega, last⟩
    simp only [munch, ih, latest_eq_some_iff, places, acceptsLast_zero, acceptsLast_succ, silent_cons]
    grind

theorem munch_eq_none_iff : s.munch m n best cs = none ↔ s.Silent m cs ∧ best = none := by
  induction cs generalizing s n best with
  | nil => simp [munch, latest, silent_nil]
  | cons c cs ih =>
    rw [munch, ih, silent_cons]
    simp only [latest, Option.or_eq_none_iff, Option.map_eq_none_iff]
    grind

end LexState

namespace LexTable

variable {root : Nat} {m : Automaton} {s : LexState} {state n : Nat} {best : Option (Nat × Nat)} {cs : List Char}

def rowOf (root : Nat) (m : Automaton) (s : LexState) : LexRow :=
  ⟨s.accepted m, (s.edges m).map fun e => (e.1, (LexState.reached root m).idxOf e.2)⟩

theorem ofAutomaton_eq (root : Nat) (m : Automaton) :
    ofAutomaton root m = ((LexState.reached root m).map (rowOf root m)).toArray := rfl

theorem ofAutomaton_getElem? (listed : (LexState.reached root m)[state]? = some s) :
    (ofAutomaton root m)[state]? = some (rowOf root m s) := by
  rw [ofAutomaton_eq, List.getElem?_toArray, List.getElem?_map, listed]
  rfl

theorem accepted_eq {table : LexTable} (row : table[state]? = some (rowOf root m s)) :
    scan.accepted table state n best = s.latest m n best := by
  unfold scan.accepted LexState.latest
  rw [row]
  dsimp only [Option.bind_some, rowOf]
  cases s.accepted m <;> rfl

theorem ordered_rowOf (sound : m.Sound) (root : Nat) (s : LexState) : SpanMap.Ordered (rowOf root m s).edges := by
  apply (LexState.ordered_edges sound s).of_spans
  rw [rowOf, List.map_map]
  rfl

theorem scan_eq_munch (sound : m.Sound) (inside : root < m.size) (listed : (LexState.reached root m)[state]? = some s) :
    (ofAutomaton root m).scan state n best cs = s.munch m n best cs := by
  have explored := LexState.explored_reached sound inside
  -- The row number and the set of states are kept in step along the text.
  induction cs generalizing state s n best with
  | nil => exact accepted_eq (ofAutomaton_getElem? listed)
  | cons c cs ih =>
    have row := ofAutomaton_getElem? listed
    have ordered := ordered_rowOf sound root s
    rw [scan, row, Option.bind_some, accepted_eq row, LexState.munch]
    cases found : (rowOf root m s).target? c.toNat with
    | some target =>
      obtain ⟨span, entry, here⟩ := (LexRow.target?_eq_some_iff ordered).mp found
      obtain ⟨e, edge, same⟩ := List.mem_map.mp entry
      cases same
      have known : e.2 ∈ LexState.reached root m :=
        (explored.closed s (List.mem_of_getElem? listed) e.2 (List.mem_map_of_mem edge)).resolve_right List.not_mem_nil
      rw [← LexState.edge_step sound edge here]
      exact ih (List.getElem?_idxOf known)
    | none =>
      have outside : ∀ e ∈ s.edges m, (c.toNat : Int) ∉ e.1 := by
        intro e edge here
        have some := (LexRow.target?_eq_some_iff ordered).mpr ⟨e.1, List.mem_map_of_mem edge, here⟩
        rw [found] at some
        cases some
      have empty := List.eq_nil_iff_forall_not_mem.mpr (LexState.not_mem_step sound outside)
      exact (LexState.munch_of_empty empty).symm

end LexTable

end Packrat
