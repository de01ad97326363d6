import Packrat.Proofs.Lexer.Pattern
import Packrat.Proofs.Lexer.States

namespace Packrat.Pattern

open Automaton Computability

variable {scope : Scope} {m m₁ m' : Automaton} {f : Fragment} {l : Language Char} {t : TokenRule}
    {root index token i : Nat}
  {done todo : List TokenRule} {goals : Set Nat}

theorem Adds.any_mem_closure (adds : Adds m m₁ f l) :
    f.ends.any (· ∈ LexState.closure m₁ [f.start]) = true ↔ [] ∈ l := by
  have inside : ∀ i ∈ [f.start], i < m₁.size := List.forall_mem_singleton.mpr adds.start.2
  rw [← adds.language, mem_between, List.any_eq_true]
  simp only [decide_eq_true_eq, LexState.mem_closure adds.sound inside, List.mem_singleton, exists_eq_left]
  rfl

def accepting (m : Automaton) (token : Nat) : Set Nat := {j | (m.state j).accept = some token}

theorem mem_accepting : i ∈ accepting m token ↔ (m.state i).accept = some token := Iff.rfl

/-- The tokens that have been added are accepted where their patterns match. -/
structure Assembled (scope : Scope) (root : Nat) (done : List TokenRule) (m : Automaton) : Prop where
  sound : m.Sound
  inside : root < m.size
  once : m.between root {root} = 1
  accepts : ∀ token w, w ∈ m.between root (accepting m token) ↔ ∃ t, done[token]? = some t ∧ Matches scope t.pattern w
  marked : ∀ i token, (m.state i).accept = some token → token < done.length
  consumes : ∀ t ∈ done, ¬ Matches scope t.pattern []

def attach (root index : Nat) (f : Fragment) (m : Automaton) : Automaton :=
  (m.acceptAt f.ends index).link [root] f.start

namespace Assembled

theorem start (scope : Scope) : Assembled scope 0 [] (addState {}).2 where
  sound := Sound.addState ⟨fun i => ⟨nofun, .nil⟩, fun after => by rcases after with here | ⟨_, here⟩ <;> cases here⟩
  inside := Nat.zero_lt_one
  once := between_addState
  accepts token w := by
    refine iff_of_false (fun ⟨j, marked, _⟩ => ?_) fun ⟨t, listed, _⟩ => ?_
    · rw [mem_accepting, state_addState] at marked
      cases marked
    · cases listed
  marked i token marks := by
    rw [state_addState] at marks
    cases marks
  consumes := nofun

section

variable (assembled : Assembled scope root done m) (adds : Adds m m₁ f l)
include assembled adds

theorem joined_attach : Joined (m₁.acceptAt f.ends index) (attach root index f m₁) {root} 1 f.start := by
  have inside : ∀ e ∈ f.ends, e < m₁.size := fun e listed => (adds.ends e listed).2
  have within : root < m₁.size := assembled.inside.trans_le adds.le
  exact joined_addEpsilon (adds.sound.acceptAt inside).ordered (within.trans_eq (size_acceptAt f.ends).symm) f.start

theorem accept_attach :
    ((attach root index f m₁).state i).accept = if i ∈ f.ends then some index else (m₁.state i).accept := by
  refine ((joined_attach assembled adds).accept i).trans ?_
  rw [state_acceptAt fun e listed => (adds.ends e listed).2]

theorem back_eq_zero : m₁.between f.start {root} = 0 := by
  refine adds.between_eq_zero adds.start.1 fun j here => ?_
  rw [Set.mem_singleton_iff.mp here]
  exact assembled.inside

theorem between_attach :
    (attach root index f m₁).between root goals = m.between root goals + m₁.between f.start goals := by
  have inside : ∀ e ∈ f.ends, e < m₁.size := fun e listed => (adds.ends e listed).2
  have old : ∀ goals, (m₁.acceptAt f.ends index).between root goals = m.between root goals := fun goals =>
    (between_congr (step_acceptAt inside)).trans (adds.between_eq assembled.sound assembled.inside)
  have new : ∀ goals, (m₁.acceptAt f.ends index).between f.start goals = m₁.between f.start goals := fun goals =>
    between_congr (step_acceptAt inside)
  have back := (new {root}).trans (back_eq_zero assembled adds)
  rw [(joined_attach assembled adds).between_beside ((old _).trans assembled.once) back, old, new]

theorem mem_accepting_old (w : List Char) : w ∈ m.between root (accepting (attach root index f m₁) token) ↔
    w ∈ m.between root (accepting m token) := by
  refine exists_congr fun j => and_congr_left fun leads => ?_
  have before : j < m.size := assembled.sound.lt_of_leads assembled.inside leads
  have apart : j ∉ f.ends := fun listed => Nat.not_le_of_lt before (adds.ends j listed).1
  rw [mem_accepting, accept_attach assembled adds, if_neg apart, adds.same j before]
  exact Iff.rfl

theorem mem_accepting_new (w : List Char) : w ∈ m₁.between f.start (accepting (attach root index f m₁) token) ↔
    index = token ∧ w ∈ l := by
  rw [← adds.language]
  have marked : ∀ {j}, m₁.Leads f.start w j →
    (j ∈ accepting (attach root index f m₁) token ↔ j ∈ f.ends ∧ index = token) := by
    intro j leads
    rw [mem_accepting, accept_attach assembled adds, adds.unmarked j (adds.le_of_leads adds.start.1 leads)]
    split <;> simp [*]
  constructor
  · intro ⟨j, marks, leads⟩
    obtain ⟨listed, same⟩ := (marked leads).mp marks
    exact ⟨same, j, listed, leads⟩
  · intro ⟨same, j, listed, leads⟩
    exact ⟨j, (marked leads).mpr ⟨listed, same⟩, leads⟩

end

theorem add (assembled : Assembled scope root done m) (adds : Adds m m₁ f (scope.language t.pattern))
    (consumes : ¬ Matches scope t.pattern []) : Assembled scope root (done ++ [t]) (attach root done.length f m₁) where
  sound := by
    have inside : ∀ e ∈ f.ends, e < m₁.size := fun e listed => (adds.ends e listed).2
    exact (adds.sound.acceptAt inside).joined (joined_attach assembled adds)
      (adds.start.2.trans_eq (size_acceptAt f.ends).symm)
  inside := by
    rw [(joined_attach assembled adds).size, size_acceptAt]
    exact assembled.inside.trans_le adds.le
  once := by rw [between_attach assembled adds, assembled.once, back_eq_zero assembled adds, add_zero]
  accepts token w := by
    rw [between_attach assembled adds, Language.mem_add, mem_accepting_old assembled adds,
      mem_accepting_new assembled adds,
      assembled.accepts, Scope.mem_language]
    rcases Nat.lt_trichotomy token done.length with old | rfl | beyond
    · rw [List.getElem?_append_left old]
      exact or_iff_left fun ⟨same, _⟩ => by omega
    · simp
    · rw [List.getElem?_append_right (by omega), List.getElem?_eq_none (by omega),
        List.getElem?_eq_none (by simp; omega)]
      exact or_iff_left fun ⟨same, _⟩ => by omega
  marked i token marks := by
    rw [accept_attach assembled adds] at marks
    rw [List.length_append, List.length_singleton]
    split at marks
    · have : done.length = token := Option.some.inj marks
      omega
    · by_cases old : i < m.size
      · rw [adds.same i old] at marks
        exact Nat.lt_succ_of_lt (assembled.marked i token marks)
      · rw [adds.unmarked i (Nat.le_of_not_lt old)] at marks
        cases marks
  consumes u listed := by
    rcases List.mem_append.mp listed with old | new
    · exact assembled.consumes u old
    · rwa [List.mem_singleton.mp new]

end Assembled

theorem addToken_cases (sound : m.Sound) (scope : Scope) (t : TokenRule) (root index : Nat) :
    (∃ e, (scope.fragmentOf t).run m = .error e ∧ (scope.addToken root t index).run m = .error e) ∨
      ∃ f m₁, (scope.fragmentOf t).run m = .ok (f, m₁) ∧ Adds m m₁ f (scope.language t.pattern) ∧
        (Matches scope t.pattern [] ∧
            (∃ e, e.blamed = some t.name ∧ (scope.addToken root t index).run m = .error (.grammar e)) ∨
          ¬ Matches scope t.pattern [] ∧ (scope.addToken root t index).run m = .ok ((), attach root index f m₁)) := by
  unfold Scope.addToken
  rw [StateT.run_bind]
  cases built : (scope.fragmentOf t).run m with
  | error e => exact .inl ⟨e, rfl, rfl⟩
  | ok made =>
    obtain ⟨f, m₁⟩ := made
    have adds := scope.reads_fragmentOf t m sound f m₁ built
    have empty : _ ↔ Matches scope t.pattern [] := adds.any_mem_closure
    refine .inr ⟨f, m₁, rfl, adds, ?_⟩
    by_cases nothing : Matches scope t.pattern []
    · refine .inl ⟨nothing, ?_⟩
      show ∃ e, _ ∧ StateT.run (ite _ _ _) m₁ = _
      rw [if_pos (empty.mpr nothing)]
      exact ⟨_, rfl, rfl⟩
    · refine .inr ⟨nothing, ?_⟩
      show StateT.run (ite _ _ _) m₁ = _
      rw [if_neg (empty.not.mpr nothing)]
      rfl

theorem ok_addToken (assembled : Assembled scope root done m)
    (run : (scope.addToken root t done.length).run m = .ok ((), m')) : Assembled scope root (done ++ [t]) m' := by
  rcases addToken_cases assembled.sound scope t root done.length with ⟨e, _, fails⟩ |
    ⟨f, m₁, _, adds, ⟨_, e, _, fails⟩ | ⟨some, adds'⟩⟩
  · cases run.symm.trans fails
  · cases run.symm.trans fails
  · cases run.symm.trans adds'
    exact assembled.add adds some

theorem assembled_of_forM (assembled : Assembled scope root done m)
    (run : ((todo.zipIdx done.length).forM fun (t, index) => scope.addToken root t index).run m = .ok ((), m')) :
    Assembled scope root (done ++ todo) m' := by
  induction todo generalizing done m with
  | nil =>
    cases run
    rwa [List.append_nil]
  | cons t todo ih =>
    obtain ⟨_, m₁, first, rest⟩ := ok_of_run_bind run
    have more := ok_addToken assembled first
    have length : (done ++ [t]).length = done.length + 1 := List.length_append
    have all := ih more (by rwa [length])
    rwa [List.append_assoc] at all

theorem assembled_automaton {scope : Scope} (built : scope.automaton = .ok (root, m)) :
    Assembled scope root scope.tokens m := by
  obtain ⟨_, _, new, more⟩ := ok_of_run_bind built
  obtain ⟨_, _, each, done⟩ := ok_of_run_bind more
  cases new
  cases done
  exact assembled_of_forM (.start scope) each

end Packrat.Pattern
