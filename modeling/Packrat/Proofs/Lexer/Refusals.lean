import Packrat.Proofs.Grammar.WellMade
import Packrat.Proofs.Lexer.Tiling

namespace Packrat

namespace Expr

mutual
theorem isKnown_of_isWellMade : ∀ {e : Expr}, e.isWellMade = true → e.isKnown = true
  | .literal _, _ | .oneOf _, _ | .reference _, _ => rfl
  | .sequence items, made => allKnown_of_allWellMade items made
  | .choice alternatives, made => allKnown_of_allWellMade alternatives (Bool.and_eq_true_iff.mp made).2
  | .optional item, made | .repetition _ item, made | .bind _ item, made | .ahead item, made
  | .notAhead item, made => isKnown_of_isWellMade (e := item) made

theorem allKnown_of_allWellMade : ∀ es : List Expr, allWellMade es = true → allKnown es = true
  | [], _ => rfl
  | e :: es, made => by
    obtain ⟨first, rest⟩ := Bool.and_eq_true_iff.mp made
    rw [allKnown, isKnown_of_isWellMade first, allKnown_of_allWellMade es rest]
    rfl
end

mutual
theorem isWellMade_of_mem_lookaheads : ∀ {e l : Expr}, e.isWellMade = true → l ∈ e.lookaheads → l.isWellMade = true
  | .sequence items, _, made, listed => isWellMade_of_mem_allLookaheads items made listed
  | .choice alternatives, _, made, listed =>
    isWellMade_of_mem_allLookaheads alternatives (Bool.and_eq_true_iff.mp made).2 listed
  | .optional item, _, made, listed | .repetition _ item, _, made, listed | .bind _ item, _, made, listed =>
    isWellMade_of_mem_lookaheads (e := item) made listed
  | .ahead _, _, made, listed | .notAhead _, _, made, listed => by rwa [List.mem_singleton.mp listed]
  | .literal _, _, _, listed | .oneOf _, _, _, listed | .reference _, _, _, listed => nomatch listed

theorem isWellMade_of_mem_allLookaheads : ∀ (es : List Expr) {l : Expr}, allWellMade es = true → l ∈ allLookaheads es →
    l.isWellMade = true
  | e :: es, _, made, listed => by
    obtain ⟨first, rest⟩ := Bool.and_eq_true_iff.mp made
    exact (List.mem_append.mp listed).elim (isWellMade_of_mem_lookaheads first)
      (isWellMade_of_mem_allLookaheads es rest)
end

end Expr

namespace Pattern

def FairWork {α : Type} (work : Building α) : Prop := ∀ m, Fair (work.run m)

namespace FairWork

variable {α β : Type}

theorem bind {work : Building α} {next : α → Building β} (first : FairWork work) (second : ∀ a, FairWork (next a)) :
    FairWork (work >>= next) := fun m => (first m).bind fun (a, m₁) _ => second a m₁

theorem pure (a : α) : FairWork (Pure.pure a) := fun _ => trivial

theorem change (f : Automaton → α × Automaton) : FairWork (modifyGet f) := fun _ => trivial

theorem invalid (blamed : Option String) (text : String) : FairWork (Pattern.invalid blamed text : Building α) :=
  fun _ => ⟨_, rfl⟩

end FairWork

section

variable {resolve : String → Building Fragment} {blamed : Option String}

theorem fair_lookahead {e : Expr} (made : e.isWellMade = true) : FairWork (lookahead blamed e) := by
  unfold lookahead
  rw [Expr.describe_of_isWellMade made]
  exact .invalid blamed _

theorem fair_fragment (resolves : ∀ name, FairWork (resolve name)) {e : Expr} (made : e.isWellMade = true) :
    FairWork (fragment resolve blamed e) := by
  intro m
  have explained : Explained resolve blamed e.lookaheads e.references (fragment resolve blamed e) :=
    explained_fragment (Expr.isKnown_of_isWellMade made)
  refine (explained m).imp (fun refusal comes => ?_) fun _ _ => trivial
  rcases comes with ⟨l, listed, m', fails⟩ | ⟨name, _, m', fails⟩
  · exact (fair_lookahead (Expr.isWellMade_of_mem_lookaheads made listed) m').of_error fails
  · exact (resolves name m').of_error fails

end

namespace Scope

variable {scope : Scope}

theorem fair_expand (made : ∀ t ∈ scope.tokens, t.pattern.isWellMade = true) (depth : Nat) (active : List String)
    (name : String) : FairWork (scope.expand depth active name) := by
  induction depth generalizing active name with
  | zero => exact .invalid _ _
  | succ depth ih =>
    unfold expand
    split
    · next t found =>
      split
      · exact .invalid _ _
      · have listed : t ∈ scope.tokens := List.mem_reverse.mp (List.mem_of_find?_eq_some found)
        exact fair_fragment (fun other => ih _ other) (made t listed)
    · split
      · exact .invalid _ _
      · exact fun _ => ⟨_, rfl⟩

theorem fair_addToken (made : ∀ t ∈ scope.tokens, t.pattern.isWellMade = true) (root : Nat) {t : TokenRule}
    (listed : t ∈ scope.tokens) (index : Nat) : FairWork (scope.addToken root t index) := by
  unfold addToken
  refine FairWork.bind (fair_fragment (fair_expand made _ _) (made t listed)) fun f => ?_
  refine FairWork.bind (fun _ => trivial) fun m => ?_
  dsimp only
  split
  · exact (FairWork.invalid _ _).bind fun _ => (FairWork.change _).bind fun _ => .change _
  · exact (FairWork.change _).bind fun _ => .change _

theorem fair_automaton (made : ∀ t ∈ scope.tokens, t.pattern.isWellMade = true) : Fair scope.automaton := by
  have each : ∀ (todo : List (TokenRule × Nat)), (∀ t ∈ todo, t.1 ∈ scope.tokens) → ∀ root,
      FairWork (todo.forM fun t => scope.addToken root t.1 t.2) := by
    intro todo within root
    induction todo with
    | nil => exact .pure ()
    | cons t todo ih =>
      obtain ⟨here, rest⟩ := List.forall_mem_cons.mp within
      exact (fair_addToken made root here t.2).bind fun _ => ih rest
  have whole : FairWork scope.addTokens := by
    unfold addTokens
    refine (FairWork.change _).bind fun root => ?_
    exact (each _ (fun t listed => List.fst_mem_of_mem_zipIdx listed) root).bind fun _ => .pure root
  exact whole {}

end Scope

end Pattern

open Reporting

theorem TokenSet.fair_ofTokens {tokens : List TokenRule} (made : ∀ t ∈ tokens, t.pattern.isWellMade = true)
    (rules : List String) (state : Option String) :
    Returns Refusal.OfGrammar (fun _ => True) (ofTokens tokens rules state) := by
  unfold ofTokens
  refine (Returns.lift (Pattern.Scope.fair_automaton made)).bind fun _ _ => ?_
  exact (Returns.report _).bind fun _ _ => .pure trivial

theorem fair_mapError {α : Type} (work : Except GrammarError α) : Fair (work.mapError Refusal.grammar) := by
  cases work with
  | ok a => trivial
  | error e => exact ⟨e, rfl⟩

namespace LexTable

variable {root : Nat} {m : Automaton} {row : LexRow}

theorem mem_ofAutomaton : row ∈ ofAutomaton root m ↔ ∃ s ∈ LexState.reached root m, rowOf root m s = row := by
  rw [ofAutomaton_eq, List.mem_toArray, List.mem_map]

theorem size_ofAutomaton (root : Nat) (m : Automaton) :
    (ofAutomaton root m).size = (LexState.reached root m).length := by
  rw [ofAutomaton_eq, List.size_toArray, List.length_map]

theorem size_pos (root : Nat) (m : Automaton) : 0 < (ofAutomaton root m).size := by
  rw [size_ofAutomaton]
  exact (List.getElem?_eq_some_iff.mp (LexState.reached_zero root m)).1

theorem edge_lt_size (sound : m.Sound) (inside : root < m.size) (listed : row ∈ ofAutomaton root m) {edge : Span × Nat}
    (leads : edge ∈ row.edges) : edge.2 < (ofAutomaton root m).size := by
  obtain ⟨s, member, rfl⟩ := mem_ofAutomaton.mp listed
  obtain ⟨e, here, rfl⟩ := List.mem_map.mp leads
  rw [size_ofAutomaton]
  have closed := (LexState.explored_reached sound inside).closed s member e.2 (List.mem_map_of_mem here)
  exact List.idxOf_lt_length_of_mem (closed.resolve_right List.not_mem_nil)

theorem accept_lt_length {scope : Pattern.Scope} {done : List TokenRule}
    (assembled : Pattern.Assembled scope root done m)
    (listed : row ∈ ofAutomaton root m) {index : Nat} (accepts : row.accept = some index) : index < done.length := by
  obtain ⟨s, _, rfl⟩ := mem_ofAutomaton.mp listed
  obtain ⟨i, _, marked⟩ := List.mem_filterMap.mp (List.min?_mem accepts)
  exact assembled.marked i index marked

end LexTable

namespace Lexer

theorem fair_ofTokens {tokens : List TokenRule} {states : List (String × List TokenRule)}
    (made : ∀ t ∈ tokens, t.pattern.isWellMade = true)
    (each : ∀ state ∈ states, ∀ t ∈ state.2, t.pattern.isWellMade = true) (rules : List String) :
    Returns Refusal.OfGrammar (fun _ => True) (ofTokens tokens rules states) := by
  unfold ofTokens
  refine (TokenSet.fair_ofTokens made rules none).bind fun main _ => ?_
  refine Returns.bind (Returns.mapM (P := fun _ => True) fun state listed => ?_) fun sets _ => ?_
  · exact (TokenSet.fair_ofTokens (each state listed) rules (some state.1)).bind fun _ _ => .pure trivial
  refine (Returns.lift (fair_mapError _)).bind fun _ _ => ?_
  exact (Returns.lift (fair_mapError _)).bind fun _ _ => .pure trivial

/-- What is looked up while a text is divided is there: the row of each state that an edge leads to, the token
that is accepted, and the lexer state that a token enters. -/
structure Closed (lexer : Lexer) : Prop where
  start : ∀ {set}, lexer.Has set → 0 < set.table.size
  edges : ∀ {set}, lexer.Has set → ∀ row ∈ set.table, ∀ edge ∈ row.edges, edge.2 < set.table.size
  accepts : ∀ {set}, lexer.Has set → ∀ row ∈ set.table, ∀ index, row.accept = some index → index < set.tokens.length
  enters : ∀ {set}, lexer.Has set → ∀ t ∈ set.tokens, ∀ state, t.enter = some state →
    ∃ inside, lexer.states.lookup state = some inside

theorem closed_of_ofTokens {lexer : Lexer} {tokens : List TokenRule} {rules : List String}
    {states : List (String × List TokenRule)} (compiled : Gives (ofTokens tokens rules states) lexer) :
    lexer.Closed := by
  have built : ∀ {set}, lexer.Has set → ∃ scope root m, Pattern.Assembled scope root set.tokens m ∧
      set.table = .ofAutomaton root m := by
    intro set has
    obtain ⟨declared, state, _, built, _⟩ := has.compiled compiled
    obtain ⟨same, root, m, assembled, table⟩ := TokenSet.exists_automaton built
    exact ⟨_, root, m, same ▸ assembled, table⟩
  refine ⟨fun has => ?_, fun has row listed edge leads => ?_, fun has row listed index accepts => ?_,
    fun has t listed state enters => ?_⟩
  · obtain ⟨_, root, m, _, table⟩ := built has
    rw [table]
    exact LexTable.size_pos root m
  · obtain ⟨_, root, m, assembled, table⟩ := built has
    rw [table] at listed ⊢
    exact LexTable.edge_lt_size assembled.sound assembled.inside listed leads
  · obtain ⟨_, root, m, assembled, table⟩ := built has
    rw [table] at listed
    exact LexTable.accept_lt_length assembled listed accepts
  · obtain ⟨_, _, _, _, checked⟩ := has.compiled compiled
    obtain ⟨_, each, _⟩ := ok_of_bind checked
    exact exists_lookup (checkToken_enters (ok_of_forM each listed) enters)

end Lexer

end Packrat
