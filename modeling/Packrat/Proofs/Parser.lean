import Packrat.Parser
import Packrat.Proofs.LeftRecursion.Cycles
import Packrat.Proofs.Reporting

namespace Packrat

namespace LeftRecursion

theorem parts_of_ofGrammar {g : Grammar} {l : LeftRecursion} (analysed : ofGrammar g = .ok l) :
    l.recursion = g.ruleNames.map (fun name => (name, recursionOf g.leftCallees (cyclesOf g.leftCallees) name)) ∧
      l.cycles = cyclesOf g.leftCallees ∧ l.calls = g.leftCallees := by
  unfold ofGrammar at analysed
  dsimp only at analysed
  cases checked : checkCycles g (startableRules g (cyclesOf g.leftCallees)) (cyclesOf g.leftCallees) with
  | error e =>
    rw [checked] at analysed
    cases analysed
  | ok u =>
    rw [checked] at analysed
    cases analysed
    exact ⟨rfl, rfl, rfl⟩

end LeftRecursion

namespace Grammar

theorem mem_ruleNames_of_leftCalls {g : Grammar} {caller callee : String} (calls : g.LeftCalls caller callee) :
    caller ∈ g.ruleNames := by
  obtain ⟨targets, listed, _⟩ := Graph.exists_mem_of_edge (LeftRecursion.edge_graph.mpr calls)
  obtain ⟨entry, member, same⟩ := List.mem_map.mp listed
  obtain ⟨r, known, rfl⟩ := List.mem_map.mp member
  cases same
  exact List.mem_map_of_mem known

end Grammar

namespace Parser

theorem parts_of_ofGrammar {g : Grammar} {actions : List (String × Action)} {parser : Parser}
    (compiled : Reporting.Gives (ofGrammar g actions) parser) :
    parser.grammar = g ∧ Typing.typedRules g actions = .ok parser.typed.typedRules ∧
      LeftRecursion.ofGrammar g = .ok parser.leftRecursion := by
  obtain ⟨lexer, _, compiled⟩ := compiled.of_bind
  obtain ⟨typedRules, typed, compiled⟩ := compiled.of_bind
  obtain ⟨leftRecursion, analysed, compiled⟩ := compiled.of_bind
  obtain ⟨_, _, compiled⟩ := compiled.of_bind
  have analysed := analysed.of_lift
  split at compiled
  · rw [compiled.of_pure]
    refine ⟨rfl, typed.of_lift, ?_⟩
    cases found : LeftRecursion.ofGrammar g with
    | ok l =>
      rw [found] at analysed
      cases analysed
      rfl
    | error e =>
      rw [found] at analysed
      cases analysed
  · exact compiled.not_throw.elim

variable {g : Grammar} {actions : List (String × Action)} {parser : Parser}

theorem faithful_of_ofGrammar (compiled : Reporting.Gives (ofGrammar g actions) parser) :
    parser.typed.Faithful := by
  obtain ⟨rfl, typed, _⟩ := parts_of_ofGrammar compiled
  exact TypedGrammar.faithful_of_typedRules typed

theorem recursion?_of_mem (compiled : Reporting.Gives (ofGrammar g actions) parser) {name : String}
    (listed : name ∈ g.ruleNames) : parser.recursion? name =
      some (LeftRecursion.recursionOf g.leftCallees (LeftRecursion.cyclesOf g.leftCallees) name) := by
  obtain ⟨_, _, analysed⟩ := parts_of_ofGrammar compiled
  unfold recursion?
  rw [(LeftRecursion.parts_of_ofGrammar analysed).1, Graph.lookup_map_self, if_pos listed]

theorem not_reaches_self (compiled : Reporting.Gives (ofGrammar g actions) parser) {name : String}
    (none : parser.recursion? name = some .none) :
    ¬ Relation.TransGen parser.typed.grammar.LeftCalls name name := by
  rw [show parser.typed.grammar = g from (parts_of_ofGrammar compiled).1]
  intro reaches
  obtain ⟨next, call, _⟩ := Relation.TransGen.head'_iff.mp reaches
  rw [recursion?_of_mem compiled (Grammar.mem_ruleNames_of_leftCalls call)] at none
  exact Grammar.not_reaches_self (Option.some.inj none) reaches

theorem acyclic_of_ofGrammar (compiled : Reporting.Gives (ofGrammar g actions) parser)
    (none : ∀ name ∈ g.ruleNames, parser.recursion? name = some .none) (name : String) :
    ¬ Relation.TransGen parser.typed.grammar.LeftCalls name name := by
  intro reaches
  obtain ⟨next, call, _⟩ := Relation.TransGen.head'_iff.mp reaches
  rw [show parser.typed.grammar = g from (parts_of_ofGrammar compiled).1] at call
  exact not_reaches_self compiled (none name (Grammar.mem_ruleNames_of_leftCalls call)) reaches

theorem exists_cycle (compiled : Reporting.Gives (ofGrammar g actions) parser) {name : String}
    (reaches : Relation.TransGen parser.typed.grammar.LeftCalls name name) : ∃ cycle ∈ parser.leftRecursion.cycles,
      ∀ other, Relation.ReflTransGen parser.typed.grammar.LeftCalls name other →
        Relation.ReflTransGen parser.typed.grammar.LeftCalls other name → other ∈ cycle := by
  obtain ⟨same, _, analysed⟩ := parts_of_ofGrammar compiled
  rw [show parser.typed.grammar = g from same] at reaches ⊢
  rw [(LeftRecursion.parts_of_ofGrammar analysed).2.1]
  exact LeftRecursion.exists_cycle reaches

end Parser

end Packrat
