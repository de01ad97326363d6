import Packrat.Proofs.Parser

namespace Packrat

open Relation

namespace Grammar

theorem edge_leftCallees (g : Grammar) : (LeftRecursion.graph g.leftCallees).Edge = g.LeftCalls :=
  (LeftRecursion.edges_eq g.leftCallees).symm

end Grammar

namespace LeftRecursion

variable {g : Grammar} {l : LeftRecursion} {cycle : List String} {name : String}

theorem of_eq (analysed : ofGrammar g = .ok l) (listed : name ∈ g.ruleNames) :
    l.of name = recursionOf g.leftCallees (cyclesOf g.leftCallees) name := by
  unfold of
  rw [(parts_of_ofGrammar analysed).1, Graph.lookup_map_self, if_pos listed, Option.getD_some]

theorem reaches_self_of_mem (listed : cycle ∈ cyclesOf g.leftCallees) (member : name ∈ cycle) :
    TransGen g.LeftCalls name name := by
  obtain ⟨component, circular⟩ := List.mem_filter.mp listed
  rw [← g.edge_leftCallees]
  exact (isCycle_iff component member).mp circular

theorem mem_cycle_iff (listed : cycle ∈ cyclesOf g.leftCallees) (member : name ∈ cycle) {other : String} :
    other ∈ cycle ↔ ReflTransGen g.LeftCalls name other ∧ ReflTransGen g.LeftCalls other name := by
  rw [← g.edge_leftCallees]
  exact (Graph.separates_components _).classes cycle (List.mem_filter.mp listed).1 name member other

theorem nodup_cycles (calls : List (String × TextSet)) : (cyclesOf calls).flatten.Nodup := by
  obtain ⟨distinct, apart⟩ := List.nodup_flatten.mp (Graph.nodup_components (graph calls))
  exact List.nodup_flatten.mpr
    ⟨fun cycle listed => distinct cycle (List.mem_filter.mp listed).1, apart.sublist List.filter_sublist⟩

theorem recursionOf_eq_direct_iff :
    recursionOf g.leftCallees (cyclesOf g.leftCallees) name = .direct ↔ g.LeftCalls name name := by
  unfold recursionOf Grammar.LeftCalls
  split
  next called => simp [called]
  next called => split <;> simp [called]

theorem recursionOf_eq_none_iff :
    recursionOf g.leftCallees (cyclesOf g.leftCallees) name = .none ↔ ¬ TransGen g.LeftCalls name name := by
  refine ⟨Grammar.not_reaches_self, fun straight => ?_⟩
  have uncalled : name ∉ callsOf g.leftCallees name := fun called => straight (.single called)
  unfold recursionOf
  rw [if_neg uncalled, if_neg]
  intro inside
  obtain ⟨cycle, listed, member⟩ := List.any_eq_true.mp inside
  exact straight (reaches_self_of_mem listed (by simpa using member))

theorem recursionOf_eq_indirect_iff : recursionOf g.leftCallees (cyclesOf g.leftCallees) name = .indirect ↔
    TransGen g.LeftCalls name name ∧ ¬ g.LeftCalls name name := by
  rw [← recursionOf_eq_direct_iff, ← not_not (a := TransGen g.LeftCalls name name), ← recursionOf_eq_none_iff]
  cases recursionOf g.leftCallees (cyclesOf g.leftCallees) name <;> simp

/-- The components of a graph share out its nodes into the classes of those that reach each other, each after all
others that it reaches. So a rule is recursive just when it reaches itself, directly when it is among its own left
calls, and the cycles are the classes of the recursive rules. -/
theorem components_classify :
    (∀ g : Graph, g.Separates g.components ∧ g.components.flatten.Nodup ∧
      ∀ x, x ∈ g.components.flatten ↔ x ∈ g.map (·.1) ∨ ∃ source, g.Edge source x) ∧
    ∀ (g : Grammar) (l : LeftRecursion), ofGrammar g = .ok l →
      (∀ name ∈ g.ruleNames, (l.of name = .none ↔ ¬ TransGen g.LeftCalls name name) ∧
        (l.of name = .direct ↔ g.LeftCalls name name) ∧
        (l.of name = .indirect ↔ TransGen g.LeftCalls name name ∧ ¬ g.LeftCalls name name)) ∧
      l.cycles.flatten.Nodup ∧
      (∀ cycle ∈ l.cycles, ∃ name ∈ g.ruleNames, l.of name ≠ .none ∧
        ∀ other, other ∈ cycle ↔ ReflTransGen g.LeftCalls name other ∧ ReflTransGen g.LeftCalls other name) ∧
      ∀ name ∈ g.ruleNames, l.of name ≠ .none → ∃ cycle ∈ l.cycles,
        ∀ other, other ∈ cycle ↔ ReflTransGen g.LeftCalls name other ∧ ReflTransGen g.LeftCalls other name := by
  refine ⟨fun g => ⟨g.separates_components, g.nodup_components, g.mem_components⟩, fun g l analysed => ?_⟩
  have cycles : l.cycles = cyclesOf g.leftCallees := (parts_of_ofGrammar analysed).2.1
  refine ⟨fun name listed => ?_, ?_, fun cycle member => ?_, fun name listed recursive => ?_⟩
  · rw [of_eq analysed listed]
    exact ⟨recursionOf_eq_none_iff, recursionOf_eq_direct_iff, recursionOf_eq_indirect_iff⟩
  · rw [cycles]
    exact nodup_cycles g.leftCallees
  · rw [cycles] at member
    obtain ⟨name, inside⟩ := List.exists_mem_of_ne_nil cycle
      ((Graph.separates_components _).nonempty cycle (List.mem_filter.mp member).1)
    have reaches := reaches_self_of_mem member inside
    obtain ⟨_, call, _⟩ := TransGen.head'_iff.mp reaches
    have listed := Grammar.mem_ruleNames_of_leftCalls call
    refine ⟨name, listed, fun none => ?_, fun other => mem_cycle_iff member inside⟩
    rw [of_eq analysed listed] at none
    exact recursionOf_eq_none_iff.mp none reaches
  · rw [of_eq analysed listed] at recursive
    obtain ⟨cycle, member, within⟩ := exists_cycle (not_not.mp (mt recursionOf_eq_none_iff.mpr recursive))
    rw [cycles]
    exact ⟨cycle, member, fun other => mem_cycle_iff member (within name .refl .refl)⟩

def braided : Grammar where
  rules := [
    ⟨"end", [⟨[.literal "."], none⟩], none, true, none, ""⟩,
    ⟨"a", [⟨[.reference "b", .literal "x"], none⟩, ⟨[.literal "y"], none⟩], none, true, none, ""⟩,
    ⟨"b", [⟨[.optional (.literal "q"), .reference "a"], none⟩, ⟨[.reference "list"], none⟩], none, true, none, ""⟩,
    ⟨"list", [⟨[.reference "list", .reference "end"], none⟩, ⟨[.literal "z"], none⟩], none, true, none, ""⟩]
  tokens := []
  states := []
  name := "braided"
  distinctRules := by decide
  distinctTokens := Grammar.distinctTokens_nil
  disjoint := by decide
  distinctInStates := Grammar.distinctInStates_nil

theorem braided_classify : ∃ l, ofGrammar braided = .ok l ∧ l.cycles = [["list"], ["a", "b"]] ∧
    l.of "b" = .indirect ∧ TransGen braided.LeftCalls "b" "b" ∧ ¬ braided.LeftCalls "b" "b" ∧
    l.of "end" = .none ∧ ¬ TransGen braided.LeftCalls "end" "end" := by
  have analysed : ∃ l, ofGrammar braided = .ok l ∧ l.cycles = [["list"], ["a", "b"]] ∧
      l.of "b" = .indirect ∧ l.of "end" = .none := ⟨_, rfl, by decide, by decide, by decide⟩
  obtain ⟨l, analysed, cycles, indirect, none⟩ := analysed
  obtain ⟨recursions, _⟩ := components_classify.2 braided l analysed
  have twofold := (recursions "b" (by decide)).2.2.mp indirect
  exact ⟨l, analysed, cycles, indirect, twofold.1, twofold.2, none, (recursions "end" (by decide)).1.mp none⟩

end LeftRecursion

end Packrat
