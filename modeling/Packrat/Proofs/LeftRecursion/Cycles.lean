import Packrat.Proofs.Graph
import Packrat.Proofs.Parse.Conduct

namespace Packrat

open Relation

namespace LeftRecursion

def graph (calls : List (String × TextSet)) : Graph := calls.map fun (name, called) => (name, called.toList)

theorem edge_graph {calls : List (String × TextSet)} {caller callee : String} :
    (graph calls).Edge caller callee ↔ callee ∈ callsOf calls caller := by
  unfold Graph.Edge Graph.targets graph callsOf
  induction calls with
  | nil => simp [TextSet.mem_def, TextSet.empty]
  | cons first rest ih =>
    rw [List.map_cons, List.lookup_cons, List.lookup_cons]
    split
    · rfl
    · exact ih

theorem edges_eq (calls : List (String × TextSet)) :
    (fun caller callee => callee ∈ callsOf calls caller) = (graph calls).Edge := by
  funext caller callee
  exact propext edge_graph.symm

theorem isCycle_iff {calls : List (String × TextSet)} {component : List String} {a : String}
    (listed : component ∈ (graph calls).components) (member : a ∈ component) :
    isCycle calls component = true ↔ TransGen (graph calls).Edge a a := by
  have whole := (Graph.separates_components (graph calls)).classes component listed a member
  constructor
  · intro cycle
    match component, listed, member, cycle with
    | [name], _, member, cycle =>
      obtain rfl := List.mem_singleton.mp member
      exact .single (edge_graph.mpr (of_decide_eq_true cycle))
    | first :: second :: rest, listed, _, _ =>
      have distinct := (List.nodup_flatten.mp (Graph.nodup_components (graph calls))).1 _ listed
      have apart : first ≠ second := fun same => (List.nodup_cons.mp distinct).1 (same ▸ List.mem_cons_self)
      obtain ⟨b, other, ne⟩ : ∃ b ∈ first :: second :: rest, b ≠ a := by
        by_cases same : first = a
        · exact ⟨second, by simp, same ▸ apart.symm⟩
        · exact ⟨first, by simp, same⟩
      obtain ⟨there, back⟩ := (whole b).mp other
      exact ((reflTransGen_iff_eq_or_transGen.mp there).resolve_left ne).trans_left back
  · intro reaches
    obtain ⟨next, call, rest⟩ := TransGen.head'_iff.mp reaches
    have there := (whole next).mpr ⟨.single call, rest⟩
    unfold isCycle
    split
    next name =>
      obtain rfl := List.mem_singleton.mp member
      obtain rfl := List.mem_singleton.mp there
      exact decide_eq_true (edge_graph.mp call)
    next => rfl

theorem exists_cycle {calls : List (String × TextSet)} {a : String}
    (reaches : TransGen (fun caller callee => callee ∈ callsOf calls caller) a a) : ∃ cycle ∈ cyclesOf calls,
      ∀ b, ReflTransGen (fun caller callee => callee ∈ callsOf calls caller) a b →
        ReflTransGen (fun caller callee => callee ∈ callsOf calls caller) b a → b ∈ cycle := by
  rw [edges_eq] at reaches ⊢
  obtain ⟨next, call, _⟩ := TransGen.head'_iff.mp reaches
  have listed : a ∈ (graph calls).map (·.1) := by
    obtain ⟨targets, member, _⟩ := Graph.exists_mem_of_edge call
    exact List.mem_map_of_mem member
  obtain ⟨component, member, within⟩ := Graph.exists_component listed
  exact ⟨component, List.mem_filter.mpr ⟨member, (isCycle_iff member (within a .refl .refl)).mpr reaches⟩, within⟩

end LeftRecursion

namespace Grammar

theorem not_reaches_self {g : Grammar} {name : String}
    (none : LeftRecursion.recursionOf g.leftCallees (LeftRecursion.cyclesOf g.leftCallees) name = .none) :
    ¬ TransGen g.LeftCalls name name := by
  intro reaches
  unfold LeftRecursion.recursionOf at none
  split at none
  · cases none
  · split at none
    · cases none
    · next notIndirect =>
      obtain ⟨cycle, member, within⟩ := LeftRecursion.exists_cycle reaches
      exact notIndirect (List.any_eq_true.mpr ⟨cycle, member, by simpa using within name .refl .refl⟩)

end Grammar

end Packrat
