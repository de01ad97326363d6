import Packrat.Grammar.Basic

namespace Packrat.Grammar

variable {g : Grammar} {name : String} {r : Rule}

theorem mem_of_rule? (found : g.rule? name = some r) : r ∈ g.rules := List.mem_of_find?_eq_some found

theorem name_of_rule? (found : g.rule? name = some r) : r.name = name := by
  unfold rule? at found
  simpa using List.find?_some found

theorem mem_ruleNames_of_rule? (found : g.rule? name = some r) : name ∈ g.ruleNames :=
  List.mem_map.mpr ⟨r, mem_of_rule? found, name_of_rule? found⟩

theorem rule?_of_mem (listed : r ∈ g.rules) : g.rule? r.name = some r := by
  have distinct := g.distinctRules
  unfold rule?
  generalize g.rules = rules at listed distinct
  induction rules with
  | nil => cases listed
  | cons first rest ih =>
    obtain ⟨apart, distinct⟩ := List.nodup_cons.mp distinct
    rcases List.mem_cons.mp listed with rfl | listed
    · simp
    · have other : first.name ≠ r.name := by
        intro same
        exact apart (List.mem_map.mpr ⟨r, listed, same.symm⟩)
      rw [List.find?_cons_of_neg (by simpa using other)]
      exact ih listed distinct

theorem rule?_of_perm {h : Grammar} (perm : h.rules.Perm g.rules) (name : String) : h.rule? name = g.rule? name := by
  cases found : g.rule? name with
  | some r =>
    have here := rule?_of_mem (perm.mem_iff.mpr (mem_of_rule? found))
    rwa [name_of_rule? found] at here
  | none =>
    cases found' : h.rule? name with
    | none => rfl
    | some r =>
      have here := rule?_of_mem (perm.mem_iff.mp (mem_of_rule? found'))
      rw [name_of_rule? found', found] at here
      cases here

theorem exists_rule? (listed : name ∈ g.ruleNames) : ∃ r, g.rule? name = some r := by
  obtain ⟨r, member, rfl⟩ := List.mem_map.mp listed
  exact ⟨r, rule?_of_mem member⟩

theorem length_ruleNames (g : Grammar) : g.ruleNames.length = g.rules.length := List.length_map _

theorem distinctTokens_nil : (TokenRule.names []).Nodup := .nil

theorem distinctInStates_nil : ∀ state ∈ ([] : List (String × List TokenRule)), (TokenRule.names state.2).Nodup := by
  simp

end Packrat.Grammar
