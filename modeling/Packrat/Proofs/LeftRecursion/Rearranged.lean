import Packrat.Proofs.LeftRecursion.BaseCases
import Packrat.Proofs.LeftRecursion.Classes

namespace Packrat

open Relation

namespace Expr

section

variable {nullable nullable' startable startable' : String → Bool}

mutual
theorem isNullable_mono (more : ∀ n, nullable n = true → nullable' n = true) :
    ∀ {e : Expr}, isNullable nullable e = true → isNullable nullable' e = true
  | .literal _, empty => empty
  | .oneOf _, empty | .unknown _, empty => by cases empty
  | .optional _, _ | .ahead _, _ | .notAhead _, _ => rfl
  | .reference name, empty => more name empty
  | .sequence _, empty => allNullable_mono more empty
  | .choice _, empty => anyNullable_mono more empty
  | .repetition atLeastOnce item, empty => by
    simp only [isNullable, Bool.or_eq_true] at empty ⊢
    exact empty.imp_right (isNullable_mono more)
  | .bind _ item, empty => isNullable_mono more (e := item) empty

theorem allNullable_mono (more : ∀ n, nullable n = true → nullable' n = true) :
    ∀ {es : List Expr}, allNullable nullable es = true → allNullable nullable' es = true
  | [], _ => rfl
  | e :: es, empty => by
    simp only [allNullable, Bool.and_eq_true] at empty ⊢
    exact ⟨isNullable_mono more empty.1, allNullable_mono more empty.2⟩

theorem anyNullable_mono (more : ∀ n, nullable n = true → nullable' n = true) :
    ∀ {es : List Expr}, anyNullable nullable es = true → anyNullable nullable' es = true
  | [], empty => by cases empty
  | e :: es, empty => by
    simp only [anyNullable, Bool.or_eq_true] at empty ⊢
    exact empty.imp (isNullable_mono more) (anyNullable_mono more)
end

mutual
theorem canStart_mono (more : ∀ n, startable n = true → startable' n = true) :
    ∀ {e : Expr}, canStart nullable startable e = true → canStart nullable startable' e = true
  | .literal _, _ | .oneOf _, _ | .optional _, _ | .notAhead _, _ => rfl
  | .unknown _, starts => by cases starts
  | .reference name, starts => more name starts
  | .sequence _, starts => sequenceCanStart_mono more starts
  | .choice _, starts => anyCanStart_mono more starts
  | .repetition atLeastOnce item, starts => by
    simp only [canStart, Bool.or_eq_true] at starts ⊢
    exact starts.imp_right (canStart_mono more)
  | .bind _ item, starts | .ahead item, starts => canStart_mono more (e := item) starts

theorem sequenceCanStart_mono (more : ∀ n, startable n = true → startable' n = true) :
    ∀ {es : List Expr}, sequenceCanStart nullable startable es = true → sequenceCanStart nullable startable' es = true
  | [], _ => rfl
  | e :: es, starts => by
    simp only [sequenceCanStart, Bool.and_eq_true, Bool.or_eq_true] at starts ⊢
    exact ⟨canStart_mono more starts.1, starts.2.imp_right (sequenceCanStart_mono more)⟩

theorem anyCanStart_mono (more : ∀ n, startable n = true → startable' n = true) :
    ∀ {es : List Expr}, anyCanStart nullable startable es = true → anyCanStart nullable startable' es = true
  | [], starts => by cases starts
  | e :: es, starts => by
    simp only [anyCanStart, Bool.or_eq_true] at starts ⊢
    exact starts.imp (canStart_mono more) (anyCanStart_mono more)
end

end

end Expr

namespace Grammar

variable {g h : Grammar} {name : String}

theorem monotone_nullable (g : Grammar) : Saturation.Monotone fun nullable name => (g.body name).isNullable nullable :=
  fun more _ => Expr.isNullable_mono more

theorem least_nullableRules (g : Grammar) :
    Saturation.Least (fun nullable name => (g.body name).isNullable nullable) g.ruleNames g.nullableRules :=
  Saturation.least_saturate g.ruleNames g.monotone_nullable

end Grammar

namespace LeftRecursion

variable {g : Grammar}

theorem monotone_joinsStartable (g : Grammar) (nullable members : List String) :
    Saturation.Monotone (joinsStartable g nullable members) := by
  intro fewer more below name joined
  refine Expr.canStart_mono (fun n counted => ?_) joined
  simp only [countsOn, Bool.or_eq_true] at counted ⊢
  exact counted.imp_right (below n)

theorem least_startableRules (g : Grammar) :
    Saturation.Least (joinsStartable g g.nullableRules g.recursiveRules) g.recursiveRules
      (startableRules g (cyclesOf g.leftCallees)) :=
  Saturation.least_saturate g.recursiveRules (monotone_joinsStartable g g.nullableRules g.recursiveRules)

theorem length_recursiveRules_le (g : Grammar) : g.recursiveRules.length ≤ g.rules.length := by
  rw [← g.length_ruleNames]
  exact (nodup_cycles g.leftCallees).length_le_of_subset fun _ => Grammar.mem_ruleNames_of_recursive

theorem mem_recursiveRules_iff {name : String} : name ∈ g.recursiveRules ↔ TransGen g.LeftCalls name name := by
  constructor
  · intro member
    obtain ⟨cycle, listed, member⟩ := List.mem_flatten.mp member
    exact reaches_self_of_mem listed member
  · intro reaches
    obtain ⟨cycle, listed, within⟩ := exists_cycle reaches
    exact List.mem_flatten.mpr ⟨cycle, listed, within name .refl .refl⟩

theorem exists_error_iff_stuck : (∃ e, ofGrammar g = .error e) ↔ ∃ name, g.Stuck name := by
  constructor
  · rintro ⟨e, refused⟩
    obtain ⟨_, name, _, stuck⟩ := checkCycles_eq_error (ofGrammar_eq_error_iff.mp refused)
    exact ⟨name, stuck⟩
  · rintro ⟨name, stuck⟩
    obtain ⟨e, refused⟩ := exists_error_of_stuck (Grammar.mem_ruleNames_of_recursive stuck.1) stuck.1 stuck.2
    exact ⟨e, ofGrammar_eq_error_iff.mpr refused⟩

def cycleSets (cycles : List (List String)) : Set (Set String) :=
  {rules | ∃ cycle ∈ cycles, rules = {name | name ∈ cycle}}

theorem cycleSets_eq (g : Grammar) : cycleSets (cyclesOf g.leftCallees) =
    {rules | ∃ name, TransGen g.LeftCalls name name ∧
      rules = {other | ReflTransGen g.LeftCalls name other ∧ ReflTransGen g.LeftCalls other name}} := by
  ext rules
  constructor
  · rintro ⟨cycle, listed, rfl⟩
    obtain ⟨name, inside⟩ := List.exists_mem_of_ne_nil cycle
      ((Graph.separates_components _).nonempty cycle (List.mem_filter.mp listed).1)
    exact ⟨name, reaches_self_of_mem listed inside, Set.ext fun other => mem_cycle_iff listed inside⟩
  · rintro ⟨name, reaches, rfl⟩
    obtain ⟨cycle, listed, within⟩ := exists_cycle reaches
    exact ⟨cycle, listed, Set.ext fun other => (mem_cycle_iff listed (within name .refl .refl)).symm⟩

end LeftRecursion

/-- The same rules in another order, each with the same productions in another order. -/
structure Rearranged (g h : Grammar) : Prop where
  rules : ∃ rules, g.rules.Perm rules ∧
    List.Forall₂ (fun r r' => r'.name = r.name ∧ r.productions.Perm r'.productions) rules h.rules

namespace Rearranged

open LeftRecursion

variable {g h : Grammar} {name other : String}

theorem symm (rearranged : Rearranged g h) : Rearranged h g := by
  obtain ⟨rules, perm, each⟩ := rearranged.rules
  obtain ⟨rules', each', perm'⟩ := List.perm_comp_forall₂ perm each
  exact ⟨rules', perm'.symm, each'.flip.imp fun _ _ same => ⟨same.1.symm, same.2.symm⟩⟩

theorem exists_rule? (rearranged : Rearranged g h) {r : Rule} (found : g.rule? name = some r) :
    ∃ r', h.rule? name = some r' ∧ r.productions.Perm r'.productions := by
  obtain ⟨rules, perm, each⟩ := rearranged.rules
  obtain ⟨r', listed, same, productions⟩ := exists_of_forall₂ each (perm.mem_iff.mp (Grammar.mem_of_rule? found))
  have found' := Grammar.rule?_of_mem listed
  rw [same, Grammar.name_of_rule? found] at found'
  exact ⟨r', found', productions⟩

theorem rule?_eq_none (rearranged : Rearranged g h) (absent : g.rule? name = none) : h.rule? name = none := by
  cases found : h.rule? name with
  | none => rfl
  | some r =>
    obtain ⟨_, found', _⟩ := rearranged.symm.exists_rule? found
    rw [absent] at found'
    cases found'

theorem mem_ruleNames (rearranged : Rearranged g h) (listed : name ∈ g.ruleNames) : name ∈ h.ruleNames := by
  obtain ⟨r, found⟩ := Grammar.exists_rule? listed
  obtain ⟨_, found', _⟩ := rearranged.exists_rule? found
  exact Grammar.mem_ruleNames_of_rule? found'

theorem ruleNames_iff (rearranged : Rearranged g h) : name ∈ g.ruleNames ↔ name ∈ h.ruleNames :=
  ⟨rearranged.mem_ruleNames, rearranged.symm.mem_ruleNames⟩

theorem exists_bodies (rearranged : Rearranged g h) (name : String) :
    ∃ alternatives alternatives', g.body name = .choice alternatives ∧ h.body name = .choice alternatives' ∧
      alternatives.Perm alternatives' := by
  cases found : g.rule? name with
  | some r =>
    obtain ⟨r', found', productions⟩ := rearranged.exists_rule? found
    rw [Grammar.body_eq_of_rule? found, Grammar.body_eq_of_rule? found']
    exact ⟨_, _, rfl, rfl, productions.map _⟩
  | none =>
    have found' := rearranged.rule?_eq_none found
    exact ⟨[], [], by simp [Grammar.body, found], by simp [Grammar.body, found'], .refl []⟩

theorem isNullable_body (rearranged : Rearranged g h) (nullable : String → Bool) (name : String) :
    (h.body name).isNullable nullable = (g.body name).isNullable nullable := by
  obtain ⟨es, es', same, same', perm⟩ := rearranged.exists_bodies name
  rw [same, same', Bool.eq_iff_iff, Expr.isNullable, Expr.isNullable, Expr.anyNullable_iff, Expr.anyNullable_iff]
  exact exists_congr fun e => and_congr_left fun _ => perm.mem_iff.symm

theorem canStart_body (rearranged : Rearranged g h) (nullable startable : String → Bool) (name : String) :
    (h.body name).canStart nullable startable = (g.body name).canStart nullable startable := by
  obtain ⟨es, es', same, same', perm⟩ := rearranged.exists_bodies name
  rw [same, same', Bool.eq_iff_iff, Expr.canStart, Expr.canStart, Expr.anyCanStart_iff, Expr.anyCanStart_iff]
  exact exists_congr fun e => and_congr_left fun _ => perm.mem_iff.symm

theorem leftCallees_body (rearranged : Rearranged g h) (nullable isRule : String → Bool) (name : String) :
    (h.body name).leftCallees nullable isRule = (g.body name).leftCallees nullable isRule := by
  obtain ⟨es, es', same, same', perm⟩ := rearranged.exists_bodies name
  rw [same, same', Expr.leftCallees, Expr.leftCallees]
  refine TextSet.ext_mem fun other => ?_
  rw [Expr.mem_choiceCallees, Expr.mem_choiceCallees]
  exact exists_congr fun e => and_congr_left fun _ => perm.mem_iff.symm

theorem mem_nullableRules (rearranged : Rearranged g h) : name ∈ g.nullableRules ↔ name ∈ h.nullableRules := by
  have turn : ∀ {g h : Grammar}, Rearranged g h → name ∈ g.nullableRules → name ∈ h.nullableRules := by
    intro g h rearranged
    refine (Grammar.least_nullableRules g).mem_of_mem (Grammar.least_nullableRules h) (fun nullable name => ?_)
      fun _ => rearranged.mem_ruleNames
    rw [rearranged.isNullable_body]
    exact id
  exact ⟨turn rearranged, turn rearranged.symm⟩

theorem nullableRules_eq (rearranged : Rearranged g h) :
    (fun n => decide (n ∈ h.nullableRules)) = fun n => decide (n ∈ g.nullableRules) :=
  funext fun _ => decide_eq_decide.mpr rearranged.mem_nullableRules.symm

theorem ruleNames_eq (rearranged : Rearranged g h) :
    (fun n => decide (n ∈ h.ruleNames)) = fun n => decide (n ∈ g.ruleNames) :=
  funext fun _ => decide_eq_decide.mpr rearranged.ruleNames_iff.symm

theorem callsOf_leftCallees (rearranged : Rearranged g h) (name : String) :
    callsOf h.leftCallees name = callsOf g.leftCallees name := by
  cases found : g.rule? name with
  | some r =>
    obtain ⟨r', found', _⟩ := rearranged.exists_rule? found
    rw [Grammar.callsOf_leftCallees found, Grammar.callsOf_leftCallees found', ← Grammar.body_eq_of_rule? found,
      ← Grammar.body_eq_of_rule? found', Goal.callees, Goal.callees, rearranged.nullableRules_eq,
        rearranged.ruleNames_eq,
      rearranged.leftCallees_body]
  | none =>
    have found' := rearranged.rule?_eq_none found
    rw [Grammar.rule?] at found found'
    rw [callsOf, callsOf, Grammar.leftCallees, Grammar.leftCallees, Grammar.lookup_eq_map_find?,
      Grammar.lookup_eq_map_find?, found, found']
    rfl

theorem leftCalls (rearranged : Rearranged g h) : h.LeftCalls = g.LeftCalls := by
  funext caller callee
  rw [Grammar.LeftCalls, Grammar.LeftCalls, rearranged.callsOf_leftCallees]

theorem recursionOf (rearranged : Rearranged g h) (name : String) :
    LeftRecursion.recursionOf h.leftCallees (cyclesOf h.leftCallees) name =
      LeftRecursion.recursionOf g.leftCallees (cyclesOf g.leftCallees) name := by
  cases here : LeftRecursion.recursionOf g.leftCallees (cyclesOf g.leftCallees) name with
  | none => rwa [recursionOf_eq_none_iff, rearranged.leftCalls, ← recursionOf_eq_none_iff]
  | direct => rwa [recursionOf_eq_direct_iff, rearranged.leftCalls, ← recursionOf_eq_direct_iff]
  | indirect => rwa [recursionOf_eq_indirect_iff, rearranged.leftCalls, ← recursionOf_eq_indirect_iff]

theorem cycleSets (rearranged : Rearranged g h) :
    LeftRecursion.cycleSets (cyclesOf h.leftCallees) = LeftRecursion.cycleSets (cyclesOf g.leftCallees) := by
  rw [cycleSets_eq, cycleSets_eq, rearranged.leftCalls]

theorem mem_recursiveRules (rearranged : Rearranged g h) : name ∈ g.recursiveRules ↔ name ∈ h.recursiveRules := by
  rw [mem_recursiveRules_iff, mem_recursiveRules_iff, rearranged.leftCalls]

theorem joinsStartable (rearranged : Rearranged g h) (startable : String → Bool) (name : String) :
    LeftRecursion.joinsStartable h h.nullableRules h.recursiveRules startable name =
      LeftRecursion.joinsStartable g g.nullableRules g.recursiveRules startable name := by
  have counted : countsOn h.recursiveRules startable = countsOn g.recursiveRules startable := by
    funext n
    simp only [countsOn, rearranged.mem_recursiveRules]
  rw [LeftRecursion.joinsStartable, LeftRecursion.joinsStartable, rearranged.canStart_body, rearranged.nullableRules_eq,
    counted]

theorem stuck (rearranged : Rearranged g h) (stuck : h.Stuck name) : g.Stuck name := by
  refine ⟨rearranged.mem_recursiveRules.mpr stuck.1, fun startable => stuck.2 ?_⟩
  refine (least_startableRules g).mem_of_mem (least_startableRules h) (fun startable name => ?_)
    (fun _ => rearranged.mem_recursiveRules.mp) startable
  rw [rearranged.joinsStartable]
  exact id

end Rearranged

namespace LeftRecursion

variable {g h : Grammar}

theorem exists_ofGrammar (accepted : ¬ ∃ e, ofGrammar g = .error e) : ∃ l, ofGrammar g = .ok l := by
  cases analysed : ofGrammar g with
  | ok l => exact ⟨l, rfl⟩
  | error e => exact absurd ⟨e, analysed⟩ accepted

theorem of_eq_ite {l : LeftRecursion} (analysed : ofGrammar g = .ok l) (name : String) :
    l.of name = if name ∈ g.ruleNames then recursionOf g.leftCallees (cyclesOf g.leftCallees) name else .none := by
  unfold of
  rw [(parts_of_ofGrammar analysed).1, Graph.lookup_map_self]
  split <;> rfl

/-- The rules that can match nothing, and the members of cycles that can start, are the least sets that hold every name
that their bodies lead to, and there are no more passes that add to them than there are rules. So nothing that
the analysis finds out depends on the order of the rules, or on that of the productions of a rule. -/
theorem least_in_any_order :
    (∀ g : Grammar,
      Saturation.Least (fun nullable name => (g.body name).isNullable nullable) g.ruleNames g.nullableRules ∧
      (∃ passes ≤ g.rules.length,
        Saturation.EndsWith (fun nullable name => (g.body name).isNullable nullable) g.ruleNames
          g.nullableRules passes) ∧
      Saturation.Least (joinsStartable g g.nullableRules g.recursiveRules) g.recursiveRules
        (startableRules g (cyclesOf g.leftCallees)) ∧
      ∃ passes ≤ g.rules.length,
        Saturation.EndsWith (joinsStartable g g.nullableRules g.recursiveRules) g.recursiveRules
        (startableRules g (cyclesOf g.leftCallees)) passes) ∧
    ∀ g h : Grammar, Rearranged g h →
      (∀ name, h.isNullable name = g.isNullable name) ∧
      (∀ name, callsOf h.leftCallees name = callsOf g.leftCallees name) ∧
      (∀ l, ofGrammar g = .ok l → ∃ l', ofGrammar h = .ok l' ∧ (∀ name, l'.of name = l.of name) ∧
        cycleSets l'.cycles = cycleSets l.cycles ∧ ∀ name, callsOf l'.calls name = callsOf l.calls name) ∧
      ∀ e, ofGrammar g = .error e → e.kind = .noBaseCase ∧ ∃ e', ofGrammar h = .error e' ∧ e'.kind = .noBaseCase := by
  refine ⟨fun g => ?_, fun g h rearranged => ?_⟩
  · obtain ⟨nullable, fewNullable, endsNullable⟩ :=
      Saturation.exists_endsWith (fun nullable name => (g.body name).isNullable nullable) g.ruleNames
    obtain ⟨startable, fewStartable, endsStartable⟩ :=
      Saturation.exists_endsWith (joinsStartable g g.nullableRules g.recursiveRules) g.recursiveRules
    rw [g.length_ruleNames] at fewNullable
    exact ⟨g.least_nullableRules, ⟨nullable, fewNullable, endsNullable⟩, least_startableRules g, startable,
      Nat.le_trans fewStartable (length_recursiveRules_le g), endsStartable⟩
  · have verdict : (∃ e, ofGrammar g = .error e) ↔ ∃ e, ofGrammar h = .error e := by
      rw [exists_error_iff_stuck, exists_error_iff_stuck]
      exact exists_congr fun name => ⟨rearranged.symm.stuck, rearranged.stuck⟩
    have kind {g : Grammar} {e : GrammarError} (refused : ofGrammar g = .error e) : e.kind = .noBaseCase :=
      (checkCycles_eq_error (ofGrammar_eq_error_iff.mp refused)).1
    refine ⟨fun name => decide_eq_decide.mpr rearranged.mem_nullableRules.symm, rearranged.callsOf_leftCallees,
      fun l analysed => ?_, fun e refused => ?_⟩
    · have accepted : ¬ ∃ e, ofGrammar h = .error e := by
        rw [← verdict, analysed]
        exact nofun
      obtain ⟨l', analysed'⟩ := exists_ofGrammar accepted
      obtain ⟨_, cycles, calls⟩ := parts_of_ofGrammar analysed
      obtain ⟨_, cycles', calls'⟩ := parts_of_ofGrammar analysed'
      refine ⟨l', analysed', fun name => ?_, ?_, fun name => ?_⟩
      · rw [of_eq_ite analysed, of_eq_ite analysed', rearranged.recursionOf, if_congr rearranged.ruleNames_iff rfl rfl]
      · rw [cycles, cycles', rearranged.cycleSets]
      · rw [calls, calls', rearranged.callsOf_leftCallees]
    · obtain ⟨e', refused'⟩ := verdict.mp ⟨e, refused⟩
      exact ⟨kind refused, e', refused', kind refused'⟩

def braidedBack : Grammar where
  rules := braided.rules.reverse.map fun r => { r with productions := r.productions.reverse }
  tokens := []
  states := []
  name := "braided"
  distinctRules := by decide
  distinctTokens := Grammar.distinctTokens_nil
  disjoint := by decide
  distinctInStates := Grammar.distinctInStates_nil

theorem braided_in_any_order :
    Rearranged braided braidedBack ∧ ∃ l l', ofGrammar braided = .ok l ∧ ofGrammar braidedBack = .ok l' ∧
    l'.of "b" = .indirect ∧ cycleSets l'.cycles = cycleSets [["list"], ["a", "b"]] := by
  have rearranged : Rearranged braided braidedBack := by
    refine ⟨braided.rules.reverse, (List.reverse_perm _).symm, List.forall₂_map_right_iff.mpr ?_⟩
    exact List.forall₂_same.mpr fun r _ => ⟨rfl, (List.reverse_perm _).symm⟩
  have analysed : ∃ l, ofGrammar braided = .ok l ∧ l.cycles = [["list"], ["a", "b"]] ∧ l.of "b" = .indirect :=
    ⟨_, rfl, by decide, by decide⟩
  obtain ⟨l, analysed, cycles, indirect⟩ := analysed
  obtain ⟨_, _, accepted, _⟩ := least_in_any_order.2 braided braidedBack rearranged
  obtain ⟨l', analysed', recursion, sets, _⟩ := accepted l analysed
  exact ⟨rearranged, l, l', analysed, analysed', (recursion "b").trans indirect, sets.trans (by rw [cycles])⟩

end LeftRecursion

end Packrat
