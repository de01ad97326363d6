import Packrat.Proofs.LeftRecursion.Cycles
import Packrat.Proofs.Parse.Record

namespace Packrat

namespace Expr

section

variable {nullable startable : String → Bool}

theorem sequenceCanStart_append (first second : List Expr) :
    sequenceCanStart nullable startable (first ++ second) =
      (sequenceCanStart nullable startable first &&
        (!allNullable nullable first || sequenceCanStart nullable startable second)) := by
  induction first with
  | nil => simp [sequenceCanStart, allNullable]
  | cons e es ih =>
    simp only [List.cons_append, sequenceCanStart, allNullable, ih]
    cases canStart nullable startable e <;> cases isNullable nullable e <;> simp

mutual
theorem sequenceCanStart_laidOpen : ∀ e : Expr,
    sequenceCanStart nullable startable (laidOpen e) = canStart nullable startable e
  | .sequence items => by
    simp only [laidOpen, canStart]
    exact sequenceCanStart_allLaidOpen items
  | .literal _ | .oneOf _ | .reference _ | .choice _ | .optional _ | .repetition _ _ | .bind _ _
  | .ahead _ | .notAhead _ | .unknown _ => by
    simp [laidOpen, sequenceCanStart]

theorem sequenceCanStart_allLaidOpen : ∀ es : List Expr,
    sequenceCanStart nullable startable (allLaidOpen es) = sequenceCanStart nullable startable es
  | [] => rfl
  | e :: es => by
    rw [allLaidOpen, sequenceCanStart_append, sequenceCanStart_laidOpen e, sequenceCanStart_allLaidOpen es,
      allNullable_laidOpen, sequenceCanStart]
end

theorem anyCanStart_iff {es : List Expr} :
    anyCanStart nullable startable es = true ↔ ∃ e ∈ es, canStart nullable startable e = true := by
  induction es with
  | nil => simp [anyCanStart]
  | cons e es ih => simp [anyCanStart, ih]

end

section

variable {nullable isRule : String → Bool} {name : String}

mutual
theorem isRule_of_mem_leftCallees : ∀ e : Expr, name ∈ leftCallees nullable isRule e → isRule name = true
  | .literal _, called | .oneOf _, called | .unknown _, called => by simp [leftCallees] at called
  | .reference other, called => by
    simp only [leftCallees] at called
    split at called
    · next listed =>
      simp only [TextSet.mem_ofList, List.mem_singleton] at called
      exact called ▸ listed
    · simp at called
  | .sequence items, called => isRule_of_mem_sequenceCallees items called
  | .choice alternatives, called => isRule_of_mem_choiceCallees alternatives called
  | .optional item, called | .repetition _ item, called | .bind _ item, called | .ahead item, called
  | .notAhead item, called => isRule_of_mem_leftCallees item called

theorem isRule_of_mem_sequenceCallees : ∀ es : List Expr, name ∈ sequenceCallees nullable isRule es →
    isRule name = true
  | [], called => by simp [sequenceCallees] at called
  | e :: es, called => by
    rcases mem_sequenceCallees_cons.mp called with here | ⟨_, later⟩
    · exact isRule_of_mem_leftCallees e here
    · exact isRule_of_mem_sequenceCallees es later

theorem isRule_of_mem_choiceCallees : ∀ es : List Expr, name ∈ choiceCallees nullable isRule es →
    isRule name = true
  | [], called => by simp [choiceCallees] at called
  | e :: es, called => by
    simp only [choiceCallees, TextSet.mem_union] at called
    rcases called with here | later
    · exact isRule_of_mem_leftCallees e here
    · exact isRule_of_mem_choiceCallees es later
end

end

end Expr

namespace Grammar

open LeftRecursion

def recursiveRules (g : Grammar) : List String := (cyclesOf g.leftCallees).flatten

/-- A member of a cycle with no way to match that does not begin by calling back into a cycle. -/
def Stuck (g : Grammar) (name : String) : Prop :=
  name ∈ g.recursiveRules ∧ name ∉ startableRules g (cyclesOf g.leftCallees)

theorem mem_ruleNames_of_recursive {g : Grammar} {name : String} (member : name ∈ g.recursiveRules) :
    name ∈ g.ruleNames := by
  obtain ⟨cycle, listed, member⟩ := List.mem_flatten.mp member
  have node : name ∈ (LeftRecursion.graph g.leftCallees).nodes :=
    Graph.mem_nodes_of_component (List.mem_filter.mp listed).1 member
  rcases Graph.mem_nodes.mp node with caller | ⟨entry, listed, callee⟩
  · simpa [LeftRecursion.graph, leftCallees, ruleNames, Rule.names] using caller
  · obtain ⟨calls, known, rfl⟩ := List.mem_map.mp listed
    obtain ⟨r, _, rfl⟩ := List.mem_map.mp known
    simpa using Expr.isRule_of_mem_leftCallees r.body callee

def isReliable (g : Grammar) (name : String) : Bool :=
  countsOn g.recursiveRules (fun n => n ∈ startableRules g (cyclesOf g.leftCallees)) name

theorem isReliable_of_body {g : Grammar} {name : String}
    (starts : (g.body name).canStart (fun n => n ∈ g.nullableRules) g.isReliable = true) :
    g.isReliable name = true := by
  unfold isReliable countsOn
  by_cases member : name ∈ g.recursiveRules
  · have joined : name ∈ startableRules g (cyclesOf g.leftCallees) :=
      Saturation.mem_saturate_of_joins member starts
    simp [joined]
  · simp [member]

theorem isReliable_of_token {g : Grammar} {name : String} (noRule : g.rule? name = none) :
    g.isReliable name = true := by
  have outside : name ∉ g.recursiveRules := by
    intro member
    obtain ⟨r, listed, rfl⟩ := List.mem_map.mp (mem_ruleNames_of_recursive member)
    rw [rule?_of_mem listed] at noRule
    cases noRule
  simp [isReliable, countsOn, outside]

theorem not_isReliable {g : Grammar} {name : String} (stuck : g.Stuck name) : ¬ g.isReliable name = true := by
  simp [isReliable, countsOn, stuck.1, stuck.2]

end Grammar

def Goal.Starts (g : Grammar) (vs : List Value) : Goal → Prop
  | .expr e => e.canStart (fun n => n ∈ g.nullableRules) g.isReliable = true
  | .items es => Expr.sequenceCanStart (fun n => n ∈ g.nullableRules) g.isReliable es = true
  | .rounds item => vs ≠ [] → item.canStart (fun n => n ∈ g.nullableRules) g.isReliable = true

namespace TypedGrammar

variable {p : TypedGrammar} {input : Input} {goal : Goal} {i stop : Int} {vs : List Value} {name : String}

theorem Derives.starts (faithful : p.Faithful) (derived : p.Derives input goal i vs stop) :
    goal.Starts p.grammar vs := by
  induction derived with
  | literal | oneOf | absent | notAhead | nil => rfl
  | token noRule => exact Grammar.isReliable_of_token noRule
  | @rule name typed production i vs v stop known listed _ _ ih =>
    obtain ⟨r, found, describes⟩ := faithful known
    obtain ⟨source, member, reads⟩ := describes.production listed
    simp only [Goal.Starts, reads.1, Expr.sequenceCanStart_allLaidOpen] at ih
    refine Grammar.isReliable_of_body ?_
    rw [Grammar.body_eq_of_rule? found]
    exact Expr.anyCanStart_iff.mpr ⟨_, List.mem_map_of_mem member, ih⟩
  | sequence _ ih => exact ih
  | choice listed _ ih => exact Expr.anyCanStart_iff.mpr ⟨_, listed, ih⟩
  | present => rfl
  | @repetition atLeastOnce e i vs stop rounds enough ih =>
    simp only [Goal.Starts, Expr.canStart, Bool.or_eq_true, Bool.not_eq_true']
    cases atLeastOnce with
    | false => exact .inl rfl
    | true => exact .inr (ih (enough rfl))
  | bind _ ih | ahead _ ih => exact ih
  | cons _ _ first rest =>
    simp only [Goal.Starts, Expr.sequenceCanStart, Bool.and_eq_true, Bool.or_eq_true]
    exact ⟨first, .inr rest⟩
  | done => exact fun some => absurd rfl some
  | round _ _ first => exact fun _ => first

theorem not_matched_of_stuck (faithful : p.Faithful) (stuck : p.grammar.Stuck name) {s : Parse}
    (reached : Reached p input s) (depth : Nat) (i : Int) (room : Room) (v : Value) (stop : Int) :
    (p.callWithin input depth name i room s).1 ≠ .matched v stop := by
  intro matched
  have keeps := keeps_callWithin (complies_true i : p.Complies input _ i) depth name (fun _ => trivial) (Int.le_refl i)
  have ends := (keeps room s (.of_reached reached)).2
  rw [matched] at ends
  exact Grammar.not_isReliable stuck (Derives.starts faithful ends)

end TypedGrammar

namespace LeftRecursion

variable {g : Grammar} {startable : List String} {cycles : List (List String)}

theorem checkCycles_eq_error {e : GrammarError} (refused : checkCycles g startable cycles = .error e) :
    e.kind = .noBaseCase ∧ ∃ name, e.blamed = some name ∧ name ∈ cycles.flatten ∧ name ∉ startable := by
  induction cycles with
  | nil => cases refused
  | cons cycle rest ih =>
    simp only [checkCycles] at refused
    split at refused
    · next stuck found =>
      cases refused
      have blamed := List.find?_some found
      simp only [Bool.and_eq_true, decide_eq_true_eq] at blamed
      exact ⟨rfl, stuck, rfl, List.mem_flatten.mpr ⟨cycle, List.mem_cons_self, blamed.1⟩, blamed.2⟩
    · obtain ⟨kind, name, blamed, member, stuck⟩ := ih refused
      exact ⟨kind, name, blamed, List.mem_append_right _ member, stuck⟩

theorem exists_error_of_stuck {name : String} (known : name ∈ g.ruleNames) (member : name ∈ cycles.flatten)
    (stuck : name ∉ startable) : ∃ e, checkCycles g startable cycles = .error e := by
  induction cycles with
  | nil => cases member
  | cons cycle rest ih =>
    simp only [checkCycles]
    split
    · exact ⟨_, rfl⟩
    · next absent =>
      rcases List.mem_append.mp member with here | later
      · have := List.find?_eq_none.mp absent name known
        simp [here, stuck] at this
      · exact ih later

theorem ofGrammar_eq_error_iff {e : GrammarError} : ofGrammar g = .error e ↔
    checkCycles g (startableRules g (cyclesOf g.leftCallees)) (cyclesOf g.leftCallees) = .error e := by
  unfold ofGrammar
  dsimp only
  cases checkCycles g (startableRules g (cyclesOf g.leftCallees)) (cyclesOf g.leftCallees) with
  | error e' => exact ⟨fun refused => by cases refused; rfl, fun refused => by cases refused; rfl⟩
  | ok u => exact ⟨nofun, nofun⟩

end LeftRecursion

namespace TypedGrammar

/-- A grammar is refused for want of a base case just when a rule is stuck, such a rule is to blame, and
no call of one ever matches: not for any input, anywhere, in any state that a parse can come to. -/
theorem noBaseCase_iff_stuck {p : TypedGrammar} {actions : List (String × Action)}
    (accepted : Typing.typedRules p.grammar actions = .ok p.typedRules) :
    ((∃ e, LeftRecursion.ofGrammar p.grammar = .error e) ↔ ∃ name, p.grammar.Stuck name) ∧
    (∀ e, LeftRecursion.ofGrammar p.grammar = .error e →
      e.kind = .noBaseCase ∧ ∃ name, e.blamed = some name ∧ p.grammar.Stuck name) ∧
    ∀ name, p.grammar.Stuck name → ∀ input s, Reached p input s → ∀ depth i room v stop,
      (p.callWithin input depth name i room s).1 ≠ .matched v stop ∧
        (p.apply input name i room s).1 ≠ .matched v stop := by
  refine ⟨⟨fun ⟨e, refused⟩ => ?_, fun ⟨name, stuck⟩ => ?_⟩, fun e refused => ?_, ?_⟩
  · obtain ⟨_, name, _, stuck⟩ := LeftRecursion.checkCycles_eq_error (LeftRecursion.ofGrammar_eq_error_iff.mp refused)
    exact ⟨name, stuck⟩
  · obtain ⟨e, refused⟩ :=
      LeftRecursion.exists_error_of_stuck (Grammar.mem_ruleNames_of_recursive stuck.1) stuck.1 stuck.2
    exact ⟨e, LeftRecursion.ofGrammar_eq_error_iff.mpr refused⟩
  · exact LeftRecursion.checkCycles_eq_error (LeftRecursion.ofGrammar_eq_error_iff.mp refused)
  · intro name stuck input s reached depth i room v stop
    have faithful : p.Faithful := faithful_of_typedRules accepted
    exact ⟨not_matched_of_stuck faithful stuck reached depth i room v stop,
      not_matched_of_stuck faithful stuck reached _ i room v stop⟩

def baseless : Grammar where
  rules := [
    ⟨"a", [⟨[.reference "b", .literal "x"], none⟩, ⟨[.reference "a", .literal "y"], none⟩], none, true, none, ""⟩,
    ⟨"b", [⟨[.optional (.literal "q"), .reference "a", .literal "z"], none⟩], none, true, none, ""⟩]
  tokens := []
  states := []
  name := "baseless"
  distinctRules := by decide
  distinctTokens := Grammar.distinctTokens_nil
  disjoint := by decide
  distinctInStates := Grammar.distinctInStates_nil

theorem baseless_stuck : ∃ p : TypedGrammar, Typing.typedRules p.grammar [] = .ok p.typedRules ∧
    p.grammar.Stuck "b" ∧ (∃ e, LeftRecursion.ofGrammar p.grammar = .error e) ∧
    ∀ i v stop, (p.apply (.text #['q', 'q', 'z', 'x']) "b" i .unlimited {}).1 ≠ .matched v stop := by
  have accepted : ∃ rules, Typing.typedRules baseless [] = .ok rules := ⟨_, rfl⟩
  obtain ⟨rules, accepted⟩ := accepted
  have stuck : baseless.Stuck "b" := by
    unfold Grammar.Stuck
    decide +kernel
  obtain ⟨refused, _, never⟩ := noBaseCase_iff_stuck (p := ⟨baseless, rules⟩) accepted
  exact ⟨⟨baseless, rules⟩, accepted, stuck, refused.mpr ⟨"b", stuck⟩,
    fun i v stop => (never "b" stuck _ {} (.fresh []) 0 i .unlimited v stop).2⟩

end TypedGrammar

end Packrat
