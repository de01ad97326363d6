import Packrat.LeftRecursion.Unknown
import Packrat.Proofs.Grammar
import Packrat.Proofs.LeftRecursion.Saturation

namespace Packrat

namespace Expr

mutual
def fill (d : Expr) : Expr → Expr
  | .literal t => .literal t
  | .oneOf set => .oneOf set
  | .reference name => .reference name
  | .sequence items => .sequence (fillAll d items)
  | .choice alternatives => .choice (fillAll d alternatives)
  | .optional item => .optional (fill d item)
  | .repetition atLeastOnce item => .repetition atLeastOnce (fill d item)
  | .bind name item => .bind name (fill d item)
  | .ahead item => .ahead (fill d item)
  | .notAhead item => .notAhead (fill d item)
  | .unknown _ => d

def fillAll (d : Expr) : List Expr → List Expr
  | [] => []
  | e :: es => fill d e :: fillAll d es
end

section

variable {nullable isRule startable : String → Bool} (d : Expr)

mutual
theorem isNullable_fill :
    ∀ e : Expr, e.obstacleToNullable nullable = none → (fill d e).isNullable nullable = e.isNullable nullable
  | .literal _, _ | .oneOf _, _ | .reference _, _ | .optional _, _ | .ahead _, _ | .notAhead _, _ => by
    simp only [fill, isNullable]
  | .sequence items, free => allNullable_fill items free
  | .choice alternatives, free => anyNullable_fill alternatives free
  | .repetition false item, _ => by simp only [fill, isNullable, Bool.not_false, Bool.true_or]
  | .repetition true item, free => by
    simp only [fill, isNullable, isNullable_fill item free]
  | .bind _ item, free => isNullable_fill item free

theorem allNullable_fill : ∀ es : List Expr, obstacleToAllNullable nullable es = none →
    allNullable nullable (fillAll d es) = allNullable nullable es
  | [], _ => rfl
  | e :: es, free => by
    obtain ⟨first, rest⟩ := Option.or_eq_none_iff.mp free
    rw [fillAll, allNullable, allNullable, isNullable_fill e first]
    by_cases goes : e.isNullable nullable = true
    · rw [if_pos goes] at rest
      rw [allNullable_fill es rest]
    · rw [Bool.eq_false_iff.mpr goes, Bool.false_and, Bool.false_and]

theorem anyNullable_fill : ∀ es : List Expr, obstacleToAnyNullable nullable es = none →
    anyNullable nullable (fillAll d es) = anyNullable nullable es
  | [], _ => rfl
  | e :: es, free => by
    obtain ⟨first, rest⟩ := Option.or_eq_none_iff.mp free
    rw [fillAll, anyNullable, anyNullable, isNullable_fill e first]
    by_cases stops : e.isNullable nullable = true
    · rw [stops, Bool.true_or, Bool.true_or]
    · rw [if_neg stops] at rest
      rw [anyNullable_fill es rest]
end

mutual
theorem leftCallees_fill : ∀ e : Expr, e.obstacleToCallees nullable = none →
    (fill d e).leftCallees nullable isRule = e.leftCallees nullable isRule
  | .literal _, _ | .oneOf _, _ | .reference _, _ => by simp only [fill]
  | .sequence items, free => sequenceCallees_fill items free
  | .choice alternatives, free => choiceCallees_fill alternatives free
  | .optional item, free | .repetition _ item, free | .bind _ item, free | .ahead item, free | .notAhead item, free =>
    leftCallees_fill item free

theorem sequenceCallees_fill : ∀ es : List Expr, obstacleToSequenceCallees nullable es = none →
    sequenceCallees nullable isRule (fillAll d es) = sequenceCallees nullable isRule es
  | [], _ => rfl
  | e :: es, free => by
    obtain ⟨here, rest⟩ := Option.or_eq_none_iff.mp free
    obtain ⟨first, known⟩ := Option.or_eq_none_iff.mp here
    rw [fillAll, sequenceCallees, sequenceCallees, isNullable_fill d e known, leftCallees_fill e first]
    split
    · next goes =>
      rw [if_pos goes] at rest
      rw [sequenceCallees_fill es rest]
    · rfl

theorem choiceCallees_fill : ∀ es : List Expr, obstacleToChoiceCallees nullable es = none →
    choiceCallees nullable isRule (fillAll d es) = choiceCallees nullable isRule es
  | [], _ => rfl
  | e :: es, free => by
    obtain ⟨first, rest⟩ := Option.or_eq_none_iff.mp free
    rw [fillAll, choiceCallees, choiceCallees, leftCallees_fill e first, choiceCallees_fill es rest]
end

mutual
theorem canStart_fill : ∀ e : Expr, e.obstacleToStart nullable startable = none →
    (fill d e).canStart nullable startable = e.canStart nullable startable
  | .literal _, _ | .oneOf _, _ | .reference _, _ | .optional _, _ | .notAhead _, _ => by simp only [fill, canStart]
  | .sequence items, free => sequenceCanStart_fill items free
  | .choice alternatives, free => anyCanStart_fill alternatives free
  | .repetition false item, _ => by simp only [fill, canStart, Bool.not_false, Bool.true_or]
  | .repetition true item, free => by simp only [fill, canStart, canStart_fill item free]
  | .bind _ item, free | .ahead item, free => canStart_fill item free

theorem sequenceCanStart_fill : ∀ es : List Expr, obstacleToSequenceStart nullable startable es = none →
    sequenceCanStart nullable startable (fillAll d es) = sequenceCanStart nullable startable es
  | [], _ => rfl
  | e :: es, free => by
    obtain ⟨first, rest⟩ := Option.or_eq_none_iff.mp free
    rw [fillAll, sequenceCanStart, sequenceCanStart, canStart_fill e first]
    by_cases starts : e.canStart nullable startable = true
    · rw [if_pos starts] at rest
      obtain ⟨known, rest⟩ := Option.or_eq_none_iff.mp rest
      rw [isNullable_fill d e known]
      by_cases goes : e.isNullable nullable = true
      · rw [if_pos goes] at rest
        rw [sequenceCanStart_fill es rest]
      · rw [Bool.eq_false_iff.mpr goes, Bool.not_false, Bool.true_or, Bool.true_or]
    · rw [Bool.eq_false_iff.mpr starts, Bool.false_and, Bool.false_and]

theorem anyCanStart_fill : ∀ es : List Expr, obstacleToAnyStart nullable startable es = none →
    anyCanStart nullable startable (fillAll d es) = anyCanStart nullable startable es
  | [], _ => rfl
  | e :: es, free => by
    obtain ⟨first, rest⟩ := Option.or_eq_none_iff.mp free
    rw [fillAll, anyCanStart, anyCanStart, canStart_fill e first]
    by_cases stops : e.canStart nullable startable = true
    · rw [stops, Bool.true_or, Bool.true_or]
    · rw [if_neg stops] at rest
      rw [anyCanStart_fill es rest]
end

end

mutual
def unknowns : Expr → List String
  | .literal _ | .oneOf _ | .reference _ => []
  | .sequence items | .choice items => allUnknowns items
  | .optional item | .repetition _ item | .bind _ item | .ahead item | .notAhead item => unknowns item
  | .unknown shown => [shown]

def allUnknowns : List Expr → List String
  | [] => []
  | e :: es => unknowns e ++ allUnknowns es
end

mutual
theorem unknowns_of_isKnown : ∀ {e : Expr}, e.isKnown = true → e.unknowns = []
  | .literal _, _ | .oneOf _, _ | .reference _, _ => rfl
  | .sequence items, known | .choice items, known => allUnknowns_of_allKnown items known
  | .optional item, known | .repetition _ item, known | .bind _ item, known | .ahead item, known
  | .notAhead item, known => unknowns_of_isKnown (e := item) known

theorem allUnknowns_of_allKnown : ∀ es : List Expr, allKnown es = true → allUnknowns es = []
  | [], _ => rfl
  | e :: es, known => by
    obtain ⟨first, rest⟩ := Bool.and_eq_true_iff.mp known
    rw [allUnknowns, unknowns_of_isKnown first, allUnknowns_of_allKnown es rest]
    rfl
end

section

variable {nullable startable : String → Bool} {shown : String}

mutual
theorem mem_unknowns_of_nullable : ∀ e : Expr, e.obstacleToNullable nullable = some shown → shown ∈ e.unknowns
  | .sequence items, here => mem_allUnknowns_of_allNullable items here
  | .choice alternatives, here => mem_allUnknowns_of_anyNullable alternatives here
  | .repetition true item, here | .bind _ item, here => mem_unknowns_of_nullable item here
  | .unknown _, here => by
    cases here
    exact List.mem_cons_self

theorem mem_allUnknowns_of_allNullable :
    ∀ es : List Expr, obstacleToAllNullable nullable es = some shown → shown ∈ allUnknowns es
  | e :: es, here => by
    rcases Option.or_eq_some_iff.mp here with first | ⟨_, later⟩
    · exact List.mem_append_left _ (mem_unknowns_of_nullable e first)
    · split at later
      · exact List.mem_append_right _ (mem_allUnknowns_of_allNullable es later)
      · cases later

theorem mem_allUnknowns_of_anyNullable :
    ∀ es : List Expr, obstacleToAnyNullable nullable es = some shown → shown ∈ allUnknowns es
  | e :: es, here => by
    rcases Option.or_eq_some_iff.mp here with first | ⟨_, later⟩
    · exact List.mem_append_left _ (mem_unknowns_of_nullable e first)
    · split at later
      · cases later
      · exact List.mem_append_right _ (mem_allUnknowns_of_anyNullable es later)
end

mutual
theorem mem_unknowns_of_callees : ∀ e : Expr, e.obstacleToCallees nullable = some shown → shown ∈ e.unknowns
  | .sequence items, here => mem_allUnknowns_of_sequenceCallees items here
  | .choice alternatives, here => mem_allUnknowns_of_choiceCallees alternatives here
  | .optional item, here | .repetition _ item, here | .bind _ item, here | .ahead item, here | .notAhead item, here =>
    mem_unknowns_of_callees item here
  | .unknown _, here => by
    cases here
    exact List.mem_cons_self

theorem mem_allUnknowns_of_sequenceCallees : ∀ es : List Expr, obstacleToSequenceCallees nullable es = some shown →
    shown ∈ allUnknowns es
  | e :: es, here => by
    rcases Option.or_eq_some_iff.mp here with first | ⟨_, later⟩
    · rcases Option.or_eq_some_iff.mp first with called | ⟨_, asked⟩
      · exact List.mem_append_left _ (mem_unknowns_of_callees e called)
      · exact List.mem_append_left _ (mem_unknowns_of_nullable e asked)
    · split at later
      · exact List.mem_append_right _ (mem_allUnknowns_of_sequenceCallees es later)
      · cases later

theorem mem_allUnknowns_of_choiceCallees : ∀ es : List Expr, obstacleToChoiceCallees nullable es = some shown →
    shown ∈ allUnknowns es
  | e :: es, here => by
    rcases Option.or_eq_some_iff.mp here with first | ⟨_, later⟩
    · exact List.mem_append_left _ (mem_unknowns_of_callees e first)
    · exact List.mem_append_right _ (mem_allUnknowns_of_choiceCallees es later)
end

mutual
theorem mem_unknowns_of_start : ∀ e : Expr, e.obstacleToStart nullable startable = some shown → shown ∈ e.unknowns
  | .sequence items, here => mem_allUnknowns_of_sequenceStart items here
  | .choice alternatives, here => mem_allUnknowns_of_anyStart alternatives here
  | .repetition true item, here | .bind _ item, here | .ahead item, here => mem_unknowns_of_start item here
  | .unknown _, here => by
    cases here
    exact List.mem_cons_self

theorem mem_allUnknowns_of_sequenceStart :
    ∀ es : List Expr, obstacleToSequenceStart nullable startable es = some shown →
    shown ∈ allUnknowns es
  | e :: es, here => by
    rcases Option.or_eq_some_iff.mp here with first | ⟨_, later⟩
    · exact List.mem_append_left _ (mem_unknowns_of_start e first)
    · split at later
      · rcases Option.or_eq_some_iff.mp later with asked | ⟨_, later⟩
        · exact List.mem_append_left _ (mem_unknowns_of_nullable e asked)
        · split at later
          · exact List.mem_append_right _ (mem_allUnknowns_of_sequenceStart es later)
          · cases later
      · cases later

theorem mem_allUnknowns_of_anyStart : ∀ es : List Expr, obstacleToAnyStart nullable startable es = some shown →
    shown ∈ allUnknowns es
  | e :: es, here => by
    rcases Option.or_eq_some_iff.mp here with first | ⟨_, later⟩
    · exact List.mem_append_left _ (mem_unknowns_of_start e first)
    · split at later
      · cases later
      · exact List.mem_append_right _ (mem_allUnknowns_of_anyStart es later)
end

end

end Expr

namespace Grammar

variable {g : Grammar}

theorem unknowns_body (known : g.isKnown = true) {r : Rule} (listed : r ∈ g.rules) : r.body.unknowns = [] := by
  have each := List.all_eq_true.mp (List.all_eq_true.mp known r listed)
  rw [Rule.body, Expr.unknowns]
  generalize r.productions = productions at each
  induction productions with
  | nil => rfl
  | cons p rest ih =>
    obtain ⟨first, rest⟩ := List.forall_mem_cons.mp each
    rw [List.map_cons, Expr.allUnknowns, Expr.unknowns, Expr.allUnknowns_of_allKnown _ first, ih rest]
    rfl

theorem unknowns_body_name (known : g.isKnown = true) (name : String) : (g.body name).unknowns = [] := by
  unfold body
  cases found : g.rule? name with
  | none => rfl
  | some r => exact unknowns_body known (mem_of_rule? found)

theorem nullableRules_fill (d : Expr) (free : g.obstacleToNullable = none) :
    Saturation.saturate (fun nullable name => (Expr.fill d (g.body name)).isNullable nullable) g.ruleNames =
      g.nullableRules := by
  refine Saturation.saturate_congr fun asked listed => ?_
  exact Expr.isNullable_fill d _ (List.findSome?_eq_none_iff.mp free asked listed)

theorem leftCallees_fill (d : Expr) (isRule : String → Bool) (free : g.obstacleToCallees = none) {r : Rule}
    (listed : r ∈ g.rules) :
    (Expr.fill d r.body).leftCallees (· ∈ g.nullableRules) isRule = r.body.leftCallees (· ∈ g.nullableRules) isRule :=
  Expr.leftCallees_fill d _ (List.findSome?_eq_none_iff.mp free r listed)

end Grammar

namespace LeftRecursion

variable {g : Grammar}

theorem startableRules_fill (d : Expr) (cycles : List (List String)) (free : obstacleToStart g cycles = none) :
    Saturation.saturate (fun startable name => (Expr.fill d (g.body name)).canStart (· ∈ g.nullableRules)
      (countsOn cycles.flatten startable)) cycles.flatten = startableRules g cycles := by
  refine Saturation.saturate_congr fun asked listed => ?_
  exact Expr.canStart_fill d _ (List.findSome?_eq_none_iff.mp free asked listed)

theorem obstacles_eq (g : Grammar) :
    obstacles g = (g.obstacleToNullable, g.obstacleToCallees.or (obstacleToStart g (cyclesOf g.leftCallees))) := by
  unfold obstacles
  split
  · next known =>
    -- What stands in the way is something unknown, and there is nothing of the kind.
    have none_of : ∀ {found : Option String} {e : Expr}, e.unknowns = [] →
      (∀ shown, found = some shown → shown ∈ e.unknowns) →
        found = none := by
      intro found e nothing within
      cases found with
      | none => rfl
      | some shown => exact absurd (nothing ▸ within shown rfl) List.not_mem_nil
    have toNullable : g.obstacleToNullable = none := List.findSome?_eq_none_iff.mpr fun asked _ =>
      none_of (Grammar.unknowns_body_name known asked.2) fun _ => Expr.mem_unknowns_of_nullable _
    have toCallees : g.obstacleToCallees = none := List.findSome?_eq_none_iff.mpr fun r listed =>
      none_of (Grammar.unknowns_body known listed) fun _ => Expr.mem_unknowns_of_callees _
    have toStart : obstacleToStart g (cyclesOf g.leftCallees) = none := List.findSome?_eq_none_iff.mpr fun asked _ =>
      none_of (Grammar.unknowns_body_name known asked.2) fun _ => Expr.mem_unknowns_of_start _
    rw [toNullable, toCallees, toStart]
    rfl
  · rfl

end LeftRecursion

end Packrat
