import Packrat.Expr.Basic

namespace Packrat.Expr

mutual
def references : Expr → List String
  | .literal _ | .oneOf _ | .unknown _ => []
  | .reference name => [name]
  | .sequence items => allReferences items
  | .choice alternatives => allReferences alternatives
  | .optional item | .repetition _ item | .bind _ item | .ahead item | .notAhead item => references item

def allReferences : List Expr → List String
  | [] => []
  | e :: es => references e ++ allReferences es
end

theorem mem_allReferences {name : String} {es : List Expr} :
    name ∈ allReferences es ↔ ∃ e ∈ es, name ∈ references e := by
  induction es with
  | nil => simp [allReferences]
  | cons e es ih => simp [allReferences, ih]

theorem allReferences_append (first second : List Expr) :
    allReferences (first ++ second) = allReferences first ++ allReferences second := by
  induction first with
  | nil => rfl
  | cons e es ih => rw [List.cons_append, allReferences, allReferences, ih, List.append_assoc]

mutual
theorem allReferences_laidOpen : ∀ e : Expr, allReferences (laidOpen e) = references e
  | .sequence items => by
    simp only [laidOpen, references]
    exact allReferences_allLaidOpen items
  | .literal _ | .oneOf _ | .reference _ | .choice _ | .optional _ | .repetition _ _ | .bind _ _
  | .ahead _ | .notAhead _ | .unknown _ => by
    simp [laidOpen, allReferences]

theorem allReferences_allLaidOpen : ∀ es : List Expr, allReferences (allLaidOpen es) = allReferences es
  | [] => rfl
  | e :: es => by
    rw [allLaidOpen, allReferences_append, allReferences_laidOpen e, allReferences_allLaidOpen es,
      allReferences]
end

mutual
def lookaheads : Expr → List Expr
  | .literal _ | .oneOf _ | .reference _ | .unknown _ => []
  | .sequence items => allLookaheads items
  | .choice alternatives => allLookaheads alternatives
  | .optional item | .repetition _ item | .bind _ item => lookaheads item
  | .ahead item => [.ahead item]
  | .notAhead item => [.notAhead item]

def allLookaheads : List Expr → List Expr
  | [] => []
  | e :: es => lookaheads e ++ allLookaheads es
end

end Packrat.Expr
