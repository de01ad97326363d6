import Packrat.Expr.Basic

namespace Packrat

namespace Expr

mutual
def isSignificant : Expr → Bool
  | .reference _ | .bind _ _ => true
  | .sequence items | .choice items => anySignificant items
  | .optional item | .repetition _ item => isSignificant item
  | .literal _ | .oneOf _ | .ahead _ | .notAhead _ | .unknown _ => false

def anySignificant : List Expr → Bool
  | [] => false
  | e :: es => isSignificant e || anySignificant es
end

mutual
/-- Whether an expression that is not significant has no value either. The alternatives of a choice
agree, so the first one decides. -/
def isVoid : Expr → Bool
  | .ahead _ | .notAhead _ => true
  | .sequence items => allVoid items
  | .choice alternatives => firstVoid alternatives
  | .optional item | .repetition _ item => isVoid item
  | .literal _ | .oneOf _ | .reference _ | .bind _ _ | .unknown _ => false

def allVoid : List Expr → Bool
  | [] => true
  | e :: es => isVoid e && allVoid es

def firstVoid : List Expr → Bool
  | [] => false
  | e :: _ => isVoid e
end

def contributing (items : List Expr) : List Bool :=
  if anySignificant items then items.map isSignificant else items.map (!isVoid ·)

@[simp] theorem length_contributing (items : List Expr) :
    (contributing items).length = items.length := by
  unfold contributing
  split <;> simp

end Expr

def select {α : Type} : List Bool → List α → List α
  | true :: mask, x :: xs => x :: select mask xs
  | false :: mask, _ :: xs => select mask xs
  | _, _ => []

end Packrat
