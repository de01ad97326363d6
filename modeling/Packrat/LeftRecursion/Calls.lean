import Packrat.Expr.Basic
import Packrat.TextSet

namespace Packrat.Expr

section Nullable

variable (nullable : String → Bool)

mutual
def isNullable : Expr → Bool
  | .literal t => t.isEmpty
  | .oneOf _ | .unknown _ => false
  | .reference name => nullable name
  | .sequence items => allNullable items
  | .choice alternatives => anyNullable alternatives
  | .optional _ | .ahead _ | .notAhead _ => true
  | .repetition atLeastOnce item => !atLeastOnce || isNullable item
  | .bind _ item => isNullable item

def allNullable : List Expr → Bool
  | [] => true
  | e :: es => isNullable e && allNullable es

def anyNullable : List Expr → Bool
  | [] => false
  | e :: es => isNullable e || anyNullable es
end

section LeftCalls

variable (isRule : String → Bool)

mutual
def leftCallees : Expr → TextSet
  | .literal _ | .oneOf _ | .unknown _ => .empty
  | .reference name => if isRule name then .ofList [name] else .empty
  | .sequence items => sequenceCallees items
  | .choice alternatives => choiceCallees alternatives
  | .optional item | .repetition _ item | .bind _ item | .ahead item | .notAhead item =>
    leftCallees item

def sequenceCallees : List Expr → TextSet
  | [] => .empty
  | e :: es =>
    if isNullable nullable e then (leftCallees e).union (sequenceCallees es) else leftCallees e

def choiceCallees : List Expr → TextSet
  | [] => .empty
  | e :: es => (leftCallees e).union (choiceCallees es)
end

end LeftCalls

section Start

variable (startable : String → Bool)

mutual
/-- Whether an expression can match without a left-recursive call that has no match yet, given the
rules whose calls can be counted on. -/
def canStart : Expr → Bool
  | .literal _ | .oneOf _ => true
  | .unknown _ => false
  | .reference name => startable name
  | .sequence items => sequenceCanStart items
  | .choice alternatives => anyCanStart alternatives
  | .optional _ | .notAhead _ => true
  | .repetition atLeastOnce item => !atLeastOnce || canStart item
  | .bind _ item | .ahead item => canStart item

def sequenceCanStart : List Expr → Bool
  | [] => true
  | e :: es => canStart e && (!isNullable nullable e || sequenceCanStart es)

def anyCanStart : List Expr → Bool
  | [] => false
  | e :: es => canStart e || anyCanStart es
end

end Start

end Nullable

end Packrat.Expr
