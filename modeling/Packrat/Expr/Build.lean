import Packrat.Expr.Basic

namespace Packrat

inductive Operand where
  | expr (e : Expr)
  | text (t : String)

namespace Operand

def toExpr : Operand → Except BuildError Expr
  | .expr (.unknown shown) => .error (.notAnExpression shown)
  | .expr e => .ok e
  | .text t => .ok (.literal t)

def inside : Operand → Expr
  | .expr e => e
  | .text t => .literal t

def asIs : Operand → Expr
  | .expr e => e
  | .text t => .unknown (Text.quote t)

end Operand

namespace Expr

def sequenceItems : Expr → List Expr
  | .sequence items => items
  | e => [e]

def choiceAlternatives : Expr → List Expr
  | .choice alternatives => alternatives
  | e => [e]

def seq (es : List Expr) : Expr :=
  match es.flatMap sequenceItems with
  | [e] => e
  | items => .sequence items

def alt (es : List Expr) : Expr :=
  match es.flatMap choiceAlternatives with
  | [e] => e
  | alternatives => .choice alternatives

def seqOf (operands : List Operand) : Except BuildError Expr := do
  return seq (← operands.mapM Operand.toExpr)

def altOf (operands : List Operand) : Except BuildError Expr := do
  return alt (← operands.mapM Operand.toExpr)

def repeated (item : Expr) (minimum : Int) : Except BuildError Expr :=
  if minimum = 0 then .ok (.repetition false item)
  else if minimum = 1 then .ok (.repetition true item)
  else .error (.badMinimum minimum)

end Expr

end Packrat
