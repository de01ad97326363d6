import Packrat.Action
import Packrat.Expr.Binding
import Packrat.Typing.ValueType

namespace Packrat

/-- A name that an action is called with: the item whose value it is dug out of, and the way
there. -/
structure Binding where
  index : Nat
  name : String
  path : Path

/-- A production with the sequences among its items laid open. -/
structure TypedProduction where
  items : List Expr
  mask : List Bool
  bindings : List Binding
  action : Option Action
  type : ValueType

structure TypedRule where
  name : String
  type : ValueType
  productions : List TypedProduction
  errorName : Option String

namespace Binding

def value (b : Binding) (values : List Value) : Except Misfit Value :=
  match values[b.index]? with
  | some v => b.path.get v
  | none => .error (.tooFewParts (.list values))

end Binding

namespace TypedProduction

def gather (p : TypedProduction) (values : List Value) : Value := .gather (select p.mask values)

/-- The arguments for the action: the bindings if there are any, else the contributing values as one.
They fail only for values that do not have the form of the items. -/
def arguments (p : TypedProduction) (values : List Value) : Except Misfit Arguments :=
  if p.bindings.isEmpty then .ok (.positional (p.gather values))
  else do
    let bound ← p.bindings.mapM fun (b : Binding) => do return (b.name, ← b.value values)
    return .named bound

end TypedProduction

inductive NoValue where
  | fault (f : Fault)
  | misfit (m : Misfit)

def TypedProduction.value (p : TypedProduction) (values : List Value) : Except NoValue Value :=
  match p.action with
  | none => .ok (p.gather values)
  | some action => match p.arguments values with
    | .ok arguments => (action.run arguments).mapError .fault
    | .error m => .error (.misfit m)

end Packrat
