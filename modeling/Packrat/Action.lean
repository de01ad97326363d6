import Packrat.Value

namespace Packrat

inductive Fault where
  | raised (message : String)
  | tooDeep
  deriving Repr, DecidableEq

inductive Arguments where
  | named (bindings : List (String × Value))
  | positional (value : Value)

namespace Arguments

def value : Arguments → Value
  | .named bindings => .tuple (bindings.map (·.2))
  | .positional v => v

end Arguments

structure Action where
  label : String
  run : Arguments → Except Fault Value

structure ActionSpec where
  callable : Option Action := none
  name : Option String := none
  returns : Option String := none

end Packrat
