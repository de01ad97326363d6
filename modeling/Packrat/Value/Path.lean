import Packrat.Value

namespace Packrat

/-- The parts that a value is made of, if it is of a kind that has parts. Those of a text are its
characters. -/
def Value.parts? : Value → Option (List Value)
  | .text t => some (t.toList.map fun c => .text (String.singleton c))
  | .list vs | .tuple vs => some vs
  | _ => Option.none

inductive Path where
  | whole
  | present (path : Path)
  | each (path : Path)
  | slot (index : Nat) (path : Path)

inductive Misfit where
  | tooFewParts (whole : Value)
  | nothingToChoose (whole : Value)
  | nothingToRepeat (whole : Value)

namespace Path

def get : Path → Value → Except Misfit Value
  | .whole, v => .ok v
  | .present _, .none => .ok .none
  | .present path, v => path.get v
  | .each path, v =>
    match v.parts? with
    | some parts => do return .list (← parts.mapM path.get)
    | none => .error (.nothingToRepeat v)
  | .slot index path, v =>
    match v.parts? with
    | some parts => match parts[index]? with
      | some part => path.get part
      | none => .error (.tooFewParts v)
    | none => .error (.nothingToChoose v)

end Path

end Packrat
