import Packrat.Parse.Basic
import Packrat.ParseError

namespace Packrat

abbrev Source := Option (List Char)

namespace Input

def sourceOr (input : Input) (source : Source) : Source :=
  match source, input with
  | some chars, _ => some chars
  | none, .text chars => some chars.toList
  | none, .tokens _ => none

def offsetAt (input : Input) (source : Source) (index : Nat) : Int :=
  match input with
  | .text _ => index
  | .tokens ts =>
    match ts[index]?, source with
    | some t, _ => t.start
    | none, some chars => chars.length
    | none, none => (ts.back?.map (·.stop)).getD 0

def positionOf (input : Input) (source : Source) (index offset : Int) : Position :=
  .ofOffset index offset (lineBreaksFrom 0 ((input.sourceOr source).getD []))

def position (input : Input) (source : Source) (index : Nat) : Position :=
  input.positionOf source index (input.offsetAt source index)

def shown? (input : Input) (index : Nat) : Option String :=
  match input with
  | .text chars => chars[index]?.map fun c => Text.quote (String.singleton c)
  | .tokens ts => ts[index]?.map fun t => t.kind ++ " " ++ Text.quote t.text

/-- The position of an index from either end. A text is its own source, so there the index is the
offset, whatever it is. -/
def positionFromEitherEnd? (input : Input) (source : Source) (index : Int) : Option Position :=
  match input with
  | .text _ => some (input.positionOf source index index)
  | .tokens ts => (placeOf? ts.size index).map fun i =>
      input.positionOf source index (input.offsetAt source i)

end Input

def Failures.error (f : Failures) (input : Input) (source : Source) : ParseError :=
  let index := f.furthest.toNat
  match input.shown? index with
  | none =>
    { kind := .unexpectedEndOfInput, position := input.position source index, expected := f.expected }
  | some found =>
    { kind := .unexpectedSymbol, position := input.position source index, expected := f.expected
      found := some found }

end Packrat
