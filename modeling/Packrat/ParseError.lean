import Packrat.Text.Position
import Packrat.TextSet

namespace Packrat

inductive ParseError.Kind where
  | unexpectedSymbol
  | unexpectedEndOfInput
  | lexicalError
  | noBaseCase
  | nestedTooDeeply
  deriving Repr, DecidableEq

structure ParseError where
  kind : ParseError.Kind
  position : Position
  expected : TextSet := .empty
  found : Option String := none
  deriving DecidableEq

namespace ParseError

def summary (e : ParseError) : String :=
  let found := e.found.getD "None"
  match e.kind with
  | .unexpectedSymbol => "Unexpected " ++ found
  | .unexpectedEndOfInput => "Unexpected end of input"
  | .lexicalError => "No token matches " ++ found
  | .noBaseCase => "Left-recursive rule has no base case"
  | .nestedTooDeeply => "Input is nested too deeply"

def text (e : ParseError) : String :=
  match e.expected.toList with
  | [] => e.summary
  | [only] => e.summary ++ ", expected " ++ only
  | several => e.summary ++ ", expected one of " ++ ", ".intercalate several

def message (e : ParseError) : String := e.position.text ++ ": " ++ e.text

end ParseError

end Packrat
