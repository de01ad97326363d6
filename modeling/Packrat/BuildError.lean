namespace Packrat

inductive BuildError where
  | reversedSpan
  | oversizedSpan
  | notOneCharacter (count : Nat)
  | notAnExpression (shown : String)
  | badMinimum (minimum : Int)
  deriving Repr, DecidableEq

def BuildError.message : BuildError → String
  | .reversedSpan => "A span cannot end before it starts"
  | .oversizedSpan => "A span cannot hold so many code points"
  | .notOneCharacter count => s!"Expected a single character, got {count}"
  | .notAnExpression shown => "Expected an expression or a string, got " ++ shown
  | .badMinimum minimum => s!"Repeat minimum must be 0 or 1, not {minimum}"

end Packrat
