namespace Packrat

inductive GrammarError.Kind where
  | unresolvedReference
  | typeMismatch
  | noBaseCase
  | duplicateDefinition
  | duplicateBinding
  | unresolvedAction
  | invalidToken
  | misplacedBinding
  deriving Repr, DecidableEq

def GrammarError.Kind.text : GrammarError.Kind → String
  | .unresolvedReference => "unresolved reference"
  | .typeMismatch => "type mismatch"
  | .noBaseCase => "no base case"
  | .duplicateDefinition => "duplicate definition"
  | .duplicateBinding => "duplicate binding"
  | .unresolvedAction => "unresolved action"
  | .invalidToken => "invalid token"
  | .misplacedBinding => "misplaced binding"

structure GrammarError where
  kind : GrammarError.Kind
  text : String
  blamed : Option String := none
  deriving Repr, DecidableEq

def GrammarError.message (e : GrammarError) : String :=
  match e.blamed with
  | some name => e.kind.text ++ " in " ++ name ++ ": " ++ e.text
  | none => e.kind.text ++ ": " ++ e.text

end Packrat
