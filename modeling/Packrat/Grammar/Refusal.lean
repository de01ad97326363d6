import Packrat.Expr.Basic
import Packrat.Grammar.Error

namespace Packrat

inductive Refusal where
  | grammar (e : GrammarError)
  | unknownExpression (shown : String)
  | emptyChoice
  | notShowable (why : Unshowable)
  deriving Repr, DecidableEq

def Refusal.message : Refusal → String
  | .grammar e => e.message
  | .unknownExpression shown => "Unknown expression " ++ shown
  | .emptyChoice => "There is no type for a choice between no alternatives"
  | .notShowable why => why.message

def Refusal.orText (unshowable : Option Unshowable) (text : String) : Except Refusal String :=
  match unshowable with
  | none => .ok text
  | some why => .error (.notShowable why)

def Expr.describe (e : Expr) : Except Refusal String := Refusal.orText e.unshowable? e.text

end Packrat
