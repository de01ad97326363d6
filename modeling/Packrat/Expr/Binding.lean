import Packrat.Expr.Contribution
import Packrat.Value.Path

namespace Packrat.Expr

mutual
/-- The names bound in an expression and the paths to their values, in order of appearance. Whether an
alternative of a choice or a lookahead matched cannot be told from a value, so an expression of that
kind with a binding inside is handed back as an error. -/
def boundPaths : Expr → Except Expr (List (String × Path))
  | .bind name item => do
    let inner ← boundPaths item
    return (name, .whole) :: inner
  | .optional item => do
    let inner ← boundPaths item
    return inner.map fun (name, path) => (name, .present path)
  | .repetition _ item => do
    let inner ← boundPaths item
    return inner.map fun (name, path) => (name, .each path)
  | .sequence items =>
    let mask := contributing items
    itemPaths (1 < (select mask mask).length) mask 0 items
  | .choice alternatives =>
    if anyHasBinding alternatives then .error (.choice alternatives) else .ok []
  | .ahead item => if hasBinding item then .error (.ahead item) else .ok []
  | .notAhead item => if hasBinding item then .error (.notAhead item) else .ok []
  | .literal _ | .oneOf _ | .reference _ | .unknown _ => .ok []

def itemPaths (several : Bool) : List Bool → (slot : Nat) → List Expr →
    Except Expr (List (String × Path))
  | _, _, [] => .ok []
  | mask, slot, item :: items => do
    let inner ← boundPaths item
    let here := if several then inner.map fun (name, path) => (name, .slot slot path) else inner
    let rest ← itemPaths several mask.tail (if mask.head?.getD false then slot + 1 else slot) items
    return here ++ rest
end

end Packrat.Expr
