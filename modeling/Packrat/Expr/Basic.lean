import Packrat.CharClass

namespace Packrat

inductive Expr where
  | literal (text : String)
  | oneOf (set : CharClass)
  | reference (name : String)
  | sequence (items : List Expr)
  | choice (alternatives : List Expr)
  | optional (item : Expr)
  | repetition (atLeastOnce : Bool) (item : Expr)
  | bind (name : String) (item : Expr)
  | ahead (item : Expr)
  | notAhead (item : Expr)
  /-- Something that was put where an expression belongs, as it is shown. It never matches. -/
  | unknown (shown : String)

namespace Expr

mutual
def same : Expr → Expr → Bool
  | .literal a, .literal b => a == b
  | .oneOf a, .oneOf b => a.same b
  | .reference a, .reference b => a == b
  | .sequence as, .sequence bs => sameAll as bs
  | .choice as, .choice bs => sameAll as bs
  | .optional a, .optional b => same a b
  | .repetition m a, .repetition n b => m == n && same a b
  | .bind m a, .bind n b => m == n && same a b
  | .ahead a, .ahead b => same a b
  | .notAhead a, .notAhead b => same a b
  | .unknown a, .unknown b => a == b
  | _, _ => false

def sameAll : List Expr → List Expr → Bool
  | [], [] => true
  | a :: as, b :: bs => same a b && sameAll as bs
  | _, _ => false
end

mutual
def text : Expr → String
  | .literal t => Text.quote t
  | .oneOf set => set.text
  | .reference name => name
  | .sequence items => "(" ++ " ".intercalate (texts items) ++ ")"
  | .choice alternatives => "(" ++ " | ".intercalate (texts alternatives) ++ ")"
  | .optional item => text item ++ "?"
  | .repetition atLeastOnce item => text item ++ (if atLeastOnce then "+" else "*")
  | .bind name item => name ++ ":" ++ text item
  | .ahead item => "&" ++ text item
  | .notAhead item => "!" ++ text item
  | .unknown shown => shown

def texts : List Expr → List String
  | [] => []
  | e :: es => text e :: texts es
end

mutual
def unshowable? : Expr → Option Unshowable
  | .literal _ | .reference _ | .unknown _ => none
  | .oneOf set => set.unshowable?
  | .sequence items | .choice items => firstUnshowable? items
  | .optional item | .repetition _ item | .bind _ item | .ahead item | .notAhead item =>
    unshowable? item

def firstUnshowable? : List Expr → Option Unshowable
  | [] => none
  | e :: es => (unshowable? e).or (firstUnshowable? es)
end

mutual
def isKnown : Expr → Bool
  | .literal _ | .oneOf _ | .reference _ => true
  | .sequence items | .choice items => allKnown items
  | .optional item | .repetition _ item | .bind _ item | .ahead item | .notAhead item => isKnown item
  | .unknown _ => false

def allKnown : List Expr → Bool
  | [] => true
  | e :: es => isKnown e && allKnown es
end

mutual
/-- The items of a sequence with the sequences among them laid open, however deep. -/
def laidOpen : Expr → List Expr
  | .sequence items => allLaidOpen items
  | e => [e]

def allLaidOpen : List Expr → List Expr
  | [] => []
  | e :: es => laidOpen e ++ allLaidOpen es
end

mutual
def hasBinding : Expr → Bool
  | .bind _ _ => true
  | .sequence items | .choice items => anyHasBinding items
  | .optional item | .repetition _ item | .ahead item | .notAhead item => hasBinding item
  | .literal _ | .oneOf _ | .reference _ | .unknown _ => false

def anyHasBinding : List Expr → Bool
  | [] => false
  | e :: es => hasBinding e || anyHasBinding es
end

end Expr

end Packrat
