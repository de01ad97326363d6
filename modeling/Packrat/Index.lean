namespace Packrat

structure BeforeStart where
  deriving Repr, DecidableEq

def placeOf? (size : Nat) (index : Int) : Option Nat :=
  if 0 ≤ index then some index.toNat
  else if 0 ≤ size + index then some (size + index).toNat
  else none

theorem placeOf?_of_nonneg (size : Nat) {index : Int} (h : 0 ≤ index) :
    placeOf? size index = some index.toNat := if_pos h

def elementAt {α : Type} (xs : Array α) (index : Int) : Except BeforeStart (Option α) :=
  match placeOf? xs.size index with
  | some place => .ok xs[place]?
  | none => .error {}

theorem elementAt_of_nonneg {α : Type} (xs : Array α) {index : Int} (h : 0 ≤ index) :
    elementAt xs index = .ok xs[index.toNat]? := by
  simp [elementAt, placeOf?_of_nonneg, h]

/-- What there is to read from an index on. From a negative index one reads the end first, and then
everything. -/
def readFrom {α : Type} (xs : List α) (index : Int) : Except BeforeStart (List α) :=
  match placeOf? xs.length index with
  | some place => .ok (if 0 ≤ index then xs.drop place else xs.drop place ++ xs)
  | none => .error {}

theorem readFrom_of_nonneg {α : Type} (xs : List α) {index : Int} (h : 0 ≤ index) :
    readFrom xs index = .ok (xs.drop index.toNat) := by
  simp [readFrom, placeOf?_of_nonneg, h]

end Packrat
