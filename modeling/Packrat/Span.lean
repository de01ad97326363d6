import Packrat.BuildError

namespace Packrat

/-- The code points from `lower` up to, but not including, `upper`. -/
structure Span where
  lower : Int
  upper : Int
  deriving Repr, DecidableEq

namespace Span

def Nonempty (s : Span) : Prop := s.lower < s.upper

instance (s : Span) : Decidable s.Nonempty := inferInstanceAs (Decidable (s.lower < s.upper))

instance : Membership Int Span := ⟨fun s x => s.lower ≤ x ∧ x < s.upper⟩

theorem mem_def {x : Int} {s : Span} : x ∈ s ↔ s.lower ≤ x ∧ x < s.upper := Iff.rfl

instance (x : Int) (s : Span) : Decidable (x ∈ s) :=
  inferInstanceAs (Decidable (s.lower ≤ x ∧ x < s.upper))

theorem Nonempty.lower_mem {s : Span} (h : s.Nonempty) : s.lower ∈ s := ⟨Int.le_refl _, h⟩

def single (code : Int) : Span := ⟨code, code + 1⟩

def theCharacter (text : String) : Except BuildError Char :=
  match text.toList with
  | [c] => .ok c
  | cs => .error (.notOneCharacter cs.length)

def ofBounds (first last : String) : Except BuildError Span := do
  let lower ← theCharacter first
  let upper ← theCharacter last
  return ⟨lower.toNat, upper.toNat + 1⟩

def ofCharacter (text : String) : Except BuildError Span := do
  let c ← theCharacter text
  return single c.toNat

def lengthLimit : Int := 0x8000000000000000

def length (s : Span) : Except BuildError Int :=
  if s.upper < s.lower then .error .reversedSpan
  else if s.upper - s.lower < lengthLimit then .ok (s.upper - s.lower)
  else .error .oversizedSpan

def meets (a b : Span) : Bool := a.lower < b.upper && a.upper > b.lower

structure Regions where
  low : Option Span
  mid : Option Span
  high : Option Span
  deriving Repr, DecidableEq

/-- Divides two spans at each other's bounds: `low` is what comes before the later lower bound, `mid`
the intersection and `high` what comes after the earlier upper bound. Spans that do not intersect
are the low and the high region themselves. -/
def divide (a b : Span) : Regions :=
  if a.meets b then
    let first := min a.lower b.lower
    let second := max a.lower b.lower
    let third := min a.upper b.upper
    let fourth := max a.upper b.upper
    { low := if first ≠ second then some ⟨first, second⟩ else none
      mid := some ⟨second, third⟩
      high := if third ≠ fourth then some ⟨third, fourth⟩ else none }
  else if a.lower < b.lower then ⟨some a, none, some b⟩
  else ⟨some b, none, some a⟩

def text (s : Span) : String := s!"[{s.lower}-{s.upper})"

end Span

end Packrat
