namespace Packrat

/-- How many levels there are left, or nothing where there is no limit. -/
abbrev Room := Option Nat

namespace Room

def unlimited : Room := none

def take? (levels : Nat) : Room → Option Room
  | none => some none
  | some left => if levels ≤ left then some (some (left - levels)) else none

def holds (levels : Nat) (room : Room) : Bool := (room.take? levels).isSome

@[simp] theorem take?_unlimited (levels : Nat) : take? levels unlimited = some unlimited := rfl

@[simp] theorem holds_unlimited (levels : Nat) : holds levels unlimited = true := rfl

end Room

end Packrat
