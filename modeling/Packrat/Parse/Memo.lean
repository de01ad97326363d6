import Packrat.Parse.Failures
import Packrat.Value

namespace Packrat

structure Call where
  start : Int
  rule : String
  deriving Repr, DecidableEq

abbrev Result := Option (Value × Int)

/-- What is known about a call. While it is being evaluated it is not settled, and its result is the
seed that calls to the same rule at the same place are answered with. -/
structure Entry where
  call : Call
  depth : Nat
  result : Result := none
  settled : Bool := false
  reentered : Bool := false
  /-- Whether the result depends on the seed of a call further out. -/
  provisional : Bool := false
  rounds : Nat := 0
  failures : Failures := {}

/-- Entries, those of the furthest places first. A parse mostly asks for places near the furthest. -/
abbrev Memo := List Entry

namespace Memo

def get? : Memo → Call → Option Entry
  | [], _ => none
  | e :: rest, c =>
    if e.call = c then some e
    else if e.call.start < c.start then none
    else get? rest c

def insert (entry : Entry) : Memo → Memo
  | [] => [entry]
  | e :: rest =>
    if e.call.start ≤ entry.call.start then entry :: e :: rest else e :: insert entry rest

theorem get?_eq_none_of_before {m : Memo} {e : Entry} {c : Call} (h : e.call.start < c.start) :
    get? (e :: m) c = none := by
  have other : e.call ≠ c := fun same => by rw [same] at h; exact Int.lt_irrefl _ h
  simp [get?, other, h]

theorem get?_insert {m : Memo} {entry : Entry} {c : Call} (fresh : m.get? entry.call = none) :
    (m.insert entry).get? c = if entry.call = c then some entry else m.get? c := by
  induction m with
  | nil => simp [insert, get?]
  | cons e rest ih =>
    unfold insert
    split
    · next before =>
      by_cases here : entry.call = c
      · simp [get?, here]
      · by_cases beyond : entry.call.start < c.start
        · rw [get?_eq_none_of_before beyond, get?_eq_none_of_before (by omega), if_neg here]
        · simp [get?, here, beyond]
    · next after =>
      have apart : e.call ≠ entry.call := fun same => after (Int.le_of_eq (congrArg Call.start same))
      have freshRest : get? rest entry.call = none := by
        have notBefore : ¬ e.call.start < entry.call.start := by omega
        simpa [get?, apart, notBefore] using fresh
      simp only [get?, ih freshRest]
      by_cases here : e.call = c
      · have : entry.call ≠ c := fun same => apart (here.trans same.symm)
        simp [here, this]
      · by_cases beyond : e.call.start < c.start
        · have : entry.call ≠ c := fun same => by rw [← same] at beyond; omega
          simp [here, beyond, this]
        · simp [here, beyond]

def modify (c : Call) (f : Entry → Entry) : Memo → Memo
  | [] => []
  | e :: rest => if e.call = c then f e :: rest else e :: modify c f rest

def erase (c : Call) : Memo → Memo
  | [] => []
  | e :: rest => if e.call = c then rest else e :: erase c rest

end Memo

end Packrat
