import Packrat.Lexer.Automaton

namespace Packrat

structure LexRow where
  accept : Option Nat
  edges : List (Span × Nat)
  deriving Repr, DecidableEq

def LexRow.target? (row : LexRow) (code : Int) : Option Nat :=
  let index := Bisection.count (fun (span, _) => span.upper ≤ code) row.edges.toArray
  match row.edges[index]? with
  | some (span, target) => if span.lower ≤ code then some target else none
  | none => none

abbrev LexTable := Array LexRow

namespace LexTable

/-- The table of all sets of states that can be reached from that of the root. There are not more than the states have
subsets. -/
def ofAutomaton (root : Nat) (m : Automaton) : LexTable :=
  let targets (s : LexState) : List LexState := (s.edges m).map (·.2)
  let states := Worklist.explore targets (Nat.pow 2 m.size) [LexState.closure m [root]] []
  let row (s : LexState) : LexRow :=
    ⟨s.accepted m, (s.edges m).map fun (span, target) => (span, states.idxOf target)⟩
  (states.map row).toArray

/-- Reads on as far as the table goes, from the state that `length` characters have led to. The result
is the last token accepted and its length; `best` is what was accepted before. -/
def scan (table : LexTable) (state length : Nat) (best : Option (Nat × Nat)) :
    List Char → Option (Nat × Nat)
  | [] => accepted best
  | c :: rest =>
    match table[state]?.bind (·.target? c.toNat) with
    | some target => scan table target (length + 1) (accepted best) rest
    | none => accepted best
where
  accepted (best : Option (Nat × Nat)) : Option (Nat × Nat) :=
    match table[state]?.bind (·.accept) with
    | some token => some (token, length)
    | none => best

def longestMatch (table : LexTable) (rest : List Char) : Option (Nat × Nat) := table.scan 0 0 none rest

end LexTable

end Packrat
