import Packrat.Bisection

namespace Packrat

/-- A place in the input. `index` counts what the rules match, characters or tokens; `offset`
counts characters of the source. -/
structure Position where
  index : Int
  offset : Int
  line : Int
  column : Int
  deriving Repr, DecidableEq

namespace Position

/-- Positions are the same when their indices are: the other fields only describe them. -/
def same (p q : Position) : Bool := p.index == q.index

def before (p q : Position) : Bool := p.index < q.index

def text (p : Position) : String := s!"{p.line}:{p.column}"

end Position

def lineBreaksFrom (start : Nat) : List Char → List Nat
  | [] => []
  | c :: rest =>
    if c = '\n' then start :: lineBreaksFrom (start + 1) rest else lineBreaksFrom (start + 1) rest

def lineBreaks (text : String) : List Nat := lineBreaksFrom 0 text.toList

theorem le_of_mem_lineBreaksFrom {start n : Nat} {cs : List Char} (h : n ∈ lineBreaksFrom start cs) :
    start ≤ n := by
  induction cs generalizing start with
  | nil => cases h
  | cons c rest ih =>
    unfold lineBreaksFrom at h
    split at h
    · rcases List.mem_cons.1 h with rfl | h
      · exact Nat.le_refl _
      · exact Nat.le_of_succ_le (ih h)
    · exact Nat.le_of_succ_le (ih h)

def newlinesBefore (lines : List Nat) (offset : Int) : List Nat :=
  lines.take (Bisection.count (fun (n : Nat) => n < offset) lines.toArray)

def lineStart (lines : List Nat) (offset : Int) : Nat :=
  match (newlinesBefore lines offset).getLast? with
  | none => 0
  | some newline => newline + 1

def Position.ofOffset (index offset : Int) (lines : List Nat) : Position where
  index := index
  offset := offset
  line := (newlinesBefore lines offset).length + 1
  column := offset - lineStart lines offset + 1

end Packrat
