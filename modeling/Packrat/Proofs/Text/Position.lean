import Mathlib.Data.List.DropRight
import Packrat.Text.Position

namespace Packrat

variable {start offset other : Nat} {cs : List Char} {text : String}

theorem lineBreaksFrom_append (start : Nat) (xs ys : List Char) :
    lineBreaksFrom start (xs ++ ys) = lineBreaksFrom start xs ++ lineBreaksFrom (start + xs.length) ys := by
  induction xs generalizing start with
  | nil => rfl
  | cons c xs ih =>
    rw [List.cons_append, lineBreaksFrom, lineBreaksFrom, ih, List.length_cons, Nat.add_assoc, Nat.add_comm 1]
    split <;> rfl

theorem length_lineBreaksFrom (start : Nat) (cs : List Char) : (lineBreaksFrom start cs).length = cs.count '\n' := by
  induction cs generalizing start with
  | nil => rfl
  | cons c rest ih =>
    rw [lineBreaksFrom, List.count_cons]
    by_cases newline : c = '\n' <;> simp [newline, ih]

theorem lt_of_mem_lineBreaksFrom {n : Nat} (listed : n ∈ lineBreaksFrom start cs) : n < start + cs.length := by
  induction cs generalizing start with
  | nil => cases listed
  | cons c rest ih =>
    have later : n ∈ lineBreaksFrom (start + 1) rest → n < start + (rest.length + 1) := fun listed => by
      have := ih listed
      omega
    rw [lineBreaksFrom] at listed
    rw [List.length_cons]
    split at listed
    · rcases List.mem_cons.mp listed with rfl | listed
      · omega
      · exact later listed
    · exact later listed

theorem lineBreaksFrom_ascending (start : Nat) (cs : List Char) : (lineBreaksFrom start cs).Pairwise (· < ·) := by
  induction cs generalizing start with
  | nil => exact .nil
  | cons c rest ih =>
    rw [lineBreaksFrom]
    split
    · exact .cons (fun n listed => le_of_mem_lineBreaksFrom listed) (ih (start + 1))
    · exact ih (start + 1)

theorem lineBreaks_split (within : offset ≤ text.length) : lineBreaks text =
    lineBreaksFrom 0 (text.toList.take offset) ++ lineBreaksFrom offset (text.toList.drop offset) := by
  have size : (text.toList.take offset).length = offset := by
    rw [List.length_take, String.length_toList, Nat.min_eq_left within]
  rw [lineBreaks, ← List.take_append_drop offset text.toList, lineBreaksFrom_append, size, Nat.zero_add,
    List.take_append_drop]

theorem newlinesBefore_lineBreaks (within : offset ≤ text.length) :
    newlinesBefore (lineBreaks text) offset = lineBreaksFrom 0 (text.toList.take offset) := by
  let below : Nat → Bool := fun n => (n : Int) < offset
  have closed : (lineBreaks text).Pairwise fun a b => below b = true → below a = true := by
    refine (lineBreaksFrom_ascending 0 text.toList).imp fun order here => ?_
    simp only [below, decide_eq_true_eq] at here ⊢
    omega
  have front : ∀ n ∈ lineBreaksFrom 0 (text.toList.take offset), below n = true := by
    intro n listed
    have := lt_of_mem_lineBreaksFrom listed
    simp only [List.length_take, below, decide_eq_true_eq] at this ⊢
    omega
  have behind : ∀ n ∈ lineBreaksFrom offset (text.toList.drop offset), ¬ below n = true := by
    intro n listed
    have := le_of_mem_lineBreaksFrom listed
    simp only [below, decide_eq_true_eq]
    omega
  rw [newlinesBefore, Bisection.take_count closed, lineBreaks_split within, List.filter_append,
    List.filter_eq_self.mpr front, List.filter_eq_nil_iff.mpr behind, List.append_nil]

def lastLine (cs : List Char) : List Char := cs.rtakeWhile (· ≠ '\n')

theorem lastLine_concat (cs : List Char) (c : Char) :
    lastLine (cs ++ [c]) = if c = '\n' then [] else lastLine cs ++ [c] := by
  unfold lastLine
  rw [List.rtakeWhile_concat]
  by_cases newline : c = '\n' <;> simp [newline]

theorem length_before_lastLine (cs : List Char) :
    (lineBreaksFrom 0 cs).getLast?.elim 0 (· + 1) + (lastLine cs).length = cs.length := by
  induction cs using List.reverseRecOn with
  | nil => rfl
  | append_singleton cs c ih =>
    rw [lineBreaksFrom_append, lastLine_concat]
    by_cases newline : c = '\n'
    · simp [lineBreaksFrom, newline]
    · simp only [lineBreaksFrom, newline, if_false, List.append_nil, List.length_append, List.length_singleton]
      omega

theorem lineStart_add (within : offset ≤ text.length) :
    lineStart (lineBreaks text) offset + (lastLine (text.toList.take offset)).length = offset := by
  have all := length_before_lastLine (text.toList.take offset)
  rw [List.length_take, String.length_toList, Nat.min_eq_left within] at all
  rw [lineStart, newlinesBefore_lineBreaks within]
  cases last : (lineBreaksFrom 0 (text.toList.take offset)).getLast? <;> simpa [last] using all

def lengthOfLines : Nat → List Char → Nat
  | 0, _ | _, [] => 0
  | lines + 1, c :: rest => lengthOfLines (if c = '\n' then lines else lines + 1) rest + 1

theorem lengthOfLines_newline (xs ys : List Char) :
    lengthOfLines (xs.count '\n' + 1) (xs ++ '\n' :: ys) = xs.length + 1 := by
  induction xs with
  | nil => simp [lengthOfLines]
  | cons c xs ih =>
    rw [List.count_cons, List.cons_append, lengthOfLines, List.length_cons]
    by_cases newline : c = '\n' <;> simp [newline, ih]

theorem lengthOfLines_append (xs ys : List Char) :
    lengthOfLines (xs.count '\n') (xs ++ ys) + (lastLine xs).length = xs.length := by
  -- From the end of the text: a newline there begins another last line, anything else goes on with it.
  induction xs using List.reverseRecOn generalizing ys with
  | nil => simp [lengthOfLines, lastLine]
  | append_singleton xs c ih =>
    rw [List.count_append, List.append_assoc, lastLine_concat, List.length_append, List.singleton_append]
    by_cases newline : c = '\n'
    · subst newline
      exact lengthOfLines_newline xs ys
    · have before := ih (c :: ys)
      simp only [newline, if_false, List.count_singleton, beq_iff_eq, List.length_append, List.length_singleton,
        Nat.add_zero]
      omega

def offsetOf (text : String) (line column : Int) : Int := lengthOfLines (line - 1).toNat text.toList + (column - 1)

namespace Position

/-- A position that says where an offset is in a text: in the line behind the newlines before it, at the column
behind the characters of that line. -/
structure At (p : Position) (text : String) (place : Nat) : Prop where
  offset : p.offset = place
  line : p.line = (text.toList.take place).count '\n' + 1
  column : p.column = (lastLine (text.toList.take place)).length + 1

def Precedes (p q : Position) : Prop := p.line < q.line ∨ p.line = q.line ∧ p.column < q.column

def located (text : String) (index offset : Int) : Position := ofOffset index offset (lineBreaks text)

theorem at_located (index : Int) (within : offset ≤ text.length) : (located text index offset).At text offset where
  offset := rfl
  line := by
    rw [located, ofOffset, newlinesBefore_lineBreaks within, length_lineBreaksFrom]
  column := by
    have := lineStart_add within
    simp only [located, ofOffset]
    omega

variable {p q : Position}

theorem At.offsetOf_eq (here : p.At text offset) (within : offset ≤ text.length) :
    offsetOf text p.line p.column = offset := by
  have all := lengthOfLines_append (text.toList.take offset) (text.toList.drop offset)
  rw [List.take_append_drop, List.length_take, String.length_toList, Nat.min_eq_left within] at all
  rw [offsetOf, here.line, here.column, Int.add_sub_cancel, Int.add_sub_cancel, Int.toNat_natCast]
  omega

theorem At.precedes (here : p.At text offset) (there : q.At text other) (order : offset < other)
    (within : other ≤ text.length) : p.Precedes q := by
  have lines : (text.toList.take offset).count '\n' ≤ (text.toList.take other).count '\n' :=
    (List.take_prefix_take_left (Nat.le_of_lt order)).sublist.count_le '\n'
  rw [Precedes, here.line, there.line]
  rcases Nat.lt_or_eq_of_le lines with before | same
  · exact .inl (by omega)
  · have first := here.offsetOf_eq (by omega)
    have second := there.offsetOf_eq within
    rw [offsetOf, here.line] at first
    rw [offsetOf, there.line, ← same] at second
    exact .inr ⟨by omega, by omega⟩

theorem At.eq_of_place (here : p.At text offset) (there : q.At text other) (within : offset ≤ text.length)
    (inside : other ≤ text.length) (same : (p.line, p.column) = (q.line, q.column)) : offset = other := by
  obtain ⟨line, column⟩ := Prod.mk.inj same
  have first := here.offsetOf_eq within
  have second := there.offsetOf_eq inside
  rw [line, column, second] at first
  exact Int.ofNat_inj.mp first.symm

end Position

end Packrat
