import Packrat.Bisection
import Packrat.Span
import Packrat.Text.Quoted

namespace Packrat

def codeSpace : Int := 0x110000

inductive Unshowable where
  | noCodePoint
  /-- One of its ends does not even fit the 32 bits in which code points are looked up. -/
  | hugeCode
  | hugeSpan
  deriving Repr, DecidableEq

def Unshowable.message : Unshowable → String
  | .noCodePoint => "A character class has bounds that are no code points, so it cannot be shown"
  | .hugeCode => "A character class has bounds that are far from code points, so it cannot be shown"
  | .hugeSpan => "A character class has too many members to be shown"

def codeUnshowable? (code : Int) : Option Unshowable :=
  if code < -0x80000000 || 0x80000000 ≤ code then some .hugeCode
  else if code < 0 || codeSpace ≤ code then some .noCodePoint
  else none

def Span.unshowable? (s : Span) : Option Unshowable :=
  (codeUnshowable? s.lower).or (codeUnshowable? (s.upper - 1))

namespace Span

/-- Nonempty spans in ascending order with at least one code point between each two. -/
structure Separated (spans : List Span) : Prop where
  nonempty : ∀ s ∈ spans, s.Nonempty
  apart : spans.Pairwise fun s t => s.upper < t.lower

theorem Separated.nil : Separated [] := ⟨by simp, .nil⟩

def insertByLower (s : Span) : List Span → List Span
  | [] => [s]
  | t :: rest => if s.lower ≤ t.lower then s :: t :: rest else t :: insertByLower s rest

def sortByLower (spans : List Span) : List Span := spans.foldr insertByLower []

def coalesceFrom (current : Span) : List Span → List Span
  | [] => [current]
  | s :: rest =>
    if s.lower ≤ current.upper then coalesceFrom ⟨current.lower, max current.upper s.upper⟩ rest
    else current :: coalesceFrom s rest

def coalesce : List Span → List Span
  | [] => []
  | s :: rest => coalesceFrom s rest

def canonical (spans : List Span) : List Span :=
  coalesce ((sortByLower spans).filter (·.Nonempty))

theorem lower_le_of_mem_coalesceFrom {current s : Span} {rest : List Span}
    (above : ∀ t ∈ rest, current.lower ≤ t.lower)
    (sorted : rest.Pairwise fun s t => s.lower ≤ t.lower)
    (h : s ∈ coalesceFrom current rest) : current.lower ≤ s.lower := by
  induction rest generalizing current with
  | nil =>
    simp only [coalesceFrom, List.mem_singleton] at h
    exact h ▸ Int.le_refl _
  | cons t rest ih =>
    obtain ⟨first, tail⟩ := List.pairwise_cons.1 sorted
    unfold coalesceFrom at h
    split at h
    · exact @ih ⟨current.lower, max current.upper t.upper⟩
        (fun u hu => above u (List.mem_cons_of_mem _ hu)) tail h
    · rcases List.mem_cons.1 h with rfl | h
      · exact Int.le_refl _
      · exact Int.le_trans (above t List.mem_cons_self) (ih first tail h)

theorem coalesceFrom_separated {current : Span} {rest : List Span} (nonempty : current.Nonempty)
    (allNonempty : ∀ t ∈ rest, t.Nonempty) (above : ∀ t ∈ rest, current.lower ≤ t.lower)
    (sorted : rest.Pairwise fun s t => s.lower ≤ t.lower) : Separated (coalesceFrom current rest) := by
  induction rest generalizing current with
  | nil => exact ⟨by simpa [coalesceFrom] using nonempty, by simp [coalesceFrom]⟩
  | cons t rest ih =>
    obtain ⟨first, tail⟩ := List.pairwise_cons.1 sorted
    have rests : ∀ u ∈ rest, u.Nonempty := fun u hu => allNonempty u (List.mem_cons_of_mem _ hu)
    unfold coalesceFrom
    split
    · refine ih ?_ rests (fun u hu => above u (List.mem_cons_of_mem _ hu)) tail
      simp only [Nonempty] at nonempty ⊢
      omega
    · next gap =>
      have later := ih (allNonempty t List.mem_cons_self) rests first tail
      refine ⟨fun u hu => ?_, .cons (fun u hu => ?_) later.apart⟩
      · rcases List.mem_cons.1 hu with rfl | hu
        · exact nonempty
        · exact later.nonempty u hu
      · have := lower_le_of_mem_coalesceFrom first tail hu
        omega

theorem mem_insertByLower {s t : Span} {spans : List Span} :
    t ∈ insertByLower s spans ↔ t = s ∨ t ∈ spans := by
  induction spans with
  | nil => simp [insertByLower]
  | cons u rest ih =>
    unfold insertByLower
    split
    · simp
    · simp only [List.mem_cons, ih]
      grind

theorem insertByLower_sorted {s : Span} {spans : List Span}
    (h : spans.Pairwise fun s t => s.lower ≤ t.lower) :
    (insertByLower s spans).Pairwise fun s t => s.lower ≤ t.lower := by
  induction h with
  | nil => simp [insertByLower]
  | @cons u rest first tail ih =>
    unfold insertByLower
    split
    · next le =>
      refine .cons (fun t ht => ?_) (.cons first tail)
      rcases List.mem_cons.1 ht with rfl | ht
      · exact le
      · exact Int.le_trans le (first t ht)
    · next notLe =>
      refine .cons (fun t ht => ?_) ih
      rcases mem_insertByLower.1 ht with rfl | ht
      · omega
      · exact first t ht

theorem sortByLower_sorted (spans : List Span) :
    (sortByLower spans).Pairwise fun s t => s.lower ≤ t.lower := by
  induction spans with
  | nil => exact .nil
  | cons s rest ih => exact insertByLower_sorted ih

theorem canonical_separated (spans : List Span) : Separated (canonical spans) := by
  have sorted := (sortByLower_sorted spans).filter (fun s => decide s.Nonempty)
  have nonempty : ∀ s ∈ (sortByLower spans).filter (fun s => decide s.Nonempty), s.Nonempty := by
    intro s hs
    simpa using (List.mem_filter.1 hs).2
  unfold canonical coalesce
  generalize (sortByLower spans).filter (fun s => decide s.Nonempty) = remaining at sorted nonempty
  cases remaining with
  | nil => exact .nil
  | cons s rest =>
    obtain ⟨first, tail⟩ := List.pairwise_cons.1 sorted
    exact coalesceFrom_separated (nonempty s List.mem_cons_self)
      (fun t ht => nonempty t (List.mem_cons_of_mem _ ht)) first tail

def liesFrom (lower : Int) : List Span → Bool
  | [] => lower ≤ codeSpace
  | s :: rest => lower ≤ s.lower && liesFrom s.upper rest

def gapsFrom (lower : Int) : List Span → List Span
  | [] => if lower < codeSpace then [⟨lower, codeSpace⟩] else []
  | s :: rest =>
    if lower < s.lower then ⟨lower, s.lower⟩ :: gapsFrom s.upper rest else gapsFrom s.upper rest

theorem gapsFrom_separated {lower : Int} {spans : List Span} (h : Separated spans)
    (above : ∀ s ∈ spans, lower ≤ s.upper) :
    Separated (gapsFrom lower spans) ∧ ∀ s ∈ gapsFrom lower spans, lower ≤ s.lower := by
  induction spans generalizing lower with
  | nil =>
    unfold gapsFrom
    split
    · next lt => exact ⟨⟨by simpa [Nonempty] using lt, by simp⟩, by simp⟩
    · exact ⟨.nil, by simp⟩
  | cons t rest ih =>
    obtain ⟨first, tail⟩ := List.pairwise_cons.1 h.apart
    have rests : ∀ s ∈ rest, s.Nonempty := fun s hs => h.nonempty s (List.mem_cons_of_mem _ hs)
    have here := h.nonempty t List.mem_cons_self
    obtain ⟨later, bound⟩ := @ih t.upper ⟨rests, tail⟩ (by
      intro s hs
      have := first s hs
      have := rests s hs
      simp only [Nonempty] at this
      omega)
    have atLeast := above t List.mem_cons_self
    unfold gapsFrom
    split
    · next lt =>
      refine ⟨⟨fun s hs => ?_, .cons (fun s hs => ?_) later.apart⟩, fun s hs => ?_⟩
      · rcases List.mem_cons.1 hs with rfl | hs
        · exact lt
        · exact later.nonempty s hs
      · have := bound s hs
        simp only [Nonempty] at here
        show t.lower < s.lower
        omega
      · rcases List.mem_cons.1 hs with rfl | hs
        · exact Int.le_refl _
        · exact Int.le_trans atLeast (bound s hs)
    · exact ⟨later, fun s hs => Int.le_trans atLeast (bound s hs)⟩

end Span

/-- A set of code points. `inverted` remembers whether it was written as a complement, for whoever
shows it; it has no part in what the class means. -/
structure CharClass where
  spans : List Span
  inverted : Bool := false
  separated : Span.Separated spans

namespace CharClass

/-- The class that some spans make up. Each of them is measured, in order of the lower bounds. -/
def ofSpans (spans : List Span) : Except BuildError CharClass := do
  (Span.sortByLower spans).forM fun s => discard s.length
  return { spans := Span.canonical spans, separated := Span.canonical_separated spans }

def any : CharClass where
  spans := [⟨0, codeSpace⟩]
  separated := ⟨by decide, by simp⟩

inductive Part where
  | characters (text : String)
  | range (first last : String)

def Part.spans : Part → Except BuildError (List Span)
  | characters text => .ok (text.toList.map fun c => .single c.toNat)
  | range first last => do return [← Span.ofBounds first last]

def ofParts (parts : List Part) : Except BuildError CharClass := do
  let spans ← parts.mapM Part.spans
  ofSpans spans.flatten

instance : Membership Int CharClass := ⟨fun cls x => ∃ s ∈ cls.spans, x ∈ s⟩

def contains (cls : CharClass) (code : Int) : Bool :=
  let before := Bisection.count (fun s => s.upper ≤ code) cls.spans.toArray
  cls.spans[before]?.any (·.lower ≤ code)

def containsText (cls : CharClass) (text : String) : Except BuildError Bool := do
  let c ← Span.theCharacter text
  return cls.contains c.toNat

def same (a b : CharClass) : Bool := a.spans == b.spans

def complement (cls : CharClass) : CharClass where
  spans := Span.gapsFrom 0 (cls.spans.filter (0 ≤ ·.upper))
  inverted := !cls.inverted
  separated := (Span.gapsFrom_separated
    ⟨fun s hs => cls.separated.nonempty s (List.mem_filter.1 hs).1, cls.separated.apart.filter _⟩
    (fun s hs => by simpa using (List.mem_filter.1 hs).2)).1

def complement? (cls : CharClass) : Option CharClass :=
  if Span.liesFrom 0 cls.spans then some cls.complement else none

/-- What comes up first when a class is shown. A span that stands alone is measured before its ends are looked up. -/
def unshowable? (cls : CharClass) : Option Unshowable :=
  match cls.spans with
  | [s] => if s.upper - s.lower < Span.lengthLimit then s.unshowable? else some .hugeSpan
  | spans => spans.findSome? (·.unshowable?)

def spanText (s : Span) : String :=
  if s.upper = s.lower + 1 then Text.bareCode s.lower.toNat
  else Text.bareCode s.lower.toNat ++ "-" ++ Text.bareCode (s.upper - 1).toNat

def text (cls : CharClass) : String :=
  match cls.spans with
  | [s] => if s.upper = s.lower + 1 then Text.quoteCodes [s.lower.toNat] else "[" ++ spanText s ++ "]"
  | spans => "[" ++ String.join (spans.map spanText) ++ "]"

end CharClass

end Packrat
