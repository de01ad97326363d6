import Packrat.CharClass
import Packrat.Proofs.Span

namespace Packrat

namespace Span

def Covered (spans : List Span) (x : Int) : Prop := ∃ s ∈ spans, x ∈ s

section

variable {s current : Span} {spans others rest : List Span} {x lower : Int}

theorem not_covered_nil : ¬ Covered [] x := fun ⟨_, listed, _⟩ => nomatch listed

theorem covered_cons : Covered (s :: rest) x ↔ x ∈ s ∨ Covered rest x := by
  simp [Covered]

theorem mem_join {t : Span} (order : s.lower ≤ t.lower) (touches : t.lower ≤ s.upper) :
    x ∈ (⟨s.lower, max s.upper t.upper⟩ : Span) ↔ x ∈ s ∨ x ∈ t := by
  simp only [mem_def]
  omega

theorem covered_coalesceFrom (above : ∀ t ∈ rest, current.lower ≤ t.lower)
    (sorted : rest.Pairwise fun s t => s.lower ≤ t.lower) :
    Covered (coalesceFrom current rest) x ↔ x ∈ current ∨ Covered rest x := by
  induction rest generalizing current with
  | nil => rw [coalesceFrom, covered_cons]
  | cons t rest ih =>
    obtain ⟨first, tail⟩ := List.pairwise_cons.mp sorted
    obtain ⟨order, above⟩ := List.forall_mem_cons.mp above
    rw [covered_cons, coalesceFrom]
    split
    · next touches => rw [@ih ⟨current.lower, max current.upper t.upper⟩ above tail, mem_join order touches, or_assoc]
    · rw [covered_cons, ih first tail]

theorem mem_sortByLower : s ∈ sortByLower spans ↔ s ∈ spans := by
  induction spans with
  | nil => rfl
  | cons t rest ih => rw [sortByLower, List.foldr_cons, mem_insertByLower, ← sortByLower, ih, List.mem_cons]

theorem covered_canonical : Covered (canonical spans) x ↔ Covered spans x := by
  have same : Covered ((sortByLower spans).filter (·.Nonempty)) x ↔ Covered spans x := by
    refine exists_congr fun s => and_congr_left fun member => ?_
    have nonempty : s.Nonempty := Int.lt_of_le_of_lt member.1 member.2
    simp [mem_sortByLower, nonempty]
  have sorted := (sortByLower_sorted spans).filter (fun s => decide s.Nonempty)
  rw [← same, canonical]
  generalize (sortByLower spans).filter (fun s => decide s.Nonempty) = remaining at sorted
  cases remaining with
  | nil => rfl
  | cons s rest =>
    obtain ⟨first, tail⟩ := List.pairwise_cons.mp sorted
    rw [coalesce, covered_coalesceFrom first tail, covered_cons]

namespace Separated

theorem tail (separated : Separated (s :: rest)) : Separated rest :=
  ⟨fun t listed => separated.nonempty t (List.mem_cons_of_mem _ listed), (List.pairwise_cons.mp separated.apart).2⟩

theorem head (separated : Separated (s :: rest)) : s.Nonempty := separated.nonempty s List.mem_cons_self

theorem lt_of_covered (separated : Separated (s :: rest)) (covered : Covered rest x) : s.upper < x := by
  obtain ⟨t, listed, member⟩ := covered
  exact Int.lt_of_lt_of_le ((List.pairwise_cons.mp separated.apart).1 t listed) member.1

theorem lower_le (separated : Separated (s :: rest)) (covered : Covered (s :: rest) x) : s.lower ≤ x := by
  rcases covered_cons.mp covered with here | later
  · exact here.1
  · have := separated.head
    have := separated.lt_of_covered later
    rw [Nonempty] at *
    omega

theorem not_covered_upper (separated : Separated (s :: rest)) : ¬ Covered (s :: rest) s.upper := by
  intro covered
  rcases covered_cons.mp covered with here | later
  · exact Int.lt_irrefl _ here.2
  · exact Int.lt_irrefl _ (separated.lt_of_covered later)

theorem covered_tail_iff (separated : Separated (s :: rest)) :
    Covered rest x ↔ Covered (s :: rest) x ∧ s.upper < x := by
  refine ⟨fun later => ⟨covered_cons.mpr (.inr later), separated.lt_of_covered later⟩, fun ⟨covered, behind⟩ => ?_⟩
  refine (covered_cons.mp covered).resolve_left fun here => ?_
  rw [mem_def] at here
  omega

theorem head_upper_le {t : Span} {following : List Span} (separated : Separated (s :: rest))
    (separated' : Separated (t :: following)) (same : ∀ x, Covered (s :: rest) x ↔ Covered (t :: following) x) :
    s.lower ≤ t.lower ∧ s.upper ≤ t.upper := by
  have begins : s.lower ≤ t.lower :=
    separated.lower_le ((same _).mpr (covered_cons.mpr (.inl separated'.head.lower_mem)))
  have begins' : t.lower ≤ s.lower :=
    separated'.lower_le ((same _).mp (covered_cons.mpr (.inl separated.head.lower_mem)))
  refine ⟨begins, Int.not_lt.mp fun longer => separated'.not_covered_upper ((same _).mp (covered_cons.mpr (.inl ?_)))⟩
  have := separated'.head
  rw [Nonempty] at this
  rw [mem_def]
  omega

theorem eq_of_covered (separated : Separated spans) (separated' : Separated others)
    (same : ∀ x, Covered spans x ↔ Covered others x) : spans = others := by
  -- The first spans have the same bounds, so the others cover the same once those are taken off.
  induction spans generalizing others with
  | nil =>
    cases others with
    | nil => rfl
    | cons t following =>
      exact absurd ((same _).mpr (covered_cons.mpr (.inl separated'.head.lower_mem))) not_covered_nil
  | cons s rest ih =>
    cases others with
    | nil => exact absurd ((same _).mp (covered_cons.mpr (.inl separated.head.lower_mem))) not_covered_nil
    | cons t following =>
      obtain ⟨lower, upper⟩ := head_upper_le separated separated' same
      obtain ⟨lower', upper'⟩ := head_upper_le separated' separated fun x => (same x).symm
      have first : s = t := by
        rw [Span.mk.injEq]
        omega
      subst first
      rw [ih separated.tail separated'.tail fun x => ?_]
      rw [separated.covered_tail_iff, separated'.covered_tail_iff, same]

end Separated

theorem liesFrom_cons : liesFrom lower (s :: rest) = true ↔ lower ≤ s.lower ∧ liesFrom s.upper rest = true := by
  simp [liesFrom]

theorem le_codeSpace_of_liesFrom (separated : Separated spans) (within : liesFrom lower spans = true) :
    lower ≤ codeSpace := by
  induction spans generalizing lower with
  | nil => simpa [liesFrom] using within
  | cons s rest ih =>
    have := separated.head
    obtain ⟨order, within⟩ := liesFrom_cons.mp within
    have := ih separated.tail within
    rw [Nonempty] at *
    omega

theorem covered_gapsFrom (separated : Separated spans) (within : liesFrom lower spans = true) :
    Covered (gapsFrom lower spans) x ↔ (lower ≤ x ∧ x < codeSpace) ∧ ¬ Covered spans x := by
  induction spans generalizing lower with
  | nil =>
    simp only [gapsFrom, not_covered_nil, not_false_eq_true, and_true]
    split
    · rw [covered_cons, mem_def]
      exact or_iff_left not_covered_nil
    · exact iff_of_false not_covered_nil fun inside => by omega
  | cons s rest ih =>
    obtain ⟨order, within⟩ := liesFrom_cons.mp within
    have bound := le_codeSpace_of_liesFrom separated.tail within
    have nonempty := separated.head
    have later := @ih s.upper separated.tail within
    have behind := @Separated.lt_of_covered s rest x separated
    have gap : Covered (gapsFrom lower (s :: rest)) x ↔ (lower ≤ x ∧ x < s.lower) ∨
      Covered (gapsFrom s.upper rest) x := by
      rw [gapsFrom]
      split
      · rw [covered_cons, mem_def]
      · exact (or_iff_right fun between => by omega).symm
    rw [gap, later, covered_cons, mem_def]
    rw [Nonempty] at nonempty
    by_cases covered : Covered rest x
    · have := behind covered
      simp only [covered, not_true_eq_false, and_false, or_false, or_true, iff_false]
      omega
    · simp only [covered, not_false_eq_true, and_true, or_false]
      omega

end

end Span

namespace CharClass

open Packrat.Span

variable {cls : CharClass} {spans : List Span} {code : Int}

theorem contains_iff : cls.contains code = true ↔ Covered cls.spans code := by
  have ascending : cls.spans.Pairwise fun s t => s.upper ≤ t.lower := cls.separated.apart.imp Int.le_of_lt
  unfold contains
  simp only [Option.any_eq_true, decide_eq_true_eq]
  exact exists_congr fun s => (mem_iff_getElem?_count (fun s => s) cls.separated.nonempty ascending code).symm

theorem ext_spans {a b : CharClass} (spans : a.spans = b.spans) (inverted : a.inverted = b.inverted) : a = b := by
  cases a
  cases b
  cases spans
  cases inverted
  rfl

theorem same_iff {a b : CharClass} : a.same b = true ↔ ∀ code, a.contains code = b.contains code := by
  rw [same, beq_iff_eq]
  refine ⟨fun spans code => ?_, fun members => ?_⟩
  · rw [Bool.eq_iff_iff, contains_iff, contains_iff, spans]
  · refine a.separated.eq_of_covered b.separated fun code => ?_
    rw [← contains_iff, ← contains_iff, members]

abbrev Short (s : Span) : Prop := s.upper - s.lower < Span.lengthLimit

theorem forM_length (ordered : ∀ s ∈ spans, s.lower ≤ s.upper) : spans.forM (fun s => discard s.length) =
    if ∀ s ∈ spans, Short s then .ok () else .error .oversizedSpan := by
  induction spans with
  | nil => rfl
  | cons s rest ih =>
    obtain ⟨here, others⟩ := List.forall_mem_cons.mp ordered
    rw [List.forM, ih others, Span.length, if_neg (Int.not_lt.mpr here)]
    by_cases short : Short s
    · simp only [List.forall_mem_cons, short, true_and]
      rfl
    · simp only [List.forall_mem_cons, short, false_and]
      rfl

theorem ofSpans_eq (ordered : ∀ s ∈ spans, s.lower ≤ s.upper) : ofSpans spans =
    if ∀ s ∈ spans, Short s then .ok { spans := canonical spans, separated := canonical_separated spans }
    else .error .oversizedSpan := by
  have sorted : ∀ s ∈ sortByLower spans, s.lower ≤ s.upper := fun s listed => ordered s (mem_sortByLower.mp listed)
  unfold ofSpans
  rw [forM_length sorted]
  simp only [mem_sortByLower]
  split <;> rfl

theorem liesFrom_iff {lower : Int} (separated : Separated spans) (bound : lower ≤ codeSpace) :
    liesFrom lower spans = true ↔ ∀ code, Covered spans code → lower ≤ code ∧ code < codeSpace := by
  induction spans generalizing lower with
  | nil => simp [liesFrom, bound, not_covered_nil]
  | cons s rest ih =>
    have nonempty := separated.head
    rw [liesFrom_cons]
    constructor
    · rintro ⟨order, within⟩ code covered
      have ends := le_codeSpace_of_liesFrom separated.tail within
      rcases covered_cons.mp covered with here | later
      · rw [mem_def] at here
        omega
      · have := (ih separated.tail ends).mp within code later
        rw [Span.Nonempty] at nonempty
        omega
    · intro holds
      have first := holds s.lower (covered_cons.mpr (.inl nonempty.lower_mem))
      have last := holds (s.upper - 1) (covered_cons.mpr (.inl ?_))
      · refine ⟨first.1, (ih separated.tail (by omega)).mpr fun code later => ?_⟩
        have := separated.lt_of_covered later
        exact ⟨by omega, (holds code (covered_cons.mpr (.inr later))).2⟩
      · rw [Span.Nonempty] at nonempty
        rw [mem_def]
        omega

def Within (cls : CharClass) : Prop := ∀ code, cls.contains code = true → 0 ≤ code ∧ code < codeSpace

theorem Within.liesFrom (within : cls.Within) : liesFrom 0 cls.spans = true :=
  (liesFrom_iff cls.separated (by decide)).mpr fun code covered => within code (contains_iff.mpr covered)

theorem Within.complement?_eq (within : cls.Within) : cls.complement? = some cls.complement := if_pos within.liesFrom

theorem Within.contains_complement (within : cls.Within) :
    cls.complement.contains code = true ↔ (0 ≤ code ∧ code < codeSpace) ∧ ¬ cls.contains code = true := by
  have all : cls.spans.filter (0 ≤ ·.upper) = cls.spans := by
    refine List.filter_eq_self.mpr fun s listed => decide_eq_true ?_
    have nonempty := cls.separated.nonempty s listed
    exact Int.le_trans (within s.lower (contains_iff.mpr ⟨s, listed, nonempty.lower_mem⟩)).1 (Int.le_of_lt nonempty)
  rw [contains_iff, contains_iff, complement]
  dsimp only
  rw [all, covered_gapsFrom cls.separated within.liesFrom]

theorem Within.complement (within : cls.Within) : cls.complement.Within :=
  fun _ holds => (within.contains_complement.mp holds).1

theorem Within.complement_complement (within : cls.Within) : cls.complement.complement = cls := by
  refine ext_spans (Separated.eq_of_covered (CharClass.separated _) cls.separated fun code => ?_) (Bool.not_not _)
  rw [← contains_iff, ← contains_iff, within.complement.contains_complement, within.contains_complement]
  by_cases member : cls.contains code = true
  · simp [member, within code member]
  · refine iff_of_false (fun ⟨inside, outside⟩ => outside ⟨inside, member⟩) member

theorem containsText_singleton (cls : CharClass) (c : Char) :
    cls.containsText (String.singleton c) = .ok (cls.contains c.toNat) := by
  have one : theCharacter (String.singleton c) = .ok c := by simp [theCharacter]
  rw [containsText, one]
  rfl

/-- A class holds just what the given spans hold, in separated spans, and it is the same class as any other that has the
same members; there is none where one of the spans is too long to be measured. The complement of a class of code points is
there, holds the other code points, and has the class itself as its complement. -/
theorem ofSpans_canonical :
    (∀ spans : List Span, (∀ s ∈ spans, s.lower ≤ s.upper) →
      ((∃ s ∈ spans, lengthLimit ≤ s.upper - s.lower) → ofSpans spans = .error .oversizedSpan) ∧
      ((∀ s ∈ spans, s.upper - s.lower < lengthLimit) → ∃ cls, ofSpans spans = .ok cls ∧ Separated cls.spans ∧
        (∀ code, cls.contains code = true ↔ ∃ s ∈ spans, code ∈ s) ∧
        (∀ c : Char, cls.containsText (String.singleton c) = .ok true ↔ ∃ s ∈ spans, (c.toNat : Int) ∈ s) ∧
        ((∀ s ∈ spans, 0 ≤ s.lower ∧ s.upper ≤ codeSpace) → ∃ rest, cls.complement? = some rest ∧ Separated rest.spans ∧
          (∀ code, rest.contains code = true ↔ (0 ≤ code ∧ code < codeSpace) ∧ ¬ cls.contains code = true) ∧
          rest.complement? = some cls))) ∧
    ∀ a b : CharClass, a.same b = true ↔ ∀ code, a.contains code = b.contains code := by
  refine ⟨fun spans ordered => ⟨fun ⟨s, listed, long⟩ => ?_, fun short => ?_⟩, fun a b => same_iff⟩
  · rw [ofSpans_eq ordered, if_neg fun short => Int.not_le.mpr (short s listed) long]
  have made : ofSpans spans = .ok { spans := canonical spans, separated := canonical_separated spans } := by
    rw [ofSpans_eq ordered, if_pos short]
  generalize shape : (⟨canonical spans, false, canonical_separated spans⟩ : CharClass) = cls at made
  have members (code : Int) : cls.contains code = true ↔ ∃ s ∈ spans, code ∈ s := by
    rw [contains_iff, ← shape]
    exact covered_canonical
  refine ⟨cls, made, cls.separated, members, fun c => ?_, fun bounds => ?_⟩
  · rw [containsText_singleton, Except.ok.injEq, members]
  · have within : cls.Within := by
      intro code holds
      obtain ⟨s, listed, member⟩ := (members code).mp holds
      exact ⟨Int.le_trans (bounds s listed).1 member.1, Int.lt_of_lt_of_le member.2 (bounds s listed).2⟩
    refine ⟨cls.complement, within.complement?_eq, cls.complement.separated, fun _ => within.contains_complement, ?_⟩
    rw [within.complement.complement?_eq, within.complement_complement]

def pieces : List Span := [⟨99, 101⟩, ⟨97, 99⟩, ⟨200, 200⟩, ⟨97, 98⟩]

theorem pieces_canonical : (∀ s ∈ pieces, s.lower ≤ s.upper) ∧ (∀ s ∈ pieces, 0 ≤ s.lower ∧ s.upper ≤ codeSpace) ∧
    ∃ cls, ofSpans pieces = .ok cls ∧ cls.spans = [⟨97, 101⟩] ∧ cls.contains 98 = true ∧
      ∃ rest, cls.complement? = some rest ∧ rest.spans = [⟨0, 97⟩, ⟨101, codeSpace⟩] ∧ ¬ rest.contains 98 = true ∧
        rest.complement? = some cls := by
  have ordered : ∀ s ∈ pieces, s.lower ≤ s.upper := by decide
  have short : ∀ s ∈ pieces, s.upper - s.lower < lengthLimit := by decide
  have bounds : ∀ s ∈ pieces, 0 ≤ s.lower ∧ s.upper ≤ codeSpace := by decide
  obtain ⟨cls, made, _, members, _, complement⟩ := (ofSpans_canonical.1 pieces ordered).2 short
  obtain ⟨rest, complements, _, others, back⟩ := complement bounds
  have inside : cls.contains 98 = true := (members 98).mpr (by decide)
  have joined : cls.spans = [⟨97, 101⟩] := by
    cases made.symm.trans (ofSpans_eq ordered)
    decide
  refine ⟨ordered, bounds, cls, made, joined, inside, rest, complements, ?_,
    fun holds => ((others 98).mp holds).2 inside, back⟩
  unfold complement? at complements
  rw [joined] at complements
  cases complements
  rw [CharClass.complement]
  dsimp only
  rw [joined]
  decide

def endless : List Span := [⟨0, lengthLimit⟩]

theorem endless_oversized : (∀ s ∈ endless, s.lower ≤ s.upper) ∧ ∀ cls, ofSpans endless ≠ .ok cls := by
  have refused : ofSpans endless = .error .oversizedSpan := rfl
  refine ⟨by decide, fun cls made => ?_⟩
  rw [refused] at made
  cases made

end CharClass

end Packrat
