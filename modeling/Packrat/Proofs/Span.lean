import Packrat.Bisection
import Packrat.Span

namespace Packrat.Span

variable {a b s : Span} {x : Int}

def Inside (s t : Span) : Prop := ∀ x ∈ s, x ∈ t

def Apart (s t : Span) : Prop := ∀ x ∈ s, x ∉ t

theorem meets_iff : a.meets b = true ↔ a.lower < b.upper ∧ b.lower < a.upper := by
  simp [meets]

theorem meets_comm (a b : Span) : a.meets b = b.meets a := by
  rw [Bool.eq_iff_iff, meets_iff, meets_iff, and_comm]

section

variable {α : Type} {entries : List α} {e : α}

theorem ends_closed (span : α → Span) (nonempty : ∀ e ∈ entries, (span e).Nonempty)
    (ascending : entries.Pairwise fun a b => (span a).upper ≤ (span b).lower) (bound : Int) :
    entries.Pairwise fun a b => decide ((span b).upper ≤ bound) = true → decide ((span a).upper ≤ bound) = true := by
  refine ascending.imp_of_mem fun {a b} _ listed order here => ?_
  have := nonempty b listed
  simp only [decide_eq_true_eq, Nonempty] at here this ⊢
  omega

theorem mem_iff_getElem?_count (span : α → Span) (nonempty : ∀ e ∈ entries, (span e).Nonempty)
    (ascending : entries.Pairwise fun a b => (span a).upper ≤ (span b).lower) (code : Int) :
    e ∈ entries ∧ code ∈ span e ↔
      entries[Bisection.count (fun e => decide ((span e).upper ≤ code)) entries.toArray]? = some e ∧
        (span e).lower ≤ code := by
  have counted : ∀ {i} (within : i < entries.length),
      i < Bisection.count (fun e => decide ((span e).upper ≤ code)) entries.toArray ↔
        (span entries[i]).upper ≤ code := fun within =>
    (Bisection.lt_count_iff (ends_closed span nonempty ascending code) within).trans decide_eq_true_iff
  generalize Bisection.count _ entries.toArray = before at counted ⊢
  constructor
  · rintro ⟨listed, member⟩
    obtain ⟨i, within, rfl⟩ := List.mem_iff_getElem.mp listed
    have notBefore : ¬ i < before := fun lt => Int.not_le.mpr member.2 ((counted within).mp lt)
    -- What stands in front of it ends by the code point, and so is counted.
    have notBehind : ¬ before < i := by
      intro lt
      have order := List.pairwise_iff_getElem.mp ascending before i (by omega) within lt
      exact Nat.lt_irrefl before ((counted (by omega)).mpr (Int.le_trans order member.1))
    have exactly : before = i := by omega
    exact ⟨exactly ▸ List.getElem?_eq_getElem within, member.1⟩
  · rintro ⟨found, order⟩
    obtain ⟨within, rfl⟩ := List.getElem?_eq_some_iff.mp found
    exact ⟨List.getElem_mem within, order, Int.not_le.mp (mt (counted within).mpr (Nat.lt_irrefl _))⟩

end

theorem meets_iff_common (first : a.Nonempty) (second : b.Nonempty) : a.meets b = true ↔ ∃ x ∈ a, x ∈ b := by
  simp only [Nonempty] at first second
  rw [meets_iff]
  constructor
  · intro ⟨before, behind⟩
    refine ⟨max a.lower b.lower, ?_, ?_⟩ <;> rw [mem_def] <;> omega
  · intro ⟨x, here, there⟩
    rw [mem_def] at here there
    omega

theorem apart_of_le (order : a.upper ≤ b.lower) : a.Apart b := by
  intro x here there
  rw [mem_def] at here there
  omega

theorem Apart.symm (apart : a.Apart b) : b.Apart a := fun x there here => apart x here there

def Regions.pieces (r : Regions) : List Span := r.low.toList ++ r.mid.toList ++ r.high.toList

theorem Regions.mem_pieces {r : Regions} : s ∈ r.pieces ↔ r.low = some s ∨ r.mid = some s ∨ r.high = some s := by
  simp [pieces]

theorem Regions.pairwise_pieces {r : Regions} {R : Span → Span → Prop} : r.pieces.Pairwise R ↔
    (∀ s t, r.low = some s → r.mid = some t → R s t) ∧ (∀ s t, r.low = some s → r.high = some t → R s t) ∧
      ∀ s t, r.mid = some s → r.high = some t → R s t := by
  obtain ⟨low, mid, high⟩ := r
  cases low <;> cases mid <;> cases high <;> simp [pieces, and_assoc]

structure Regions.MakeUp (r : Regions) (a b : Span) : Prop where
  nonempty : ∀ s ∈ r.pieces, s.Nonempty
  ascending : r.pieces.Pairwise fun s t => s.upper ≤ t.lower ∧ s.Apart t
  covers : ∀ x, (∃ s ∈ r.pieces, x ∈ s) ↔ x ∈ a ∨ x ∈ b
  shared : r.mid.isSome = true ↔ a.meets b = true
  common : ∀ s, r.mid = some s → ∀ x, x ∈ s ↔ x ∈ a ∧ x ∈ b
  sides : ∀ s, r.low = some s ∨ r.high = some s → s.Inside a ∧ s.Apart b ∨ s.Inside b ∧ s.Apart a
  further : ∀ s, r.high = some s → (s.meets a = true ↔ b.upper < a.upper) ∧ (s.meets b = true ↔ a.upper < b.upper)

theorem Regions.MakeUp.symm {r : Regions} (whole : r.MakeUp a b) : r.MakeUp b a where
  nonempty := whole.nonempty
  ascending := whole.ascending
  covers x := (whole.covers x).trans or_comm
  shared := whole.shared.trans (by rw [meets_comm])
  common s mid x := (whole.common s mid x).trans and_comm
  sides s side := (whole.sides s side).symm
  further s high := (whole.further s high).symm

theorem divide_of_before (first : a.Nonempty) (order : a.upper ≤ b.lower) :
    a.divide b = ⟨some a, none, some b⟩ ∧ b.divide a = ⟨some a, none, some b⟩ := by
  simp only [Nonempty] at first
  have apart : ¬ a.meets b = true := by
    rw [meets_iff]
    omega
  constructor
  · rw [divide, if_neg apart, if_pos (by omega)]
  · rw [divide, if_neg (meets_comm a b ▸ apart), if_neg (by omega)]

theorem makeUp_of_before (first : a.Nonempty) (second : b.Nonempty) (order : a.upper ≤ b.lower) :
    (⟨some a, none, some b⟩ : Regions).MakeUp a b where
  nonempty := by simp [Regions.pieces, first, second]
  ascending := by simp [Regions.pieces, order, apart_of_le order]
  covers := by simp [Regions.pieces]
  shared := by
    simp only [Nonempty] at first second
    simp [meets_iff]
    omega
  common := nofun
  sides := by
    rintro s (low | high)
    · cases low
      exact .inl ⟨fun _ here => here, apart_of_le order⟩
    · cases high
      exact .inr ⟨fun _ here => here, (apart_of_le order).symm⟩
  further := by
    rintro s ⟨⟩
    simp only [Nonempty] at first second
    simp only [meets_iff]
    omega

def between (lower upper : Int) : Option Span := if lower = upper then none else some ⟨lower, upper⟩

theorem between_eq_some {lower upper : Int} : between lower upper = some s ↔ lower ≠ upper ∧ s = ⟨lower, upper⟩ := by
  unfold between
  split <;> simp_all [eq_comm]

@[simp] theorem between_self (bound : Int) : between bound bound = none := if_pos rfl

theorem between_of_lt {lower upper : Int} (order : lower < upper) : between lower upper = some ⟨lower, upper⟩ :=
  if_neg (Int.ne_of_lt order)

theorem exists_mem_between {lower upper : Int} :
    (∃ s, between lower upper = some s ∧ x ∈ s) ↔ lower ≤ x ∧ x < upper := by
  simp only [between_eq_some]
  constructor
  · rintro ⟨_, ⟨_, rfl⟩, member⟩
    exact member
  · intro member
    exact ⟨⟨lower, upper⟩, ⟨by omega, rfl⟩, member⟩

def Regions.cut (first second third fourth : Int) : Regions where
  low := between first second
  mid := some ⟨second, third⟩
  high := between third fourth

section

variable {first second third fourth : Int}

theorem Regions.nonempty_cut (low : first ≤ second) (mid : second < third) (high : third ≤ fourth) :
    ∀ s ∈ (cut first second third fourth).pieces, s.Nonempty := by
  intro s listed
  rcases mem_pieces.mp listed with here | here | here
  · obtain ⟨apart, rfl⟩ := between_eq_some.mp here
    exact Int.lt_iff_le_and_ne.mpr ⟨low, apart⟩
  · cases here
    exact mid
  · obtain ⟨apart, rfl⟩ := between_eq_some.mp here
    exact Int.lt_iff_le_and_ne.mpr ⟨high, apart⟩

theorem Regions.ascending_cut (mid : second < third) :
    (cut first second third fourth).pieces.Pairwise fun s t => s.upper ≤ t.lower ∧ s.Apart t := by
  have ordered : ∀ {s t : Span}, s.upper ≤ t.lower → s.upper ≤ t.lower ∧ s.Apart t := fun le => ⟨le, apart_of_le le⟩
  refine pairwise_pieces.mpr ⟨?_, ?_, ?_⟩
  · rintro s t low ⟨⟩
    obtain ⟨_, rfl⟩ := between_eq_some.mp low
    exact ordered (Int.le_refl _)
  · intro s t low high
    obtain ⟨_, rfl⟩ := between_eq_some.mp low
    obtain ⟨_, rfl⟩ := between_eq_some.mp high
    exact ordered (Int.le_of_lt mid)
  · rintro s t ⟨⟩ high
    obtain ⟨_, rfl⟩ := between_eq_some.mp high
    exact ordered (Int.le_refl _)

theorem Regions.covers_cut (low : first ≤ second) (mid : second < third) (high : third ≤ fourth) (x : Int) :
    (∃ s ∈ (cut first second third fourth).pieces, x ∈ s) ↔ first ≤ x ∧ x < fourth := by
  simp only [mem_pieces, cut, or_and_right, exists_or, Option.some.injEq, exists_eq_left']
  rw [exists_mem_between, exists_mem_between]
  simp only [mem_def]
  omega

end

theorem divide_of_meets (meets : a.meets b = true) : a.divide b =
    .cut (min a.lower b.lower) (max a.lower b.lower) (min a.upper b.upper) (max a.upper b.upper) := by
  rw [divide, if_pos meets]
  simp only [Regions.cut, between, ne_eq, ite_not]

theorem divide_comm_of_meets (meets : a.meets b = true) : a.divide b = b.divide a := by
  rw [divide_of_meets meets, divide_of_meets (meets_comm a b ▸ meets), Int.min_comm a.lower, Int.max_comm a.lower,
    Int.min_comm a.upper, Int.max_comm a.upper]

theorem side_below (meets : a.meets b = true) (low : between (min a.lower b.lower) (max a.lower b.lower) = some s) :
    s.Inside a ∧ s.Apart b ∨ s.Inside b ∧ s.Apart a := by
  rw [meets_iff] at meets
  obtain ⟨_, rfl⟩ := between_eq_some.mp low
  simp only [Inside, Apart, mem_def]
  rcases Int.le_total a.lower b.lower with before | behind
  · exact .inl ⟨fun x here => by omega, fun x here => by omega⟩
  · exact .inr ⟨fun x here => by omega, fun x here => by omega⟩

theorem side_above (meets : a.meets b = true) (high : between (min a.upper b.upper) (max a.upper b.upper) = some s) :
    s.Inside a ∧ s.Apart b ∨ s.Inside b ∧ s.Apart a := by
  rw [meets_iff] at meets
  obtain ⟨_, rfl⟩ := between_eq_some.mp high
  simp only [Inside, Apart, mem_def]
  rcases Int.le_total b.upper a.upper with shorter | longer
  · exact .inl ⟨fun x here => by omega, fun x here => by omega⟩
  · exact .inr ⟨fun x here => by omega, fun x here => by omega⟩

theorem makeUp_of_meets (first : a.Nonempty) (second : b.Nonempty) (meets : a.meets b = true) :
    (a.divide b).MakeUp a b := by
  have intersect := meets_iff.mp meets
  simp only [Nonempty] at first second
  have low : min a.lower b.lower ≤ max a.lower b.lower := by omega
  have mid : max a.lower b.lower < min a.upper b.upper := by omega
  have high : min a.upper b.upper ≤ max a.upper b.upper := by omega
  rw [divide_of_meets meets]
  refine ⟨Regions.nonempty_cut low mid high, Regions.ascending_cut mid, fun x => ?_, by simp [Regions.cut, meets], ?_,
    fun s => Or.rec (side_below meets) (side_above meets), fun s there => ?_⟩
  · rw [Regions.covers_cut low mid high, mem_def, mem_def]
    omega
  · rintro s ⟨⟩ x
    simp only [mem_def]
    omega
  · obtain ⟨_, rfl⟩ := between_eq_some.mp there
    simp only [meets_iff]
    omega

/-- Two spans divide into the same regions in either order, and the regions make up the two spans: pieces one behind
the other, with what both share in the middle. -/
theorem divide_makes_up (first : a.Nonempty) (second : b.Nonempty) :
    (a.meets b = true ↔ ∃ x ∈ a, x ∈ b) ∧ a.divide b = b.divide a ∧ (a.divide b).MakeUp a b := by
  refine ⟨meets_iff_common first second, ?_⟩
  by_cases meets : a.meets b = true
  · exact ⟨divide_comm_of_meets meets, makeUp_of_meets first second meets⟩
  · have order : a.upper ≤ b.lower ∨ b.upper ≤ a.lower := by
      rw [meets_iff] at meets
      omega
    -- Spans that do not meet are the regions themselves, in the order in which they lie.
    rcases order with before | behind
    · obtain ⟨here, there⟩ := divide_of_before first before
      rw [here, there]
      exact ⟨rfl, makeUp_of_before first second before⟩
    · obtain ⟨there, here⟩ := divide_of_before second behind
      rw [here, there]
      exact ⟨rfl, (makeUp_of_before second first behind).symm⟩

theorem crossing_make_up : (⟨1, 4⟩ : Span).Nonempty ∧ (⟨2, 6⟩ : Span).Nonempty ∧
    divide ⟨1, 4⟩ ⟨2, 6⟩ = ⟨some ⟨1, 2⟩, some ⟨2, 4⟩, some ⟨4, 6⟩⟩ ∧
    (meets ⟨1, 4⟩ ⟨2, 6⟩ = true ↔ ∃ x ∈ (⟨1, 4⟩ : Span), x ∈ (⟨2, 6⟩ : Span)) ∧
    divide ⟨1, 4⟩ ⟨2, 6⟩ = divide ⟨2, 6⟩ ⟨1, 4⟩ ∧ (divide ⟨1, 4⟩ ⟨2, 6⟩).MakeUp ⟨1, 4⟩ ⟨2, 6⟩ := by
  have first : (⟨1, 4⟩ : Span).Nonempty := by decide
  have second : (⟨2, 6⟩ : Span).Nonempty := by decide
  exact ⟨first, second, by decide, divide_makes_up first second⟩

end Packrat.Span
