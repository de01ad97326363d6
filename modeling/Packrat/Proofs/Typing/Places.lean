import Packrat.Proofs.Typing.Refinement

namespace Packrat.ValueType

def child : ValueType → Nat → Option ValueType
  | .tuple items, i => items[i]?
  | .list item, 0 | .option item, 0 => some item
  | _, _ => none

def part : ValueType → List Nat → Option ValueType
  | t, [] => some t
  | t, i :: place => (t.child i).bind fun item => part item place

def Known (t : ValueType) (place : List Nat) : Prop := ∃ x, t.part place = some x ∧ x ≠ .unknown

variable {lenient : Bool} {a b c t u x : ValueType} {as bs us ts : List ValueType} {place rest : List Nat} {i : Nat}

theorem part_append (t : ValueType) (place rest : List Nat) :
    t.part (place ++ rest) = (t.part place).bind fun item => item.part rest := by
  induction place generalizing t with
  | nil => rfl
  | cons i place ih => simp only [List.cons_append, part, ih, Option.bind_assoc]

theorem known_nil (some : t ≠ .unknown) : t.Known [] := ⟨t, rfl, some⟩

theorem known_cons : t.Known (i :: place) ↔ ∃ item, t.child i = some item ∧ item.Known place := by
  simp only [Known, part, Option.bind_eq_some_iff]
  constructor
  · rintro ⟨x, ⟨item, here, there⟩, some⟩
    exact ⟨item, here, x, there, some⟩
  · rintro ⟨item, here, x, there, some⟩
    exact ⟨x, ⟨item, here, there⟩, some⟩

theorem not_known_unknown : ¬ Known .unknown place := by
  cases place with
  | nil =>
    rintro ⟨x, here, some⟩
    cases here
    exact some rfl
  | cons i place =>
    rintro ⟨x, here, _⟩
    cases here

theorem child_fits (fits : Fits false a b) (here : a.child i = some x) :
    ∃ y, b.child i = some y ∧ Fits false x y := by
  cases a with
  | tuple as =>
    cases b <;> simp only [Fits] at fits
    exact getElem?_of_forall₂ (fitsAll_iff.mp fits) here
  | list a | option a =>
    cases b <;> simp only [Fits, Bool.false_eq_true, false_and] at fits
    cases i with
    | zero =>
      cases here
      exact ⟨_, rfl, fits⟩
    | succ => cases here
  | _ => cases here

theorem part_fits (fits : Fits false a b) (here : a.part place = some x) :
    ∃ y, b.part place = some y ∧ Fits false x y := by
  induction place generalizing a b with
  | nil =>
    cases here
    exact ⟨b, rfl, fits⟩
  | cons i place ih =>
    rw [part, Option.bind_eq_some_iff] at here
    obtain ⟨item, first, here⟩ := here
    obtain ⟨item', first', fits⟩ := child_fits fits first
    obtain ⟨y, there, fits⟩ := ih fits here
    exact ⟨y, by rw [part, first', Option.bind_some, there], fits⟩

theorem Known.mono (known : a.Known place) (fits : Fits false a b) : b.Known place := by
  obtain ⟨x, here, some⟩ := known
  obtain ⟨y, there, fits⟩ := part_fits fits here
  exact ⟨y, there, fun nothing => some (fits_unknown (nothing ▸ fits))⟩

mutual
theorem eq_of_known : ∀ {a b : ValueType}, Fits false a b → (∀ place, b.Known place → a.Known place) → a = b
  | .unknown, b, _, covered => by
    by_contra other
    exact not_known_unknown (covered [] (known_nil fun same => other same.symm))
  | .unit, b, fits, _ => (unit_fits fits).symm
  | .named _, b, fits, _ => by cases b <;> simp_all [Fits]
  | .tuple as, b, fits, covered => by
    cases b <;> simp only [Fits] at fits
    refine congrArg tuple (eq_of_allKnown fits fun i a b here there place known => ?_)
    obtain ⟨_, item, known⟩ := known_cons.mp (covered (i :: place) (known_cons.mpr ⟨b, there, known⟩))
    cases here.symm.trans item
    exact known
  | .list a, b, fits, covered | .option a, b, fits, covered => by
    cases b <;> simp only [Fits, Bool.false_eq_true, false_and] at fits
    refine congrArg _ (eq_of_known fits fun place known => ?_)
    obtain ⟨_, item, known⟩ := known_cons.mp (covered (0 :: place) (known_cons.mpr ⟨_, rfl, known⟩))
    cases item
    exact known

theorem eq_of_allKnown : ∀ {as bs : List ValueType}, FitsAll false as bs →
    (∀ (i : Nat) (a b : ValueType), as[i]? = some a → bs[i]? = some b → ∀ place, b.Known place →
      a.Known place) → as = bs
  | [], bs, fit, _ => by cases bs <;> simp_all [FitsAll]
  | a :: as, bs, fit, covered => by
    cases bs <;> simp only [FitsAll] at fit
    rw [eq_of_known fit.1 (covered 0 _ _ rfl rfl)]
    rw [eq_of_allKnown fit.2 fun i a b here there => covered (i + 1) a b here there]
end

theorem child_of_unifyAll (agreed : unifyAll as bs = some us) (here : us[i]? = some u) :
    ∃ a b, as[i]? = some a ∧ bs[i]? = some b ∧ unify a b = some u := by
  induction as generalizing bs us i with
  | nil =>
    cases bs <;> simp only [unifyAll, reduceCtorEq, Option.some.injEq] at agreed
    cases agreed
    cases here
  | cons a as ih =>
    cases bs <;> simp only [unifyAll, reduceCtorEq, Option.bind_eq_bind, Option.bind_eq_some_iff] at agreed
    obtain ⟨w, first, ws, others, same⟩ := agreed
    cases same
    cases i with
    | zero =>
      cases here
      exact ⟨_, _, rfl, rfl, first⟩
    | succ i => exact ih others here

theorem child_of_unify (agreed : unify a b = some u) (here : u.child i = some x) :
    a.child i = some x ∨ b.child i = some x ∨ ∃ y z, a.child i = some y ∧ b.child i = some z ∧ unify y z = some x := by
  cases a with
  | unknown =>
    rw [unify, Option.some.injEq] at agreed
    exact .inr (.inl (agreed ▸ here))
  | unit | named _ =>
    cases b <;> simp only [unify, reduceCtorEq, Option.ite_none_right_eq_some, Option.some.injEq] at agreed <;>
      simp [← agreed, child] at here
  | tuple as =>
    cases b <;> simp only [unify, reduceCtorEq, Option.some.injEq, Option.map_eq_some_iff] at agreed
    · exact .inl (agreed ▸ here)
    · obtain ⟨us, parts, rfl⟩ := agreed
      exact .inr (.inr (child_of_unifyAll parts here))
  | list a | option a =>
    cases b <;> simp only [unify, reduceCtorEq, Option.some.injEq, Option.map_eq_some_iff] at agreed
    · exact .inl (agreed ▸ here)
    · obtain ⟨u, item, rfl⟩ := agreed
      cases i with
      | zero =>
        cases here
        exact .inr (.inr ⟨_, _, rfl, rfl, item⟩)
      | succ => cases here

theorem known_unify (agreed : unify a b = some u) (known : u.Known place) : a.Known place ∨ b.Known place := by
  induction place generalizing a b u with
  | nil =>
    by_cases nothing : a = .unknown
    · rw [nothing, unify, Option.some.injEq] at agreed
      exact .inr (agreed ▸ known)
    · exact .inl (known_nil nothing)
  | cons i place ih =>
    obtain ⟨item, here, known⟩ := known_cons.mp known
    rcases child_of_unify agreed here with there | there | ⟨y, z, first, second, agreed⟩
    · exact .inl (known_cons.mpr ⟨item, there, known⟩)
    · exact .inr (known_cons.mpr ⟨item, there, known⟩)
    · refine (ih agreed known).imp (fun known => ?_) fun known => ?_
      · exact known_cons.mpr ⟨y, first, known⟩
      · exact known_cons.mpr ⟨z, second, known⟩

theorem known_foldlM (agreed : ts.foldlM unify t = some u) (known : u.Known place) :
    t.Known place ∨ ∃ x ∈ ts, x.Known place := by
  induction ts generalizing t with
  | nil =>
    cases agreed
    exact .inl known
  | cons x ts ih =>
    simp only [List.foldlM_cons, Option.bind_eq_bind, Option.bind_eq_some_iff] at agreed
    obtain ⟨w, here, rest⟩ := agreed
    rcases ih rest with known | ⟨y, listed, known⟩
    · exact (known_unify here known).imp_right fun known => ⟨x, List.mem_cons_self, known⟩
    · exact .inr ⟨y, List.mem_cons_of_mem _ listed, known⟩

theorem known_common? (agreed : common? ts = some u) (known : u.Known place) : ∃ x ∈ ts, x.Known place := by
  cases ts with
  | nil => cases agreed
  | cons first rest =>
    rcases known_foldlM agreed known with known | ⟨x, listed, known⟩
    · exact ⟨first, List.mem_cons_self, known⟩
    · exact ⟨x, List.mem_cons_of_mem _ listed, known⟩

mutual
theorem sizeOf_le_of_fits : ∀ {a b : ValueType}, Fits false a b → sizeOf a ≤ sizeOf b
  | .unknown, b, _ => by cases b <;> simp
  | .unit, b, fits | .named _, b, fits => by cases b <;> simp_all [Fits]
  | .tuple as, b, fits => by
    cases b <;> simp only [Fits] at fits
    simpa using sizeOf_le_of_fitsAll fits
  | .list a, b, fits | .option a, b, fits => by
    cases b <;> simp only [Fits, Bool.false_eq_true, false_and] at fits
    simpa using sizeOf_le_of_fits fits

theorem sizeOf_le_of_fitsAll : ∀ {as bs : List ValueType}, FitsAll false as bs → sizeOf as ≤ sizeOf bs
  | [], bs, fit => by cases bs <;> simp_all [FitsAll]
  | a :: as, bs, fit => by
    cases bs <;> simp only [FitsAll] at fit
    have first := sizeOf_le_of_fits fit.1
    have rest := sizeOf_le_of_fitsAll fit.2
    simp only [List.cons.sizeOf_spec]
    omega
end

theorem sizeOf_child_lt (here : t.child i = some x) : sizeOf x < sizeOf t := by
  cases t with
  | tuple ts =>
    have smaller := List.sizeOf_lt_of_mem (List.mem_of_getElem? here)
    simp only [tuple.sizeOf_spec]
    omega
  | list t | option t =>
    cases i with
    | zero =>
      cases here
      simp
    | succ => cases here
  | _ => cases here

theorem sizeOf_part_le (here : t.part place = some x) : sizeOf x ≤ sizeOf t := by
  induction place generalizing t with
  | nil =>
    cases here
    exact Nat.le_refl _
  | cons i place ih =>
    rw [part, Option.bind_eq_some_iff] at here
    obtain ⟨item, first, here⟩ := here
    exact Nat.le_trans (ih here) (Nat.le_of_lt (sizeOf_child_lt first))

theorem not_fits_part (here : t.part (i :: place) = some x) : ¬ Fits false t x := by
  intro fits
  rw [part, Option.bind_eq_some_iff] at here
  obtain ⟨item, first, here⟩ := here
  have outer := sizeOf_child_lt first
  have inner := sizeOf_part_le here
  have whole := sizeOf_le_of_fits fits
  omega

end Packrat.ValueType
