import Packrat.Proofs.Lists
import Packrat.Proofs.Typing.HasType

namespace Packrat.ValueType

mutual
/-- The second type says all that the first one does, and maybe more. -/
def Fits (lenient : Bool) : ValueType → ValueType → Prop
  | .unknown, _ | .unit, .unit => True
  | .named a, .named b => a = b
  | .tuple as, .tuple bs => FitsAll lenient as bs
  | .list a, .list b | .option a, .option b => Fits lenient a b
  | .list a, .unit | .option a, .unit => lenient = true ∧ Fits lenient a .unit
  | _, _ => False

def FitsAll (lenient : Bool) : List ValueType → List ValueType → Prop
  | [], [] => True
  | a :: as, b :: bs => Fits lenient a b ∧ FitsAll lenient as bs
  | _, _ => False
end

section

variable {lenient : Bool} {a b c u : ValueType} {as bs : List ValueType}

theorem fitsAll_iff : FitsAll lenient as bs ↔ List.Forall₂ (Fits lenient) as bs := by
  induction as generalizing bs with
  | nil => cases bs <;> simp [FitsAll]
  | cons a as ih => cases bs <;> simp [FitsAll, ih]

theorem unknown_fits (t : ValueType) : Fits lenient .unknown t := by
  rw [Fits]
  trivial

theorem fits_unknown (fits : Fits lenient a .unknown) : a = .unknown := by
  cases a <;> simp_all [Fits]

theorem unit_fits (fits : Fits lenient .unit a) : a = .unit := by
  cases a <;> simp_all [Fits]

mutual
theorem Fits.refl : ∀ t : ValueType, Fits lenient t t
  | .unknown | .unit | .named _ => by simp [Fits]
  | .tuple ts => by
    rw [Fits]
    exact FitsAll.refl ts
  | .list t | .option t => by
    rw [Fits]
    exact Fits.refl t

theorem FitsAll.refl : ∀ ts : List ValueType, FitsAll lenient ts ts
  | [] => by rw [FitsAll]; trivial
  | t :: ts => by
    rw [FitsAll]
    exact ⟨Fits.refl t, FitsAll.refl ts⟩
end

mutual
theorem Fits.trans : ∀ {a b c : ValueType}, Fits lenient a b → Fits lenient b c → Fits lenient a c
  | .unknown, _, c, _, _ => unknown_fits c
  | .unit, b, c, first, second => by
    cases unit_fits first
    exact second
  | .named _, b, c, first, second => by cases b <;> cases c <;> simp_all [Fits]
  | .tuple as, b, c, first, second => by
    cases b <;> cases c <;> simp only [Fits] at first second ⊢
    exact FitsAll.trans first second
  | .list a, b, c, first, second | .option a, b, c, first, second => by
    cases b <;> cases c <;> simp only [Fits] at first second ⊢
    · exact first
    · exact ⟨second.1, Fits.trans first second.2⟩
    · exact Fits.trans first second

theorem FitsAll.trans : ∀ {as bs cs : List ValueType}, FitsAll lenient as bs → FitsAll lenient bs cs →
    FitsAll lenient as cs
  | [], bs, cs, first, second => by
    cases bs <;> cases cs <;> simp_all [FitsAll]
  | a :: as, bs, cs, first, second => by
    cases bs <;> cases cs <;> simp only [FitsAll] at first second ⊢
    exact ⟨Fits.trans first.1 second.1, FitsAll.trans first.2 second.2⟩
end

mutual
theorem Fits.antisymm : ∀ {a b : ValueType}, Fits lenient a b → Fits lenient b a → a = b
  | .unknown, b, _, back => (fits_unknown back).symm
  | .unit, b, there, _ => (unit_fits there).symm
  | .named _, b, there, _ => by cases b <;> simp_all [Fits]
  | .tuple as, b, there, back => by
    cases b <;> simp only [Fits] at there back
    rw [FitsAll.antisymm there back]
  | .list a, b, there, back | .option a, b, there, back => by
    cases b <;> simp only [Fits] at there back
    rw [Fits.antisymm there back]

theorem FitsAll.antisymm : ∀ {as bs : List ValueType}, FitsAll lenient as bs → FitsAll lenient bs as → as = bs
  | [], bs, there, _ => by cases bs <;> simp_all [FitsAll]
  | a :: as, bs, there, back => by
    cases bs <;> simp only [FitsAll] at there back
    rw [Fits.antisymm there.1 back.1, FitsAll.antisymm there.2 back.2]
end

mutual
theorem Fits.loosen : ∀ {a b : ValueType}, Fits false a b → Fits lenient a b
  | .unknown, b, _ => unknown_fits b
  | .unit, b, fits | .named _, b, fits => by cases b <;> simp_all [Fits]
  | .tuple as, b, fits => by
    cases b <;> simp only [Fits] at fits ⊢
    exact FitsAll.loosen fits
  | .list a, b, fits | .option a, b, fits => by
    cases b <;> simp only [Fits, Bool.false_eq_true, false_and] at fits ⊢
    exact Fits.loosen fits

theorem FitsAll.loosen : ∀ {as bs : List ValueType}, FitsAll false as bs → FitsAll lenient as bs
  | [], bs, fits => by cases bs <;> simp_all [FitsAll]
  | a :: as, bs, fits => by
    cases bs <;> simp only [FitsAll] at fits ⊢
    exact ⟨Fits.loosen fits.1, FitsAll.loosen fits.2⟩
end

mutual
theorem fits_unify : ∀ {a b u : ValueType}, unify a b = some u → Fits lenient a u
  | .unknown, _, u, _ => unknown_fits u
  | .unit, b, u, agreed | .named _, b, u, agreed => by
    cases b <;> simp only [unify, reduceCtorEq, Option.ite_none_right_eq_some, Option.some.injEq] at agreed <;>
      simp [← agreed, Fits]
  | .tuple as, b, u, agreed => by
    cases b <;> simp only [unify, reduceCtorEq, Option.some.injEq, Option.map_eq_some_iff] at agreed
    · subst agreed
      exact .refl _
    · obtain ⟨us, parts, rfl⟩ := agreed
      rw [Fits]
      exact fitsAll_unifyAll parts
  | .list a, b, u, agreed | .option a, b, u, agreed => by
    cases b <;> simp only [unify, reduceCtorEq, Option.some.injEq, Option.map_eq_some_iff] at agreed
    · subst agreed
      exact .refl _
    · obtain ⟨u, item, rfl⟩ := agreed
      rw [Fits]
      exact fits_unify item

theorem fitsAll_unifyAll : ∀ {as bs us : List ValueType}, unifyAll as bs = some us → FitsAll lenient as us
  | [], bs, us, agreed => by
    cases bs <;> simp only [unifyAll, reduceCtorEq, Option.some.injEq] at agreed
    simp [← agreed, FitsAll]
  | a :: as, bs, us, agreed => by
    cases bs <;> simp only [unifyAll, reduceCtorEq, Option.bind_eq_bind, Option.bind_eq_some_iff] at agreed
    obtain ⟨u, first, us, rest, same⟩ := agreed
    cases same
    rw [FitsAll]
    exact ⟨fits_unify first, fitsAll_unifyAll rest⟩
end

theorem fits_unify' (agreed : unify a b = some u) : Fits lenient b u := by
  rw [unify_comm] at agreed
  exact fits_unify agreed

mutual
theorem unify_fits :
    ∀ {a b c u : ValueType}, Fits lenient a c → Fits lenient b c → unify a b = some u → Fits lenient u c
  | .unknown, _, _, _, _, second, agreed => by
    rw [unify, Option.some.injEq] at agreed
    rwa [← agreed]
  | .unit, b, c, u, first, second, agreed | .named _, b, c, u, first, second, agreed => by
    cases b <;> simp only [unify, reduceCtorEq, Option.ite_none_right_eq_some, Option.some.injEq] at agreed <;>
      simpa [← agreed] using first
  | .tuple as, b, c, u, first, second, agreed => by
    cases b <;> simp only [unify, reduceCtorEq, Option.some.injEq, Option.map_eq_some_iff] at agreed
    · rwa [← agreed]
    · obtain ⟨us, parts, rfl⟩ := agreed
      cases c <;> simp only [Fits] at first second ⊢
      exact unifyAll_fitsAll first second parts
  | .list a, b, c, u, first, second, agreed | .option a, b, c, u, first, second, agreed => by
    cases b <;> simp only [unify, reduceCtorEq, Option.some.injEq, Option.map_eq_some_iff] at agreed
    · rwa [← agreed]
    · obtain ⟨u, item, rfl⟩ := agreed
      cases c <;> simp only [Fits] at first second ⊢
      · exact ⟨first.1, unify_fits first.2 second.2 item⟩
      · exact unify_fits first second item

theorem unifyAll_fitsAll : ∀ {as bs cs us : List ValueType}, FitsAll lenient as cs → FitsAll lenient bs cs →
    unifyAll as bs = some us → FitsAll lenient us cs
  | [], bs, cs, us, first, second, agreed => by
    cases bs <;> simp only [unifyAll, reduceCtorEq, Option.some.injEq] at agreed
    rwa [← agreed]
  | a :: as, bs, cs, us, first, second, agreed => by
    cases bs <;> simp only [unifyAll, reduceCtorEq, Option.bind_eq_bind, Option.bind_eq_some_iff] at agreed
    obtain ⟨u, here, us, rest, same⟩ := agreed
    cases same
    cases cs <;> simp only [FitsAll] at first second ⊢
    exact ⟨unify_fits first.1 second.1 here, unifyAll_fitsAll first.2 second.2 rest⟩
end

mutual
theorem exists_unify : ∀ {a b c : ValueType}, Fits false a c → Fits false b c → ∃ u, unify a b = some u
  | .unknown, b, _, _, _ => ⟨b, by rw [unify]⟩
  | .unit, b, c, first, second | .named _, b, c, first, second => by
    cases b <;> cases c <;> simp_all [Fits, unify]
  | .tuple as, b, c, first, second => by
    cases b <;> cases c <;> simp only [Fits] at first second <;> simp only [unify, Option.some.injEq, exists_eq']
    obtain ⟨us, agreed⟩ := exists_unifyAll first second
    exact ⟨.tuple us, by rw [agreed]; rfl⟩
  | .list a, b, c, first, second | .option a, b, c, first, second => by
    cases b <;> cases c <;> simp only [Fits, Bool.false_eq_true, false_and] at first second <;>
      simp only [unify, Option.some.injEq, exists_eq']
    obtain ⟨u, agreed⟩ := exists_unify first second
    exact ⟨_, by rw [agreed]; rfl⟩

theorem exists_unifyAll : ∀ {as bs cs : List ValueType}, FitsAll false as cs → FitsAll false bs cs →
    ∃ us, unifyAll as bs = some us
  | [], bs, cs, first, second => by
    cases bs <;> cases cs <;> simp_all [FitsAll, unifyAll]
  | a :: as, bs, cs, first, second => by
    cases bs <;> cases cs <;> simp only [FitsAll] at first second
    obtain ⟨u, here⟩ := exists_unify first.1 second.1
    obtain ⟨us, rest⟩ := exists_unifyAll first.2 second.2
    exact ⟨u :: us, by simp [unifyAll, here, rest]⟩
end

end

section

variable {lenient : Bool} {a b c t u : ValueType} {as bs ts : List ValueType}

theorem fits_foldlM (agreed : ts.foldlM unify t = some u) : Fits lenient t u ∧ ∀ x ∈ ts, Fits lenient x u := by
  induction ts generalizing t with
  | nil =>
    cases agreed
    exact ⟨.refl u, by simp⟩
  | cons x ts ih =>
    simp only [List.foldlM_cons, Option.bind_eq_bind, Option.bind_eq_some_iff] at agreed
    obtain ⟨w, here, rest⟩ := agreed
    obtain ⟨before, after⟩ := ih rest
    exact ⟨(fits_unify here).trans before, List.forall_mem_cons.mpr ⟨(fits_unify' here).trans before, after⟩⟩

theorem fits_common? (agreed : common? ts = some u) (listed : t ∈ ts) : Fits lenient t u := by
  cases ts with
  | nil => cases agreed
  | cons first rest =>
    obtain ⟨here, later⟩ := fits_foldlM agreed
    rcases List.mem_cons.mp listed with rfl | listed
    · exact here
    · exact later t listed

theorem foldlM_fits (fits : Fits lenient t c) (each : ∀ x ∈ ts, Fits lenient x c)
    (agreed : ts.foldlM unify t = some u) : Fits lenient u c := by
  induction ts generalizing t with
  | nil =>
    cases agreed
    exact fits
  | cons x ts ih =>
    simp only [List.foldlM_cons, Option.bind_eq_bind, Option.bind_eq_some_iff] at agreed
    obtain ⟨w, here, rest⟩ := agreed
    obtain ⟨first, each⟩ := List.forall_mem_cons.mp each
    exact ih (unify_fits fits first here) each rest

theorem common?_fits (each : ∀ t ∈ ts, Fits lenient t c) (agreed : common? ts = some u) : Fits lenient u c := by
  cases ts with
  | nil => cases agreed
  | cons first rest =>
    obtain ⟨here, each⟩ := List.forall_mem_cons.mp each
    exact foldlM_fits here each agreed

theorem exists_foldlM (fits : Fits false t c) (each : ∀ x ∈ ts, Fits false x c) :
    ∃ u, ts.foldlM unify t = some u := by
  induction ts generalizing t with
  | nil => exact ⟨t, rfl⟩
  | cons x ts ih =>
    obtain ⟨first, each⟩ := List.forall_mem_cons.mp each
    obtain ⟨w, here⟩ := exists_unify fits first
    obtain ⟨u, rest⟩ := ih (unify_fits fits first here) each
    exact ⟨u, by simp [List.foldlM_cons, here, rest]⟩

theorem exists_common? (fit : List.Forall₂ (Fits false) as bs) (agreed : common? bs = some u) :
    ∃ t, common? as = some t := by
  cases fit with
  | nil => cases agreed
  | @cons a b as bs here rest =>
    obtain ⟨first, others⟩ : Fits false b u ∧ ∀ x ∈ bs, Fits false x u := fits_foldlM agreed
    refine exists_foldlM (here.trans first) fun x listed => ?_
    obtain ⟨y, member, fits⟩ := exists_of_forall₂ rest listed
    exact fits.trans (others y member)

theorem common?_mono (fit : List.Forall₂ (Fits lenient) as bs) (agreed : common? as = some a)
    (agreed' : common? bs = some b) : Fits lenient a b := by
  refine common?_fits (fun x listed => ?_) agreed
  obtain ⟨y, member, fits⟩ := exists_of_forall₂ fit listed
  exact fits.trans (fits_common? agreed' member)

theorem gather_mono (fit : List.Forall₂ (Fits lenient) as bs) : Fits lenient (gather as) (gather bs) := by
  match fit with
  | .nil => exact .refl _
  | .cons here .nil => exact here
  | .cons here (.cons next rest) => exact fitsAll_iff.mpr (.cons here (.cons next rest))

theorem optionOf_eq (t : ValueType) : optionOf t = if t = .unit then .unit else .option t := by cases t <;> rfl

theorem listOf_eq (t : ValueType) : listOf t = if t = .unit then .unit else .list t := by cases t <;> rfl

theorem wrap_mono {wrap : ValueType → ValueType} (inside : Fits lenient (wrap a) (wrap b) ↔ Fits lenient a b)
    (void : Fits lenient (wrap a) .unit ↔ lenient = true ∧ Fits lenient a .unit) (fits : Fits lenient a b)
    (sure : lenient = false → b = .unit → a = .unit) :
    Fits lenient (if a = .unit then .unit else wrap a) (if b = .unit then .unit else wrap b) := by
  by_cases nothing : a = .unit
  · rw [if_pos nothing, if_pos (unit_fits (nothing ▸ fits))]
    exact .refl _
  · rw [if_neg nothing]
    by_cases turned : b = .unit
    · rw [if_pos turned, void]
      refine ⟨?_, turned ▸ fits⟩
      cases lenient with
      | true => rfl
      | false => exact absurd (sure rfl turned) nothing
    · rwa [if_neg turned, inside]

theorem optionOf_mono (fits : Fits lenient a b) (sure : lenient = false → b = .unit → a = .unit) :
    Fits lenient (optionOf a) (optionOf b) := by
  rw [optionOf_eq, optionOf_eq]
  exact wrap_mono (by simp [Fits]) (by simp [Fits]) fits sure

theorem listOf_mono (fits : Fits lenient a b) (sure : lenient = false → b = .unit → a = .unit) :
    Fits lenient (listOf a) (listOf b) := by
  rw [listOf_eq, listOf_eq]
  exact wrap_mono (by simp [Fits]) (by simp [Fits]) fits sure

end

end Packrat.ValueType
