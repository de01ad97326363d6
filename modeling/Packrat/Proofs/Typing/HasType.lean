import Mathlib.Data.List.Forall2
import Packrat.Expr.Contribution
import Packrat.Typing.ValueType
import Packrat.Value

namespace Packrat

/-- The value is of the type, where names stand for sets of values. No value is of the unknown type. -/
inductive HasType (A : String → Value → Prop) : ValueType → Value → Prop where
  | nothing : HasType A .unit .none
  | nothings {vs} (each : ∀ v ∈ vs, HasType A .unit v) : HasType A .unit (.list vs)
  | named {name v} (member : A name v) : HasType A (.named name) v
  | tuple {types vs} (each : List.Forall₂ (HasType A) types vs) : HasType A (.tuple types) (.tuple vs)
  | list {type vs} (each : ∀ v ∈ vs, HasType A type v) : HasType A (.list type) (.list vs)
  | absent {type} : HasType A (.option type) .none
  | present {type v} (here : HasType A type v) : HasType A (.option type) v

namespace ValueType

mutual
theorem unify_comm : ∀ a b : ValueType, unify a b = unify b a
  | .unknown, b => by cases b <;> simp [unify]
  | .unit, b => by cases b <;> simp [unify]
  | .named m, b => by
    cases b with
    | named n =>
      simp only [unify]
      by_cases same : m = n
      · rw [same]
      · rw [if_neg same, if_neg fun h => same h.symm]
    | _ => simp [unify]
  | .tuple as, b => by cases b <;> simp [unify, unifyAll_comm as]
  | .list a, b => by cases b <;> simp [unify, unify_comm a]
  | .option a, b => by cases b <;> simp [unify, unify_comm a]

theorem unifyAll_comm : ∀ as bs : List ValueType, unifyAll as bs = unifyAll bs as
  | [], bs => by cases bs <;> simp [unifyAll]
  | a :: as, bs => by cases bs <;> simp [unifyAll, unify_comm a, unifyAll_comm as]
end

def common? : List ValueType → Option ValueType
  | [] => none
  | first :: rest => rest.foldlM unify first

end ValueType

section

variable {A : String → Value → Prop} {a b u : ValueType} {v : Value}

theorem not_hasType_unknown : ¬ HasType A .unknown v := nofun

mutual
theorem HasType.unify : ∀ {a b u : ValueType} {v : Value}, HasType A a v → a.unify b = some u → HasType A u v
  | .unknown, _, _, _, here, _ => absurd here not_hasType_unknown
  | .unit, b, u, v, here, unified => by
    cases b <;> simp_all [ValueType.unify]
  | .named m, b, u, v, here, unified => by
    cases b <;> simp_all [ValueType.unify]
  | .tuple as, b, u, v, here, unified => by
    cases b with
    | unknown => simp_all [ValueType.unify]
    | tuple bs =>
      obtain ⟨us, inner, rfl⟩ := Option.map_eq_some_iff.mp unified
      cases here with
      | tuple each => exact .tuple (HasType.unifyAll each inner)
    | _ => cases unified
  | .list a, b, u, v, here, unified => by
    cases b with
    | unknown => simp_all [ValueType.unify]
    | list b =>
      obtain ⟨u, inner, rfl⟩ := Option.map_eq_some_iff.mp unified
      cases here with
      | list each => exact .list fun v member => (each v member).unify inner
    | _ => cases unified
  | .option a, b, u, v, here, unified => by
    cases b with
    | unknown => simp_all [ValueType.unify]
    | option b =>
      obtain ⟨u, inner, rfl⟩ := Option.map_eq_some_iff.mp unified
      cases here with
      | absent => exact .absent
      | present here => exact .present (here.unify inner)
    | _ => cases unified

theorem HasType.unifyAll : ∀ {as bs us : List ValueType} {vs : List Value}, List.Forall₂ (HasType A) as vs →
    ValueType.unifyAll as bs = some us → List.Forall₂ (HasType A) us vs
  | [], bs, us, vs, here, unified => by
    cases bs with
    | nil =>
      cases unified
      exact here
    | cons => cases unified
  | a :: as, bs, us, vs, here, unified => by
    cases bs with
    | nil => cases unified
    | cons b bs =>
      simp only [ValueType.unifyAll, Option.bind_eq_bind, Option.bind_eq_some_iff] at unified
      obtain ⟨u, first, us, rest, same⟩ := unified
      cases same
      cases here with
      | cons here others => exact .cons (here.unify first) (HasType.unifyAll others rest)
end

theorem HasType.unify_right (here : HasType A b v) (unified : a.unify b = some u) : HasType A u v :=
  here.unify ((ValueType.unify_comm b a).trans unified)

theorem HasType.foldl_unify {types : List ValueType} (unified : types.foldlM ValueType.unify a = some u) :
    (HasType A a v → HasType A u v) ∧ ∀ t ∈ types, HasType A t v → HasType A u v := by
  induction types generalizing a with
  | nil =>
    cases unified
    exact ⟨id, by simp⟩
  | cons t types ih =>
    obtain ⟨w, first, rest⟩ := Option.bind_eq_some_iff.mp unified
    obtain ⟨onward, others⟩ := ih rest
    refine ⟨fun here => onward (here.unify first), fun t' member here => ?_⟩
    rcases List.mem_cons.mp member with rfl | member
    · exact onward (here.unify_right first)
    · exact others t' member here

theorem HasType.common {types : List ValueType} {t : ValueType} (agreed : ValueType.common? types = some u)
    (member : t ∈ types) (here : HasType A t v) : HasType A u v := by
  cases types with
  | nil => cases member
  | cons first rest =>
    obtain ⟨onward, others⟩ := HasType.foldl_unify (A := A) (v := v) agreed
    rcases List.mem_cons.mp member with rfl | member
    · exact onward here
    · exact others t member here

theorem HasType.optionOf (here : HasType A a v) : HasType A a.optionOf v := by
  cases a with
  | unit => exact here
  | _ => exact .present here

theorem HasType.none_optionOf : HasType A a.optionOf .none := by
  cases a with
  | unit => exact .nothing
  | _ => exact .absent

theorem HasType.listOf {vs : List Value} (each : ∀ v ∈ vs, HasType A a v) : HasType A a.listOf (.list vs) := by
  cases a with
  | unit => exact .nothings each
  | _ => exact .list each

theorem HasType.gather {types : List ValueType} {vs : List Value} (each : List.Forall₂ (HasType A) types vs) :
    HasType A (.gather types) (.gather vs) := by
  cases each with
  | nil => exact .nothing
  | cons first rest =>
    cases rest with
    | nil => exact first
    | cons second rest => exact .tuple (.cons first (.cons second rest))

end

theorem forall₂_select {α β : Type} {R : α → β → Prop} {xs : List α} {ys : List β} (each : List.Forall₂ R xs ys)
    (mask : List Bool) : List.Forall₂ R (Packrat.select mask xs) (Packrat.select mask ys) := by
  induction each generalizing mask with
  | nil => cases mask <;> simp [Packrat.select]
  | cons here _ ih =>
    cases mask with
    | nil => simp [Packrat.select]
    | cons kept mask =>
      cases kept with
      | true => exact .cons here (ih mask)
      | false => exact ih mask

end Packrat
