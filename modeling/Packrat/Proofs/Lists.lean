import Mathlib.Data.List.Forall2
import Mathlib.Data.List.Nodup

namespace Packrat

theorem exists_of_forall₂ {α β : Type} {R : α → β → Prop} {xs : List α} {ys : List β} {x : α}
    (each : List.Forall₂ R xs ys) (listed : x ∈ xs) : ∃ y ∈ ys, R x y := by
  induction each with
  | nil => cases listed
  | cons here rest ih =>
    rcases List.mem_cons.mp listed with rfl | listed
    · exact ⟨_, List.mem_cons_self, here⟩
    · obtain ⟨y, member, related⟩ := ih listed
      exact ⟨y, List.mem_cons_of_mem _ member, related⟩

theorem getElem?_of_forall₂ {α β : Type} {R : α → β → Prop} {xs : List α} {ys : List β} {i : Nat} {x : α}
    (each : List.Forall₂ R xs ys) (here : xs[i]? = some x) : ∃ y, ys[i]? = some y ∧ R x y := by
  induction each generalizing i with
  | nil => cases here
  | @cons _ y _ _ related _ ih =>
    cases i with
    | zero =>
      cases here
      exact ⟨y, rfl, related⟩
    | succ i => exact ih here

theorem map_eq_of_forall₂ {α β γ : Type} {R : α → β → Prop} {f : α → γ} {f' : β → γ} {xs : List α} {ys : List β}
    (each : List.Forall₂ R xs ys) (same : ∀ x y, R x y → f' y = f x) : ys.map f' = xs.map f := by
  induction each with
  | nil => rfl
  | cons here _ ih => rw [List.map_cons, List.map_cons, same _ _ here, ih]

theorem mapM_congr {α β : Type} {f g : α → Option β} {xs : List α} (same : ∀ x ∈ xs, f x = g x) :
    xs.mapM f = xs.mapM g := by
  induction xs with
  | nil => rfl
  | cons x xs ih =>
    obtain ⟨here, rest⟩ := List.forall_mem_cons.mp same
    rw [List.mapM_cons, List.mapM_cons, here, ih rest]

theorem forall₂_across {α β γ : Type} {R : α → β → Prop} {S : α → γ → Prop} {T : β → γ → Prop} {xs : List α}
    {ys : List β} {zs : List γ} (first : List.Forall₂ R xs ys) (second : List.Forall₂ S xs zs)
    (each : ∀ x y z, R x y → S x z → T y z) : List.Forall₂ T ys zs := by
  induction first generalizing zs with
  | nil =>
    cases second
    exact .nil
  | cons here _ ih =>
    cases second with
    | cons there rest => exact .cons (each _ _ _ here there) (ih rest)

theorem mapM_eq_some {α β : Type} {work : α → Option β} {xs : List α} {ys : List β} :
    xs.mapM work = some ys ↔ List.Forall₂ (fun x y => work x = some y) xs ys := by
  induction xs generalizing ys with
  | nil => cases ys <;> simp
  | cons x xs ih =>
    cases ys with
    | nil => simp [List.mapM_cons, Option.bind_eq_some_iff]
    | cons y ys => simp [List.mapM_cons, Option.bind_eq_some_iff, ← ih]

variable {α : Type} {entries : List (String × α)}

theorem mem_of_lookup {name : String} {a : α} (found : entries.lookup name = some a) : (name, a) ∈ entries := by
  obtain ⟨before, after, whole, _⟩ := List.lookup_eq_some_iff.mp found
  rw [whole]
  exact List.mem_append_right _ List.mem_cons_self

theorem lookup_map {β : Type} (f : α → β) (name : String) :
    (entries.map fun (key, a) => (key, f a)).lookup name = (entries.lookup name).map f := by
  induction entries with
  | nil => rfl
  | cons first rest ih =>
    obtain ⟨key, a⟩ := first
    simp only [List.map_cons, List.lookup_cons, ih]
    cases name == key <;> rfl

theorem exists_lookup {name : String} (listed : name ∈ entries.map Prod.fst) : ∃ a, entries.lookup name = some a := by
  cases found : entries.lookup name with
  | some a => exact ⟨a, rfl⟩
  | none =>
    obtain ⟨entry, member, rfl⟩ := List.mem_map.mp listed
    have absent := List.lookup_eq_none_iff.mp found entry member
    simp at absent

theorem lookup_of_mem {entry : String × α} (distinct : (entries.map Prod.fst).Nodup) (member : entry ∈ entries) :
    entries.lookup entry.1 = some entry.2 := by
  induction entries with
  | nil => cases member
  | cons first rest ih =>
    obtain ⟨apart, distinct⟩ := List.nodup_cons.mp distinct
    rcases List.mem_cons.mp member with rfl | member
    · exact List.lookup_cons_self
    · have other : ¬ entry.1 = first.1 := fun same => apart (same ▸ List.mem_map_of_mem member)
      rw [List.lookup_cons, beq_eq_false_iff_ne.mpr other]
      exact ih distinct member

end Packrat
