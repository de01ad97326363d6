namespace Packrat

structure TextSet where
  toList : List String
  ascending : toList.Pairwise (· < ·)
  deriving DecidableEq

namespace TextSet

instance : Membership String TextSet := ⟨fun s x => x ∈ s.toList⟩

theorem mem_def {x : String} {s : TextSet} : x ∈ s ↔ x ∈ s.toList := Iff.rfl

instance (x : String) (s : TextSet) : Decidable (x ∈ s) := inferInstanceAs (Decidable (x ∈ s.toList))

def empty : TextSet := ⟨[], .nil⟩

def insertInto (x : String) : List String → List String
  | [] => [x]
  | y :: ys => if x < y then x :: y :: ys else if x = y then y :: ys else y :: insertInto x ys

theorem mem_insertInto {x z : String} {ys : List String} :
    z ∈ insertInto x ys ↔ z = x ∨ z ∈ ys := by
  induction ys with
  | nil => simp [insertInto]
  | cons y ys ih =>
    unfold insertInto
    split
    · simp
    · split
      · next h => subst h; simp
      · simp only [List.mem_cons, ih]
        grind

theorem insertInto_ascending (x : String) {ys : List String} (h : ys.Pairwise (· < ·)) :
    (insertInto x ys).Pairwise (· < ·) := by
  induction h with
  | nil => simp [insertInto]
  | @cons y ys below tail ih =>
    unfold insertInto
    split
    · next lt =>
      refine .cons (fun z hz => ?_) (.cons below tail)
      rcases List.mem_cons.1 hz with rfl | hz
      · exact lt
      · exact String.lt_trans lt (below z hz)
    · next notLt =>
      split
      · exact .cons below tail
      · next ne =>
        refine .cons (fun z hz => ?_) ih
        rcases mem_insertInto.1 hz with rfl | hz
        · exact Decidable.byContradiction fun notGt =>
            ne (String.le_antisymm (String.not_lt.1 notGt) (String.not_lt.1 notLt))
        · exact below z hz

def insert (x : String) (s : TextSet) : TextSet :=
  ⟨insertInto x s.toList, insertInto_ascending x s.ascending⟩

@[simp] theorem mem_insert {x z : String} {s : TextSet} : z ∈ s.insert x ↔ z = x ∨ z ∈ s :=
  mem_insertInto

def ofList (xs : List String) : TextSet := xs.foldr insert empty

@[simp] theorem not_mem_empty {z : String} : ¬ z ∈ empty := List.not_mem_nil

@[simp] theorem mem_ofList {z : String} {xs : List String} : z ∈ ofList xs ↔ z ∈ xs := by
  induction xs with
  | nil => simp [ofList]
  | cons x xs ih => simp only [List.mem_cons, ← ih]; exact mem_insert

def union (s t : TextSet) : TextSet := s.toList.foldr insert t

@[simp] theorem mem_union {s t : TextSet} {z : String} : z ∈ s.union t ↔ z ∈ s ∨ z ∈ t := by
  obtain ⟨xs, h⟩ := s
  simp only [union, mem_def]
  clear h
  induction xs with
  | nil => simp
  | cons x xs ih =>
    simp only [List.foldr_cons, List.mem_cons, or_assoc, ← ih]
    exact mem_insert

theorem nodup_of_ascending {xs : List String} (h : xs.Pairwise (· < ·)) : xs.Nodup :=
  h.imp fun {_ _} lt => fun same => String.lt_irrefl _ (same ▸ lt)

theorem ext_mem {s t : TextSet} (h : ∀ z, z ∈ s ↔ z ∈ t) : s = t := by
  obtain ⟨xs, hx⟩ := s
  obtain ⟨ys, hy⟩ := t
  have perm : xs.Perm ys :=
    (List.perm_ext_iff_of_nodup (nodup_of_ascending hx) (nodup_of_ascending hy)).2 h
  have : xs = ys := perm.eq_of_pairwise (fun a b _ _ ab ba => absurd ba (String.lt_asymm ab)) hx hy
  subst this
  rfl

end TextSet

end Packrat
