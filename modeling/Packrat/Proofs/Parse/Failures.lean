import Packrat.Parse.Failures

namespace Packrat.Failures

def Proper (f : Failures) : Prop := -1 ≤ f.furthest

theorem proper_none : ({} : Failures).Proper := Int.le_refl _

theorem Proper.merge {a b : Failures} (first : a.Proper) (second : b.Proper) : (a.merge b).Proper := by
  unfold Failures.merge
  split
  · exact first
  · split
    · exact second
    · exact first

theorem Proper.fail {f : Failures} (proper : f.Proper) (index : Int) (what : String) :
    (f.fail index what).Proper := by
  simp only [Proper] at proper ⊢
  unfold Failures.fail
  split
  · exact proper
  · split
    · next further => exact Int.le_of_lt (Int.lt_of_le_of_lt proper further)
    · exact proper

theorem merge_none {f : Failures} (proper : f.Proper) : f.merge {} = f := by
  simp only [Proper] at proper
  unfold Failures.merge
  split
  · rfl
  · next notLess =>
    have same : f.furthest = -1 := by
      have : ¬ (-1 : Int) < f.furthest := notLess
      omega
    rw [if_neg (by rw [same]; exact Int.lt_irrefl _)]
    have union : f.expected.union .empty = f.expected := TextSet.ext_mem (by simp)
    rw [union]

theorem none_merge {f : Failures} (proper : f.Proper) : ({} : Failures).merge f = f := by
  rw [merge_comm]
  exact merge_none proper

theorem merge_assoc (a b c : Failures) : (a.merge b).merge c = a.merge (b.merge c) := by
  have union : (a.expected.union b.expected).union c.expected =
      a.expected.union (b.expected.union c.expected) := TextSet.ext_mem (by simp [or_assoc])
  unfold Failures.merge
  grind

theorem fail_eq_merge_own {f : Failures} (proper : f.Proper) (index : Int) (what : String) :
    f.fail index what = f.merge (({} : Failures).fail index what) := by
  rw [fail_eq_merge {} index what, ← merge_assoc, merge_none proper, fail_eq_merge]

/-- Nothing is lost from one record to the other: that is as far at least, and where it is no further, all that was
expected still is. -/
instance : LE Failures :=
  ⟨fun a b => a.furthest ≤ b.furthest ∧ (b.furthest = a.furthest → ∀ x ∈ a.expected, x ∈ b.expected)⟩

theorem le_refl (a : Failures) : a ≤ a := ⟨Int.le_refl _, fun _ _ => id⟩

theorem le_trans {a b c : Failures} (first : a ≤ b) (second : b ≤ c) : a ≤ c := by
  refine ⟨Int.le_trans first.1 second.1, fun same x member => ?_⟩
  have here := first.1
  have there := second.1
  exact second.2 (by omega) x (first.2 (by omega) x member)

theorem le_merge_left (a b : Failures) : a ≤ a.merge b := by
  unfold merge
  split
  · exact le_refl a
  · split
    next further => exact ⟨Int.le_of_lt further, fun same => absurd same (by omega)⟩
    · exact ⟨Int.le_refl _, fun _ x member => TextSet.mem_union.mpr (.inl member)⟩

theorem le_merge_right (a b : Failures) : b ≤ a.merge b := merge_comm a b ▸ le_merge_left b a

theorem le_fail (f : Failures) (index : Int) (what : String) : f ≤ f.fail index what :=
  fail_eq_merge f index what ▸ le_merge_left f _

end Packrat.Failures
