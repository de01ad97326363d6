import Packrat.TextSet

namespace Packrat

structure Failures where
  furthest : Int := -1
  expected : TextSet := .empty
  deriving DecidableEq

namespace Failures

def merge (a b : Failures) : Failures :=
  if b.furthest < a.furthest then a
  else if a.furthest < b.furthest then b
  else ⟨a.furthest, a.expected.union b.expected⟩

@[inline] def fail (f : Failures) (index : Int) (what : String) : Failures :=
  if index < f.furthest then f
  else if f.furthest < index then ⟨index, .ofList [what]⟩
  else { f with expected := f.expected.insert what }

theorem fail_eq_merge (f : Failures) (index : Int) (what : String) :
    f.fail index what = f.merge ⟨index, .ofList [what]⟩ := by
  unfold fail merge
  split
  · rfl
  · split
    · rfl
    · congr 1
      apply TextSet.ext_mem
      intro z
      simp [or_comm]

theorem merge_comm (a b : Failures) : a.merge b = b.merge a := by
  unfold merge
  split
  · next lt => rw [if_neg (by omega)]
  · next notLt =>
    split
    · rfl
    · next notGt =>
      have same : a.furthest = b.furthest := by omega
      rw [same]
      congr 1
      apply TextSet.ext_mem
      intro z
      simp [or_comm]

end Failures

end Packrat
