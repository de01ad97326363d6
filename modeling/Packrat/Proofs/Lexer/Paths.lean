import Mathlib.Computability.Language
import Mathlib.Order.CompletePartialOrder
import Packrat.Lexer.Automaton
import Packrat.Proofs.SpanMap

namespace Packrat.Automaton

open Computability

def State.Step (s : State) (w : List Char) (j : Nat) : Prop :=
  w = [] ∧ j ∈ s.epsilons ∨ ∃ c : Char, w = [c] ∧ j ∈ s.edges.targetsAt c.toNat

/-- A step leads there, if only over a code point that is no character. -/
def State.Follows (s : State) (j : Nat) : Prop := j ∈ s.epsilons ∨ ∃ x, j ∈ s.edges.targetsAt x

theorem State.Step.follows {s : State} {w : List Char} {j : Nat} (step : s.Step w j) : s.Follows j :=
  step.imp And.right fun ⟨c, _, here⟩ => ⟨c.toNat, here⟩

inductive Leads (m : Automaton) : Nat → List Char → Nat → Prop where
  | here {i} : Leads m i [] i
  | step {i j k u v} (first : (m.state i).Step u j) (rest : Leads m j v k) : Leads m i (u ++ v) k

def between (m : Automaton) (i : Nat) (ends : Set Nat) : Language Char := {w | ∃ j ∈ ends, m.Leads i w j}

variable {m m' m'' : Automaton} {i j k target : Nat} {u v w : List Char} {ends others : Set Nat} {label : Language Char}

theorem Leads.append (first : m.Leads i u j) (rest : m.Leads j v k) : m.Leads i (u ++ v) k := by
  induction first with
  | here => exact rest
  | step first _ ih =>
    rw [List.append_assoc]
    exact .step first (ih rest)

theorem leads_of_step (step : (m.state i).Step w j) : m.Leads i w j := by
  have whole := Leads.step step .here
  rwa [List.append_nil] at whole

theorem Leads.keeps {P : Nat → Prop} (leads : m.Leads i w j)
    (keeps : ∀ {i w j}, (m.state i).Step w j → P i → P j) (start : P i) :
    P j := by
  induction leads with
  | here => exact start
  | step first _ ih => exact ih (keeps first start)

theorem Leads.mono (leads : m.Leads i w j) (more : ∀ {i w j}, (m.state i).Step w j → (m'.state i).Step w j) :
    m'.Leads i w j := by
  induction leads with
  | here => exact .here
  | step first _ ih => exact .step (more first) ih

theorem mem_between : w ∈ m.between i ends ↔ ∃ j ∈ ends, m.Leads i w j := Iff.rfl

theorem between_union : m.between i (ends ∪ others) = m.between i ends + m.between i others := by
  ext w
  simp only [Language.mem_add, mem_between, Set.mem_union, or_and_right, exists_or]

theorem between_eq_zero (apart : ∀ w, ∀ j ∈ ends, ¬ m.Leads i w j) : m.between i ends = 0 := by
  ext w
  refine iff_of_false (fun ⟨j, member, leads⟩ => apart w j member leads) (Language.notMem_zero w)

theorem one_le_between (member : i ∈ ends) : 1 ≤ m.between i ends := by
  intro w empty
  rw [(Language.mem_one w).mp empty]
  exact ⟨i, member, .here⟩

theorem between_mono (more : ∀ {i w j}, (m.state i).Step w j → (m'.state i).Step w j) :
    m.between i ends ≤ m'.between i ends :=
  fun _ ⟨j, member, leads⟩ => ⟨j, member, leads.mono more⟩

theorem between_congr (same : ∀ {i w j}, (m'.state i).Step w j ↔ (m.state i).Step w j) :
    m'.between i ends = m.between i ends :=
  le_antisymm (between_mono same.mp) (between_mono same.mpr)

/-- Some states have been given steps to another state, on which the texts of a language are read. -/
structure Joined (m m' : Automaton) (ends : Set Nat) (label : Language Char) (target : Nat) : Prop where
  size : m'.size = m.size
  elsewhere : ∀ i ∉ ends, m'.state i = m.state i
  accept : ∀ i, (m'.state i).accept = (m.state i).accept
  ordered : ∀ i, SpanMap.Ordered (m'.state i).edges
  step : ∀ {i w j}, (m'.state i).Step w j ↔ (m.state i).Step w j ∨ i ∈ ends ∧ w ∈ label ∧ j = target
  follows : ∀ {i j}, (m'.state i).Follows j → (m.state i).Follows j ∨ j = target

namespace Joined

theorem mono (joined : Joined m m' ends label target) : m.between i others ≤ m'.between i others :=
  between_mono fun step => joined.step.mpr (.inl step)

theorem through (joined : Joined m m' ends label target) :
    m'.between i ends * label * m'.between target others ≤ m'.between i others := by
  intro w member
  obtain ⟨_, ⟨u, ⟨e, source, first⟩, x, read, rfl⟩, v, ⟨j, goal, rest⟩, rfl⟩ := member
  have across := leads_of_step (joined.step.mpr (.inr ⟨source, read, rfl⟩))
  exact ⟨j, goal, (first.append across).append rest⟩

theorem beyond_eq (a b c : Language Char) : a * (b * a)∗ * c = a * (c + b * (a * (b * a)∗ * c)) := by
  have unfolded : (b * a)∗ = 1 + b * a * (b * a)∗ := one_add_mul_kstar.symm
  conv_lhs => rw [unfolded]
  simp only [mul_add, add_mul, mul_one, mul_assoc]

theorem between_eq (joined : Joined m m' ends label target) : m'.between i others = m.between i others +
    m.between i ends * (label * (m.between target ends * label)∗ * m.between target others) := by
  apply le_antisymm
  · intro w ⟨k, goal, leads⟩
    -- Along the way, split where a new step is taken first.
    induction leads with
    | here => exact .inl ⟨_, goal, .here⟩
    | @step i j k u v first _ ih =>
      rcases joined.step.mp first with old | ⟨source, read, rfl⟩
      · have behind : ∀ {x}, (∀ y ∈ m.between j x, u ++ y ∈ m.between i x) := fun y ⟨l, member, leads⟩ =>
          ⟨l, member, .step old leads⟩
        rcases ih goal with straight | ⟨x, before, y, beyond, rfl⟩
        · exact .inl (behind v straight)
        · refine .inr ⟨u ++ x, behind x before, y, beyond, List.append_assoc u x y⟩
      · refine .inr ⟨[], ⟨i, source, .here⟩, u ++ v, ?_, rfl⟩
        rw [beyond_eq]
        exact Language.append_mem_mul read (ih goal)
  · have again : (m.between target ends * label)∗ * m.between target others ≤ m'.between target others := by
      refine kstar_mul_le joined.mono (le_trans ?_ joined.through)
      gcongr
      exact joined.mono
    refine add_le joined.mono (le_trans ?_ joined.through)
    rw [mul_assoc label, ← mul_assoc]
    gcongr
    exact joined.mono

theorem between_of_apart (joined : Joined m m' ends label target) (apart : m.between target ends = 0) :
    m'.between i others = m.between i others + m.between i ends * label * m.between target others := by
  rw [joined.between_eq, apart, zero_mul, kstar_zero, mul_one, mul_assoc]

theorem between_beside (joined : Joined m m' {i} 1 target) (once : m.between i {i} = 1)
    (apart : m.between target {i} = 0) :
    m'.between i others = m.between i others + m.between target others := by
  rw [joined.between_of_apart apart, once, one_mul, one_mul]

theorem trans_ends (first : Joined m m' ends label target) (second : Joined m' m'' others label target) :
    Joined m m'' (ends ∪ others) label target where
  size := second.size.trans first.size
  accept i := (second.accept i).trans (first.accept i)
  elsewhere i outside := by
    rw [Set.mem_union, not_or] at outside
    rw [second.elsewhere i outside.2, first.elsewhere i outside.1]
  ordered := second.ordered
  step := by
    intro i w j
    rw [second.step, first.step, Set.mem_union, or_assoc, or_and_right]
  follows after := (second.follows after).elim first.follows .inr

theorem trans_label {label' : Language Char} (first : Joined m m' ends label target)
    (second : Joined m' m'' ends label' target) : Joined m m'' ends (label + label') target where
  size := second.size.trans first.size
  accept i := (second.accept i).trans (first.accept i)
  elsewhere i outside := (second.elsewhere i outside).trans (first.elsewhere i outside)
  ordered := second.ordered
  step := by
    intro i w j
    rw [second.step, first.step, Language.mem_add]
    grind
  follows after := (second.follows after).elim first.follows .inr

end Joined

end Packrat.Automaton
