import Mathlib.Data.List.Nodup
import Mathlib.Data.List.Perm.Subperm
import Mathlib.Data.List.TakeWhile
import Packrat.Worklist

namespace Packrat.Worklist

variable {α : Type} {next : α → List α} {steps : Nat} {starts todo known all : List α}

section

variable [DecidableEq α]

theorem explore_nil : explore next steps [] known = known := by
  cases steps <;> rfl

theorem known_prefix_explore : known <+: explore next steps todo known := by
  induction steps generalizing todo known with
  | zero => exact List.prefix_rfl
  | succ steps ih =>
    unfold explore
    split
    · exact List.prefix_rfl
    · exact (List.prefix_append _ _).trans ih

theorem mem_of_dropWhile (known : List α) {a : α} (listed : a ∈ todo) :
    a ∈ known ∨ a ∈ todo.dropWhile (· ∈ known) := by
  rw [← List.takeWhile_append_dropWhile (p := (· ∈ known)) (l := todo)] at listed
  refine (List.mem_append.mp listed).imp_left fun here => ?_
  simpa using List.mem_takeWhile_imp here

theorem forall_mem_explore {P : α → Prop} (keeps : ∀ a, P a → ∀ b ∈ next a, P b) (ahead : ∀ a ∈ todo, P a)
    (behind : ∀ a ∈ known, P a) : ∀ a ∈ explore next steps todo known, P a := by
  induction steps generalizing todo known with
  | zero => exact behind
  | succ steps ih =>
    unfold explore
    split
    · exact behind
    · next a rest found =>
      have left : a :: rest ⊆ todo := found ▸ (List.dropWhile_suffix _).subset
      have here : P a := ahead a (left List.mem_cons_self)
      refine ih (fun b listed => ?_) (fun b listed => ?_)
      · rcases List.mem_append.mp listed with fresh | old
        · exact keeps a here b (List.mem_reverse.mp fresh)
        · exact ahead b (left (List.mem_cons_of_mem _ old))
      · rcases List.mem_append.mp listed with old | fresh
        · exact behind b old
        · rwa [List.mem_singleton.mp fresh]

end

/-- Elements that are known, each listed once. The elements to start with and all that steps lead to are known or still
to do. -/
structure Explored (next : α → List α) (starts all todo known : List α) : Prop where
  nodup : known.Nodup
  within : known ⊆ all
  ahead : todo ⊆ all
  started : ∀ a ∈ starts, a ∈ known ∨ a ∈ todo
  closed : ∀ a ∈ known, ∀ b ∈ next a, b ∈ known ∨ b ∈ todo

theorem explored_starts (within : starts ⊆ all) : Explored next starts all starts [] :=
  ⟨.nil, List.nil_subset _, within, fun _ listed => .inr listed, nofun⟩

variable [DecidableEq α]

namespace Explored

theorem step (explored : Explored next starts all todo known) (stays : ∀ a ∈ all, next a ⊆ all) {a : α} {rest : List α}
    (found : todo.dropWhile (· ∈ known) = a :: rest) :
    Explored next starts all ((next a).reverse ++ rest) (known ++ [a]) := by
  have fresh : a ∉ known := by
    have fails := List.head_dropWhile_not (p := (· ∈ known)) (l := todo) (by rw [found]; exact List.cons_ne_nil _ _)
    simpa [found] using fails
  have left : a :: rest ⊆ todo := found ▸ (List.dropWhile_suffix _).subset
  have inside : a ∈ all := explored.ahead (left List.mem_cons_self)
  have still : ∀ b, b ∈ known ∨ b ∈ todo → b ∈ known ++ [a] ∨ b ∈ (next a).reverse ++ rest := by
    intro b here
    rcases here.elim .inl (mem_of_dropWhile known) with old | later
    · exact .inl (List.mem_append_left _ old)
    · rw [found] at later
      rcases List.mem_cons.mp later with rfl | later
      · exact .inl (List.mem_append_right _ List.mem_cons_self)
      · exact .inr (List.mem_append_right _ later)
  refine ⟨?_, ?_, ?_, fun b listed => still b (explored.started b listed), fun b listed c leads => ?_⟩
  · exact explored.nodup.append (List.nodup_singleton a) (by simpa using fresh)
  · exact List.append_subset.mpr ⟨explored.within, by simpa using inside⟩
  · refine List.append_subset.mpr ⟨fun b listed => stays a inside (List.mem_reverse.mp listed), fun b listed => ?_⟩
    exact explored.ahead (left (List.mem_cons_of_mem _ listed))
  · rcases List.mem_append.mp listed with old | new
    · exact still c (explored.closed b old c leads)
    · rw [List.mem_singleton.mp new] at leads
      exact .inr (List.mem_append_left _ (List.mem_reverse.mpr leads))

theorem explore (explored : Explored next starts all todo known) (stays : ∀ a ∈ all, next a ⊆ all)
    (enough : all.length ≤ known.length + steps) :
    Explored next starts all [] (Worklist.explore next steps todo known) := by
  induction steps generalizing todo known with
  | zero =>
    have whole : all ⊆ known := (explored.nodup.subperm explored.within).perm_of_length_le enough |>.symm.subset
    refine ⟨explored.nodup, explored.within, List.nil_subset _, fun a listed => .inl ?_,
      fun a listed b leads => .inl ?_⟩
    · exact (explored.started a listed).elim id fun later => whole (explored.ahead later)
    · exact whole (stays a (explored.within listed) leads)
  | succ steps ih =>
    unfold Worklist.explore
    cases found : todo.dropWhile (· ∈ known) with
    | nil =>
      have done : ∀ b, b ∈ known ∨ b ∈ todo → b ∈ known ∨ b ∈ [] := fun b here =>
        .inl (here.elim id fun later => (mem_of_dropWhile known later).resolve_right (by simp [found]))
      exact ⟨explored.nodup, explored.within, List.nil_subset _, fun a listed => done a (explored.started a listed),
        fun a listed b leads => done b (explored.closed a listed b leads)⟩
    | cons a rest =>
      refine ih (explored.step stays found) ?_
      rw [List.length_append, List.length_singleton]
      omega

end Explored

section

variable (within : starts ⊆ all) (stays : ∀ a ∈ all, next a ⊆ all) (enough : all.length ≤ steps)
include within stays enough

theorem explored_explore : Explored next starts all [] (explore next steps starts []) :=
  (explored_starts within).explore stays (by simpa using enough)

theorem mem_explore_of_mem {a : α} (listed : a ∈ starts) : a ∈ explore next steps starts [] :=
  ((explored_explore within stays enough).started a listed).resolve_right List.not_mem_nil

theorem mem_explore_of_step {a b : α} (listed : a ∈ explore next steps starts []) (leads : b ∈ next a) :
    b ∈ explore next steps starts [] :=
  ((explored_explore within stays enough).closed a listed b leads).resolve_right List.not_mem_nil

end

end Packrat.Worklist
