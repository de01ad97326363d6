namespace Packrat.Bisection

/-- The end of the places from `low` up to `high` for which `below` holds. Each step halves what is
left, so `steps` need not exceed their number. -/
def search (below : Nat → Bool) : (steps low high : Nat) → Nat
  | 0, low, _ => low
  | steps + 1, low, high =>
    if low < high then
      let middle := (low + high) / 2
      if below middle then search below steps (middle + 1) high else search below steps low middle
    else low

theorem search_bounds (below : Nat → Bool) (steps : Nat) {low high : Nat} (order : low ≤ high) :
    low ≤ search below steps low high ∧ search below steps low high ≤ high := by
  induction steps generalizing low high with
  | zero => exact ⟨Nat.le_refl _, order⟩
  | succ steps ih =>
    unfold search
    split
    · dsimp only
      split
      · have := @ih ((low + high) / 2 + 1) high (by omega)
        omega
      · have := @ih low ((low + high) / 2) (by omega)
        omega
    · exact ⟨Nat.le_refl _, order⟩

theorem lt_search_iff {below : Nat → Bool} {steps low high i : Nat}
    (closed : ∀ i j, i ≤ j → below j = true → below i = true) (enough : high - low ≤ steps)
    (above : low ≤ i) (under : i < high) :
    i < search below steps low high ↔ below i = true := by
  induction steps generalizing low high with
  | zero => omega
  | succ steps ih =>
    unfold search
    rw [if_pos (by omega)]
    dsimp only
    split
    · next holds =>
      by_cases here : i ≤ (low + high) / 2
      · have := (@search_bounds below steps ((low + high) / 2 + 1) high (by omega)).1
        exact iff_of_true (by omega) (closed _ _ here holds)
      · exact ih (by omega) (by omega) under
    · next fails =>
      by_cases here : i < (low + high) / 2
      · exact ih (by omega) above here
      · have := (@search_bounds below steps low ((low + high) / 2) (by omega)).2
        exact iff_of_false (by omega) fun holds => fails (closed _ _ (by omega) holds)

def count {α : Type} (below : α → Bool) (xs : Array α) : Nat :=
  search (fun i => (xs[i]?.map below).getD false) xs.size 0 xs.size

theorem lt_count_iff {α : Type} {below : α → Bool} {xs : List α}
    (closed : xs.Pairwise fun a b => below b = true → below a = true) {i : Nat} (within : i < xs.length) :
    i < count below xs.toArray ↔ below xs[i] = true := by
  have holds : ∀ {j} (h : j < xs.length), (xs.toArray[j]?.map below).getD false = below xs[j] := by
    intro j h
    simp [h]
  unfold count
  rw [lt_search_iff (fun j k le here => ?_) (by omega) (Nat.zero_le _) (by simpa using within), holds within]
  by_cases inside : k < xs.length
  · rw [holds inside] at here
    rw [holds (by omega)]
    rcases Nat.lt_or_eq_of_le le with lt | rfl
    · exact List.pairwise_iff_getElem.mp closed j k (by omega) inside lt here
    · exact here
  · simp [inside] at here

section

variable {α : Type} {below : α → Bool} {xs : List α} {x : α}

theorem below_of_mem_take (closed : xs.Pairwise fun a b => below b = true → below a = true)
    (member : x ∈ xs.take (count below xs.toArray)) : below x = true := by
  obtain ⟨i, within, rfl⟩ := List.mem_iff_getElem.mp member
  rw [List.length_take] at within
  rw [List.getElem_take]
  exact (lt_count_iff closed (by omega)).mp (by omega)

theorem not_below_of_mem_drop (closed : xs.Pairwise fun a b => below b = true → below a = true)
    (member : x ∈ xs.drop (count below xs.toArray)) : ¬ below x = true := by
  obtain ⟨i, within, rfl⟩ := List.mem_iff_getElem.mp member
  rw [List.length_drop] at within
  rw [List.getElem_drop]
  intro here
  have := (lt_count_iff closed (by omega)).mpr here
  omega

theorem take_count (closed : xs.Pairwise fun a b => below b = true → below a = true) :
    xs.take (count below xs.toArray) = xs.filter below := by
  have front := List.filter_eq_self.mpr fun _ => below_of_mem_take closed
  have behind := List.filter_eq_nil_iff.mpr fun _ => not_below_of_mem_drop closed
  conv => rhs; rw [← List.take_append_drop (count below xs.toArray) xs, List.filter_append, front, behind]
  rw [List.append_nil]

end

end Packrat.Bisection
