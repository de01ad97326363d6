import Mathlib.Data.List.Sort
import Packrat.Proofs.Lists
import Packrat.Proofs.SpanMap

namespace Packrat.SpanMap

variable {α β : Type} {map first last : SpanMap α} {s t : Span} {target : α} {targets : List α} {x : Int}

def Covers {β : Type} (entries : List (Span × β)) (x : Int) : Prop := ∃ e ∈ entries, x ∈ e.1

def Cut {β : Type} (entries : List (Span × β)) (x : Int) : Prop := ∃ e ∈ entries, x = e.1.lower ∨ x = e.1.upper

section

variable {entries others : List (Span × β)} {e : Span × β}

@[simp] theorem covers_nil : ¬ Covers ([] : List (Span × β)) x := by simp [Covers]

@[simp] theorem covers_cons : Covers (e :: entries) x ↔ x ∈ e.1 ∨ Covers entries x := by simp [Covers]

@[simp] theorem covers_append : Covers (entries ++ others) x ↔ Covers entries x ∨ Covers others x := by
  simp [Covers, or_and_right, exists_or]

theorem Covers.of_perm (same : others.Perm entries) : Covers others x ↔ Covers entries x := by
  simp only [Covers, same.mem_iff]

@[simp] theorem cut_nil : ¬ Cut ([] : List (Span × β)) x := by simp [Cut]

@[simp] theorem cut_cons : Cut (e :: entries) x ↔ (x = e.1.lower ∨ x = e.1.upper) ∨ Cut entries x := by simp [Cut]

@[simp] theorem cut_append : Cut (entries ++ others) x ↔ Cut entries x ∨ Cut others x := by
  simp [Cut, or_and_right, exists_or]

theorem Cut.of_perm (same : others.Perm entries) : Cut others x ↔ Cut entries x := by
  simp only [Cut, same.mem_iff]

end

theorem covers_lowPart : Covers (lowPart s target t targets) x ↔
    (s.lower ≤ x ∧ x < t.lower) ∨ (t.lower ≤ x ∧ x < s.lower) := by
  unfold lowPart
  rcases Int.lt_trichotomy s.lower t.lower with before | same | behind
  · rw [if_pos before, covers_cons, Span.mem_def]
    simp
    omega
  · simp [same]
  · rw [if_neg (by omega), if_pos behind, covers_cons, Span.mem_def]
    simp
    omega

theorem cut_lowPart : Cut (lowPart s target t targets) x ↔ s.lower ≠ t.lower ∧ (x = s.lower ∨ x = t.lower) := by
  unfold lowPart
  rcases Int.lt_trichotomy s.lower t.lower with before | same | behind
  · rw [if_pos before]
    simp [Int.ne_of_lt before]
  · simp [same]
  · rw [if_neg (by omega), if_pos behind]
    simp [Int.ne_of_gt behind, or_comm]

theorem Ordered.behind_tail {rest : SpanMap α} (ordered : Ordered ((t, targets) :: rest)) :
    Ordered rest ∧ ∀ e ∈ rest, t.upper < e.1.upper := by
  have later := ordered.stands
  exact ⟨later.ordered, fun e listed => Int.lt_of_le_of_lt (later.least e listed) (later.ordered.nonempty e listed)⟩

theorem covers_addFrom (nonempty : s.Nonempty) (ordered : Ordered map) (behind : ∀ e ∈ map, s.lower < e.1.upper) :
    Covers (addFrom s target map) x ↔ Covers map x ∨ x ∈ s := by
  induction map generalizing s with
  | nil => simp [addFrom]
  | cons e rest ih =>
    obtain ⟨t, targets⟩ := e
    obtain ⟨later, further⟩ := ordered.behind_tail
    have here := ordered.nonempty (t, targets) List.mem_cons_self
    have below := behind (t, targets) List.mem_cons_self
    simp only [Span.Nonempty] at nonempty here below
    by_cases above : s.upper ≤ t.lower
    · rw [addFrom_of_apart above]
      simp only [covers_cons]
      grind
    · have high : Covers (highPart s target t targets rest) x ↔
          Covers rest x ∨ (s.upper ≤ x ∧ x < t.upper) ∨ (t.upper ≤ x ∧ x < s.upper) := by
        unfold highPart
        rcases Int.lt_trichotomy s.upper t.upper with shorter | same | longer
        · rw [if_pos shorter, covers_cons, Span.mem_def]
          grind
        · simp [same]
        · rw [if_neg (by omega), if_pos longer, ih (s := ⟨t.upper, s.upper⟩) longer later further, Span.mem_def]
          grind
      rw [addFrom_of_meets here below (by omega)]
      simp only [covers_append, covers_cons, covers_lowPart, high, Span.mem_def]
      grind

theorem cut_addFrom (nonempty : s.Nonempty) (ordered : Ordered map) (behind : ∀ e ∈ map, s.lower < e.1.upper) :
    Cut (addFrom s target map) x ↔ Cut map x ∨ x = s.lower ∨ x = s.upper := by
  induction map generalizing s with
  | nil => simp [addFrom]
  | cons e rest ih =>
    obtain ⟨t, targets⟩ := e
    obtain ⟨later, further⟩ := ordered.behind_tail
    have here := ordered.nonempty (t, targets) List.mem_cons_self
    have below := behind (t, targets) List.mem_cons_self
    simp only [Span.Nonempty] at nonempty here below
    by_cases above : s.upper ≤ t.lower
    · rw [addFrom_of_apart above]
      simp only [cut_cons]
      grind
    · have high : Cut (highPart s target t targets rest) x ↔
          Cut rest x ∨ s.upper ≠ t.upper ∧ (x = s.upper ∨ x = t.upper) := by
        unfold highPart
        rcases Int.lt_trichotomy s.upper t.upper with shorter | same | longer
        · rw [if_pos shorter, cut_cons]
          grind
        · simp [same]
        · rw [if_neg (by omega), if_pos longer, ih (s := ⟨t.upper, s.upper⟩) longer later further]
          grind
      rw [addFrom_of_meets here below (by omega)]
      simp only [cut_append, cut_cons, cut_lowPart, high]
      grind

theorem Ordered.of_append (ordered : Ordered (first ++ last)) : Ordered last :=
  ⟨fun e listed => ordered.nonempty e (List.mem_append_right _ listed), (List.pairwise_append.mp ordered.ascending).2.1⟩

theorem Ordered.covers_add (ordered : Ordered map) (nonempty : s.Nonempty) :
    Covers (map.add s target) x ↔ Covers map x ∨ x ∈ s := by
  obtain ⟨first, last, rfl, _, meets, added⟩ := ordered.add_eq s target
  rw [added, covers_append, covers_append, covers_addFrom nonempty ordered.of_append meets, or_assoc]

theorem Ordered.cut_add (ordered : Ordered map) (nonempty : s.Nonempty) :
    Cut (map.add s target) x ↔ Cut map x ∨ x = s.lower ∨ x = s.upper := by
  obtain ⟨first, last, rfl, _, meets, added⟩ := ordered.add_eq s target
  rw [added, cut_append, cut_append, cut_addFrom nonempty ordered.of_append meets, or_assoc]

theorem traces_ofList {additions : List (Span × α)} (nonempty : ∀ a ∈ additions, a.1.Nonempty) (x : Int) :
    (Covers (ofList additions) x ↔ Covers additions x) ∧ (Cut (ofList additions) x ↔ Cut additions x) := by
  induction additions using List.reverseRecOn with
  | nil => exact ⟨by simp [ofList, Covers], by simp [ofList, Cut]⟩
  | append_singleton additions a ih =>
    have before : ∀ b ∈ additions, b.1.Nonempty := fun b listed => nonempty b (List.mem_append_left _ listed)
    have here := nonempty a (List.mem_append_right _ List.mem_cons_self)
    have ordered := (ofList_spec before).1
    obtain ⟨covers, cuts⟩ := ih before
    have last : ofList (additions ++ [a]) = (ofList additions).add a.1 a.2 := List.foldl_append
    rw [last, ordered.covers_add here, ordered.cut_add here, covers, cuts]
    simp

section

variable {entries : List (Span × α)} {others : List (Span × β)}

theorem Ordered.not_cut_inside (ordered : Ordered entries) {e : Span × α} (listed : e ∈ entries) (cut : Cut entries x) :
    x ≤ e.1.lower ∨ e.1.upper ≤ x := by
  obtain ⟨f, there, bound⟩ := cut
  obtain ⟨i, within, rfl⟩ := List.mem_iff_getElem.mp listed
  obtain ⟨j, inside, rfl⟩ := List.mem_iff_getElem.mp there
  have here := ordered.nonempty _ (List.getElem_mem inside)
  have order := List.pairwise_iff_getElem.mp ordered.ascending
  simp only [Span.Nonempty] at here
  rcases Nat.lt_trichotomy i j with before | same | behind
  · have := order i j within inside before
    omega
  · subst same
    omega
  · have := order j i inside within behind
    omega

theorem Ordered.mem_spans_iff (ordered : Ordered entries) : s ∈ entries.map (·.1) ↔ s.Nonempty ∧
    Covers entries s.lower ∧ Cut entries s.lower ∧ Cut entries s.upper ∧
      ∀ x, s.lower < x → x < s.upper → ¬ Cut entries x := by
  constructor
  · intro member
    obtain ⟨e, listed, rfl⟩ := List.mem_map.mp member
    have here := ordered.nonempty e listed
    refine ⟨here, ⟨e, listed, here.lower_mem⟩, ⟨e, listed, .inl rfl⟩, ⟨e, listed, .inr rfl⟩,
      fun x above below cut => ?_⟩
    have := ordered.not_cut_inside listed cut
    omega
  · intro ⟨here, ⟨e, listed, member⟩, lower, upper, whole⟩
    have starts := ordered.not_cut_inside listed lower
    have ends := ordered.not_cut_inside listed upper
    have unbroken := whole e.1.upper
    have itself : Cut entries e.1.upper := ⟨e, listed, .inr rfl⟩
    simp only [Span.Nonempty, Span.mem_def] at here member
    have first : s.lower = e.1.lower := by omega
    -- The end of the entry is a cut, so the span cannot reach beyond it, nor stop before it.
    have last : s.upper = e.1.upper := by
      by_contra apart
      exact unbroken (by omega) (by omega) itself
    have same : s = e.1 := by
      cases s
      simp_all
    exact same ▸ List.mem_map_of_mem listed

theorem Ordered.lowers_ascend (ordered : Ordered entries) :
    (entries.map (·.1)).Pairwise fun s t => s.lower < t.lower := by
  refine List.pairwise_map.mpr (ordered.ascending.imp_of_mem fun {e f} listed _ order => ?_)
  have := ordered.nonempty e listed
  simp only [Span.Nonempty] at this
  omega

theorem Ordered.spans_eq (ordered : Ordered entries) (ordered' : Ordered others)
    (covers : ∀ x, Covers entries x ↔ Covers others x) (cuts : ∀ x, Cut entries x ↔ Cut others x) :
    entries.map (·.1) = others.map (·.1) := by
  have : Std.Irrefl fun s t : Span => s.lower < t.lower := ⟨fun _ => Int.lt_irrefl _⟩
  have : Std.Antisymm fun s t : Span => s.lower < t.lower := ⟨fun _ _ below above => by omega⟩
  refine ordered.lowers_ascend.eq_of_mem_iff ordered'.lowers_ascend fun s => ?_
  rw [ordered.mem_spans_iff, ordered'.mem_spans_iff]
  simp only [covers, cuts]

end

theorem ofList_of_perm {additions others : List (Span × α)} (nonempty : ∀ a ∈ additions, a.1.Nonempty)
    (same : others.Perm additions) :
    List.Forall₂ (fun e f => e.1 = f.1 ∧ e.2.Perm f.2) (ofList others) (ofList additions) := by
  have each : ∀ a ∈ others, a.1.Nonempty := fun a listed => nonempty a (same.mem_iff.mp listed)
  have ⟨ordered, targets⟩ := ofList_spec nonempty
  have ⟨ordered', targets'⟩ := ofList_spec each
  have spans : (ofList others).map (·.1) = (ofList additions).map (·.1) := by
    refine ordered'.spans_eq ordered (fun x => ?_) fun x => ?_
    · rw [(traces_ofList each x).1, (traces_ofList nonempty x).1, Covers.of_perm same]
    · rw [(traces_ofList each x).2, (traces_ofList nonempty x).2, Cut.of_perm same]
  have lengths : (ofList others).length = (ofList additions).length := by simpa using congrArg List.length spans
  refine List.forall₂_iff_get.mpr ⟨lengths, fun i here there => ?_⟩
  simp only [List.get_eq_getElem]
  have together : (ofList others)[i].1 = (ofList additions)[i].1 := by
    simpa [here, there] using congrArg (·[i]?) spans
  generalize point : (ofList additions)[i].1.lower = x
  have inside : x ∈ (ofList additions)[i].1 := point ▸ (ordered.nonempty _ (List.getElem_mem there)).lower_mem
  have outside : x ∈ (ofList others)[i].1 := together ▸ inside
  rw [← ordered.targetsAt_of_mem (List.getElem_mem there) inside,
    ← ordered'.targetsAt_of_mem (List.getElem_mem here) outside, targets, targets']
  exact ⟨together, (same.filter _).map _⟩

/-- A map holds what was added, after each of the additions: entries in order over the points that were added over,
with the targets of what was added over a point in the order of the additions. In another order the additions give
the same spans, with the targets in another order. -/
theorem holds_additions {additions : List (Span × α)} (nonempty : ∀ a ∈ additions, a.1.Nonempty) :
    (∀ n, Ordered (ofList (additions.take n)) ∧ ∀ x,
      (Covers (ofList (additions.take n)) x ↔ Covers (additions.take n) x) ∧
      ∀ e ∈ ofList (additions.take n), x ∈ e.1 → e.2 = ((additions.take n).filter (x ∈ ·.1)).map (·.2)) ∧
    ∀ others : List (Span × α), others.Perm additions →
      List.Forall₂ (fun e f => e.1 = f.1 ∧ e.2.Perm f.2) (ofList others) (ofList additions) := by
  refine ⟨fun n => ?_, fun others same => ofList_of_perm nonempty same⟩
  have each : ∀ a ∈ additions.take n, a.1.Nonempty := fun a listed => nonempty a (List.mem_of_mem_take listed)
  have ⟨ordered, targets⟩ := ofList_spec each
  refine ⟨ordered, fun x => ⟨(traces_ofList each x).1, fun e listed member => ?_⟩⟩
  rw [← targets, ordered.targetsAt_of_mem listed member]

def overlapping : List (Span × String) :=
  [(⟨3, 5⟩, "inner"), (⟨0, 10⟩, "outer"), (⟨8, 12⟩, "later"), (⟨20, 21⟩, "apart")]

theorem overlapping_holds : (∀ a ∈ overlapping, a.1.Nonempty) ∧
    ofList overlapping =
      [(⟨0, 3⟩, ["outer"]), (⟨3, 5⟩, ["inner", "outer"]), (⟨5, 8⟩, ["outer"]), (⟨8, 10⟩, ["outer", "later"]),
      (⟨10, 12⟩, ["later"]), (⟨20, 21⟩, ["apart"])] ∧
    (∀ n, Ordered (ofList (overlapping.take n)) ∧ ∀ x,
      (Covers (ofList (overlapping.take n)) x ↔ Covers (overlapping.take n) x) ∧
      ∀ e ∈ ofList (overlapping.take n), x ∈ e.1 → e.2 = ((overlapping.take n).filter (x ∈ ·.1)).map (·.2)) ∧
    List.Forall₂ (fun e f => e.1 = f.1 ∧ e.2.Perm f.2) (ofList overlapping.reverse) (ofList overlapping) := by
  have nonempty : ∀ a ∈ overlapping, a.1.Nonempty := by decide
  have ⟨holds, again⟩ := holds_additions nonempty
  exact ⟨nonempty, by decide, holds, again _ (List.reverse_perm _)⟩

end Packrat.SpanMap
