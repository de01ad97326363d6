import Mathlib.Data.List.Induction
import Packrat.Proofs.Span
import Packrat.SpanMap

namespace Packrat

namespace SpanMap

variable {α : Type} {map rest : SpanMap α} {s : Span} {target : α} {x : Int}

structure Ordered {β : Type} (entries : List (Span × β)) : Prop where
  nonempty : ∀ e ∈ entries, e.1.Nonempty
  ascending : entries.Pairwise fun a b => a.1.upper ≤ b.1.lower

theorem Ordered.of_spans {β γ : Type} {entries : List (Span × β)} {others : List (Span × γ)}
    (ordered : Ordered entries) (same : others.map (·.1) = entries.map (·.1)) : Ordered others := by
  have nonempty : ∀ span ∈ entries.map (·.1), span.Nonempty := List.forall_mem_map.mpr ordered.nonempty
  have ascending : (entries.map (·.1)).Pairwise fun a b => a.upper ≤ b.lower := List.pairwise_map.mpr ordered.ascending
  rw [← same] at nonempty ascending
  exact ⟨List.forall_mem_map.mp nonempty, List.pairwise_map.mp ascending⟩

theorem targetsAt_cons (t : Span) (targets : List α) :
    targetsAt ((t, targets) :: rest) x = if x ∈ t then targets else targetsAt rest x := by
  unfold targetsAt
  rw [List.find?_cons]
  by_cases here : x ∈ t <;> simp [here]

theorem targetsAt_append {first : SpanMap α} (outside : ∀ e ∈ first, x ∉ e.1) :
    targetsAt (first ++ rest) x = targetsAt rest x := by
  induction first with
  | nil => rfl
  | cons e first ih =>
    rw [List.cons_append, targetsAt_cons, if_neg (outside e List.mem_cons_self)]
    exact ih fun f member => outside f (List.mem_cons_of_mem _ member)

theorem targetsAt_eq_nil (outside : ∀ e ∈ map, x ∉ e.1) : targetsAt map x = [] := by
  have all : targetsAt (map ++ []) x = targetsAt [] x := targetsAt_append outside
  rw [List.append_nil] at all
  exact all

theorem Ordered.targetsAt_of_mem (ordered : Ordered map) {e : Span × List α} (listed : e ∈ map) (member : x ∈ e.1) :
    targetsAt map x = e.2 := by
  have ascending := ordered.ascending
  clear ordered
  induction ascending with
  | nil => cases listed
  | @cons first rest before _ ih =>
    rw [targetsAt_cons]
    rcases List.mem_cons.mp listed with rfl | listed
    · rw [if_pos member]
    · have apart : x ∉ first.1 := by
        have order := before e listed
        rw [Span.mem_def] at member ⊢
        omega
      rw [if_neg apart]
      exact ih listed

def lowPart (s : Span) (target : α) (t : Span) (targets : List α) : SpanMap α :=
  if s.lower < t.lower then [(⟨s.lower, t.lower⟩, [target])]
  else if t.lower < s.lower then [(⟨t.lower, s.lower⟩, targets)] else []

def highPart (s : Span) (target : α) (t : Span) (targets : List α) (rest : SpanMap α) : SpanMap α :=
  if s.upper < t.upper then (⟨s.upper, t.upper⟩, targets) :: rest
  else if t.upper < s.upper then addFrom ⟨t.upper, s.upper⟩ target rest else rest

section

variable {t : Span} {targets : List α}

theorem addFrom_of_meets (nonempty : t.Nonempty) (below : s.lower < t.upper) (above : t.lower < s.upper) :
    addFrom s target ((t, targets) :: rest) = lowPart s target t targets ++
      (⟨max s.lower t.lower, min s.upper t.upper⟩, targets ++ [target]) :: highPart s target t targets rest := by
  have meets : s.meets t = true := Span.meets_iff.mpr ⟨below, above⟩
  simp only [Span.Nonempty] at nonempty
  have low : ((Span.between (min s.lower t.lower) (max s.lower t.lower)).map fun l =>
      (l, if l.meets t then targets else [target])).toList = lowPart s target t targets := by
    unfold lowPart
    rcases Int.lt_trichotomy s.lower t.lower with before | same | behind
    · rw [Int.min_eq_left (by omega), Int.max_eq_right (by omega), Span.between_of_lt before, if_pos before]
      simp [Span.meets_iff]
    · simp [same]
    · rw [Int.min_eq_right (by omega), Int.max_eq_left (by omega), Span.between_of_lt behind, if_neg (by omega),
        if_pos behind]
      simp [Span.meets_iff, nonempty, behind]
  rw [addFrom, if_pos meets, Span.divide_of_meets meets]
  simp only [Span.Regions.cut]
  rw [low, List.append_assoc]
  congr 1
  unfold highPart
  rcases Int.lt_trichotomy s.upper t.upper with before | same | behind
  · rw [Int.max_eq_right (show s.upper ≤ t.upper by omega), Int.min_eq_left (by omega), Span.between_of_lt before,
      if_pos before]
    simp [Span.meets_iff, nonempty, before]
  · simp [same]
  · rw [Int.max_eq_left (show t.upper ≤ s.upper by omega), Int.min_eq_right (by omega), Span.between_of_lt behind,
      if_neg (by omega), if_pos behind]
    simp [Span.meets_iff]

theorem addFrom_of_apart (above : s.upper ≤ t.lower) :
    addFrom s target ((t, targets) :: rest) = (s, [target]) :: (t, targets) :: rest := by
  have apart : ¬ s.meets t = true := by
    rw [Span.meets_iff]
    omega
  rw [addFrom, if_neg apart]

structure Stands (least : Int) (at' : Int → List α) (map : SpanMap α) : Prop where
  ordered : Ordered map
  least : ∀ e ∈ map, least ≤ e.1.lower
  targets : ∀ x, targetsAt map x = at' x

theorem Stands.weaken {least least' : Int} {at' : Int → List α} (stands : Stands least at' map) (le : least' ≤ least) :
    Stands least' at' map :=
  ⟨stands.ordered, fun e listed => Int.le_trans le (stands.least e listed), stands.targets⟩

theorem Stands.eq_nil {least : Int} {at' : Int → List α} (stands : Stands least at' map) (before : x < least) :
    at' x = [] := by
  rw [← stands.targets]
  refine targetsAt_eq_nil fun e listed member => ?_
  have := stands.least e listed
  rw [Span.mem_def] at member
  omega

theorem Stands.cons (targets : List α) {least : Int} {at' : Int → List α} (nonempty : t.Nonempty)
    (stands : Stands t.upper at' map)
    (le : least ≤ t.lower) : Stands least (fun x => if x ∈ t then targets else at' x) ((t, targets) :: map) := by
  refine ⟨⟨?_, .cons stands.least stands.ordered.ascending⟩, ?_, fun x => ?_⟩
  · intro e listed
    rcases List.mem_cons.mp listed with rfl | listed
    · exact nonempty
    · exact stands.ordered.nonempty e listed
  · intro e listed
    simp only [Span.Nonempty] at nonempty
    rcases List.mem_cons.mp listed with rfl | listed
    · exact le
    · have := stands.least e listed
      omega
  · rw [targetsAt_cons, stands.targets]

theorem Ordered.stands (ordered : Ordered ((t, targets) :: rest)) : Stands t.upper (targetsAt rest) rest :=
  ⟨⟨fun e listed => ordered.nonempty e (List.mem_cons_of_mem _ listed), (List.pairwise_cons.mp ordered.ascending).2⟩,
    (List.pairwise_cons.mp ordered.ascending).1, fun _ => rfl⟩

theorem stands_highPart (target : α) (ordered : Ordered ((t, targets) :: rest))
    (further : t.upper < s.upper → Stands t.upper
      (fun x => targetsAt rest x ++ if t.upper ≤ x ∧ x < s.upper then [target] else [])
      (addFrom ⟨t.upper, s.upper⟩ target rest)) :
    Stands (min s.upper t.upper) (fun x => if s.upper ≤ x ∧ x < t.upper then targets
      else targetsAt rest x ++ if t.upper ≤ x ∧ x < s.upper then [target] else [])
      (highPart s target t targets rest) := by
  have behind := ordered.stands
  unfold highPart
  rcases Int.lt_trichotomy s.upper t.upper with shorter | same | longer
  · rw [if_pos shorter, Int.min_eq_left (by omega)]
    have stands := Stands.cons targets (t := ⟨s.upper, t.upper⟩) shorter behind (Int.le_refl s.upper)
    refine ⟨stands.ordered, stands.least, fun x => (stands.targets x).trans ?_⟩
    simp only [Span.mem_def]
    grind
  · rw [if_neg (by omega), if_neg (by omega), same, Int.min_self]
    refine ⟨behind.ordered, behind.least, fun x => ?_⟩
    grind
  · rw [if_neg (by omega), if_pos longer, Int.min_eq_right (by omega)]
    have stands := further longer
    refine ⟨stands.ordered, stands.least, fun x => (stands.targets x).trans ?_⟩
    grind

theorem Stands.congr {least : Int} {at' at'' : Int → List α} (stands : Stands least at' map)
    (same : ∀ x, at' x = at'' x) : Stands least at'' map :=
  ⟨stands.ordered, stands.least, fun x => (stands.targets x).trans (same x)⟩

theorem Stands.lowPart (target : α) (targets : List α) {at' : Int → List α}
    (stands : Stands (max s.lower t.lower) at' map) :
    Stands (min s.lower t.lower) (fun x => if min s.lower t.lower ≤ x ∧ x < max s.lower t.lower then
      (if s.lower < t.lower then [target] else targets) else at' x) (lowPart s target t targets ++ map) := by
  unfold SpanMap.lowPart
  rcases Int.lt_trichotomy s.lower t.lower with before | same | behind
  · rw [Int.max_eq_right (by omega)] at stands ⊢
    rw [Int.min_eq_left (by omega)]
    simp only [if_pos before]
    exact Stands.cons [target] (t := ⟨s.lower, t.lower⟩) before stands (Int.le_refl _)
  · have most : ¬ t.lower < s.lower := by omega
    have least : ¬ s.lower < t.lower := by omega
    simp only [if_neg most, if_neg least, List.nil_append]
    rw [same, Int.max_self] at stands ⊢
    rw [Int.min_self]
    exact stands.congr fun x => by rw [if_neg (by omega)]
  · have most : ¬ s.lower < t.lower := by omega
    rw [Int.max_eq_left (by omega)] at stands ⊢
    rw [Int.min_eq_right (by omega)]
    simp only [if_neg most, if_pos behind]
    exact Stands.cons targets (t := ⟨t.lower, s.lower⟩) behind stands (Int.le_refl _)

theorem stands_addFrom (target : α) (nonempty : s.Nonempty) (ordered : Ordered map)
    (behind : ∀ e ∈ map, s.lower < e.1.upper)
    {least : Int} (le : least ≤ s.lower) (before : ∀ e ∈ map, least ≤ e.1.lower) :
    Stands least (fun x => targetsAt map x ++ if x ∈ s then [target] else []) (addFrom s target map) := by
  induction map generalizing s least with
  | nil =>
    have empty : Stands s.upper (targetsAt ([] : SpanMap α)) [] := ⟨ordered, by simp, fun _ => rfl⟩
    exact (Stands.cons [target] nonempty empty le).congr fun x => by simp [targetsAt]
  | cons e rest ih =>
    obtain ⟨t, targets⟩ := e
    have later := ordered.stands
    have here := ordered.nonempty (t, targets) List.mem_cons_self
    have below := behind (t, targets) List.mem_cons_self
    have leFirst := before (t, targets) List.mem_cons_self
    simp only [Span.Nonempty] at nonempty here below leFirst
    by_cases above : s.upper ≤ t.lower
    · rw [addFrom_of_apart above]
      have all := Stands.cons [target] nonempty (Stands.cons targets here later above) le
      refine all.congr fun x => ?_
      rw [targetsAt_cons]
      have apart : x ∈ s → x < t.upper → x ∉ t := by
        simp only [Span.mem_def]
        omega
      have nothing : x < t.upper → targetsAt rest x = [] := later.eq_nil
      simp only [Span.mem_def] at apart ⊢
      grind
    · -- What lies beyond the entry is added to the rest of the map, which is where the induction applies.
      rw [addFrom_of_meets here below (by omega)]
      have high := stands_highPart (s := s) target ordered fun longer =>
        ih (s := ⟨t.upper, s.upper⟩) longer later.ordered
          (fun e listed => by
            have := later.least e listed
            have := later.ordered.nonempty e listed
            simp only [Span.Nonempty] at this
            dsimp only
            omega)
          (Int.le_refl _) later.least
      have mid := Stands.cons (targets ++ [target])
        (t := ⟨max s.lower t.lower, min s.upper t.upper⟩) (by simp only [Span.Nonempty]; omega) high (Int.le_refl _)
      have all := (mid.lowPart (s := s) (t := t) target targets).weaken
        (show least ≤ min s.lower t.lower by omega)
      refine all.congr fun x => ?_
      have nothing : x < t.upper → targetsAt rest x = [] := later.eq_nil
      rw [targetsAt_cons]
      simp only [Span.mem_def]
      grind

theorem exists_least (map : SpanMap α) (bound : Int) : ∃ least ≤ bound, ∀ e ∈ map, least ≤ e.1.lower := by
  induction map with
  | nil => exact ⟨bound, Int.le_refl _, by simp⟩
  | cons e rest ih =>
    obtain ⟨least, le, before⟩ := ih
    refine ⟨min least e.1.lower, by omega, fun f listed => ?_⟩
    rcases List.mem_cons.mp listed with rfl | listed
    · omega
    · have := before f listed
      omega

theorem Ordered.add_eq (ordered : Ordered map) (s : Span) (target : α) : ∃ first last, first ++ last = map ∧
    (∀ e ∈ first, e.1.upper ≤ s.lower) ∧ (∀ e ∈ last, s.lower < e.1.upper) ∧
    map.add s target = first ++ addFrom s target last := by
  let below : Span × List α → Bool := fun e => e.1.upper ≤ s.lower
  have closed : map.Pairwise fun a b => below b = true → below a = true :=
    Span.ends_closed Prod.fst ordered.nonempty ordered.ascending s.lower
  refine ⟨map.take (Bisection.count below map.toArray), map.drop (Bisection.count below map.toArray),
    List.take_append_drop _ _, fun e listed => ?_, fun e listed => ?_, rfl⟩
  · have holds := Bisection.below_of_mem_take closed listed
    exact of_decide_eq_true holds
  · have fails := Bisection.not_below_of_mem_drop closed listed
    simp only [below, decide_eq_true_eq] at fails
    omega

theorem Ordered.add (ordered : Ordered map) (target : α) (nonempty : s.Nonempty) : Ordered (map.add s target) ∧
    ∀ x, targetsAt (map.add s target) x = targetsAt map x ++ if x ∈ s then [target] else [] := by
  obtain ⟨first, last, rfl, ends, meets, added⟩ := ordered.add_eq s target
  obtain ⟨firstAscends, lastAscends, order⟩ := List.pairwise_append.mp ordered.ascending
  have lastOrdered : Ordered last := ⟨fun e listed => ordered.nonempty e (List.mem_append_right _ listed), lastAscends⟩
  have stands {bound : Int} (le : bound ≤ s.lower) (before : ∀ e ∈ last, bound ≤ e.1.lower) :=
    stands_addFrom target nonempty lastOrdered meets le before
  obtain ⟨least, le, before⟩ := exists_least last s.lower
  have behind := stands le before
  have whole : Ordered (first ++ addFrom s target last) := by
    refine ⟨fun e listed => ?_, List.pairwise_append.mpr ⟨firstAscends, behind.ordered.ascending, fun e listed => ?_⟩⟩
    · rcases List.mem_append.mp listed with here | here
      · exact ordered.nonempty e (List.mem_append_left _ here)
      · exact behind.ordered.nonempty e here
    · exact (stands (ends e listed) (order e listed)).least
  rw [added]
  refine ⟨whole, fun x => ?_⟩
  by_cases here : ∃ e ∈ first, x ∈ e.1
  · obtain ⟨e, listed, member⟩ := here
    have apart : x ∉ s := by
      have := ends e listed
      rw [Span.mem_def] at member ⊢
      omega
    rw [whole.targetsAt_of_mem (List.mem_append_left _ listed) member,
      ordered.targetsAt_of_mem (List.mem_append_left _ listed) member, if_neg apart, List.append_nil]
  · push Not at here
    rw [targetsAt_append here, targetsAt_append here, behind.targets]

theorem ofList_spec {additions : List (Span × α)} (nonempty : ∀ a ∈ additions, a.1.Nonempty) :
    Ordered (ofList additions) ∧
      ∀ x, targetsAt (ofList additions) x = (additions.filter (x ∈ ·.1)).map (·.2) := by
  induction additions using List.reverseRecOn with
  | nil => exact ⟨⟨by simp [ofList], .nil⟩, fun x => rfl⟩
  | append_singleton additions a ih =>
    have ⟨ordered, targets⟩ := ih fun b listed => nonempty b (List.mem_append_left _ listed)
    have ⟨further, added⟩ := ordered.add a.2 (nonempty a (List.mem_append_right _ List.mem_cons_self))
    have last : ofList (additions ++ [a]) = (ofList additions).add a.1 a.2 := List.foldl_append
    rw [last]
    refine ⟨further, fun x => ?_⟩
    rw [added, targets, List.filter_append, List.map_append]
    by_cases member : x ∈ a.1 <;> simp [member]

end

end SpanMap

end Packrat
