import Mathlib.Data.List.Nodup
import Mathlib.Data.List.Perm.Subperm
import Mathlib.Logic.Relation
import Packrat.Graph

namespace Packrat.Graph

open Relation

def Edge (g : Graph) (x y : String) : Prop := y ∈ g.targets x

def Occurs (g : Graph) (x : String) : Prop := x ∈ g.map (·.1) ∨ ∃ source, g.Edge source x

section Nodes

variable {g : Graph} {x y : String}

theorem exists_mem_of_edge (edge : g.Edge x y) : ∃ targets, (x, targets) ∈ g ∧ y ∈ targets := by
  unfold Edge targets at edge
  cases found : g.lookup x with
  | none =>
    rw [found] at edge
    cases edge
  | some targets =>
    rw [found] at edge
    obtain ⟨before, after, rfl, _⟩ := List.lookup_eq_some_iff.mp found
    exact ⟨targets, List.mem_append_right _ List.mem_cons_self, edge⟩

theorem mem_nodes : x ∈ g.nodes ↔ x ∈ g.map (·.1) ∨ ∃ entry ∈ g, x ∈ entry.2 := by
  simp [nodes]

theorem mem_nodes_of_edge (edge : g.Edge x y) : x ∈ g.nodes ∧ y ∈ g.nodes := by
  obtain ⟨targets, listed, member⟩ := exists_mem_of_edge edge
  exact ⟨mem_nodes.mpr (.inl (List.mem_map_of_mem listed)), mem_nodes.mpr (.inr ⟨_, listed, member⟩)⟩

theorem Occurs.mem_nodes (occurs : g.Occurs x) : x ∈ g.nodes := by
  obtain listed | ⟨_, edge⟩ := occurs
  · exact Graph.mem_nodes.mpr (.inl listed)
  · exact (mem_nodes_of_edge edge).2

theorem lookup_map_self {β : Type} (f : String → β) (names : List String) (name : String) :
    (names.map fun n => (n, f n)).lookup name = if name ∈ names then some (f name) else none := by
  induction names with
  | nil => rfl
  | cons first rest ih =>
    rw [List.map_cons, List.lookup_cons, ih]
    by_cases here : name = first
    · subst here
      simp
    · simp [here, beq_eq_false_iff_ne.mpr here]

end Nodes

/-- The lists are the classes of nodes that reach each other, and none reaches a later one. -/
structure Separates (g : Graph) (components : List (List String)) : Prop where
  nonempty : ∀ c ∈ components, c ≠ []
  classes : ∀ c ∈ components, ∀ x ∈ c, ∀ y, y ∈ c ↔ ReflTransGen g.Edge x y ∧ ReflTransGen g.Edge y x
  ordered : components.Pairwise fun earlier later => ∀ x ∈ earlier, ∀ y ∈ later, ¬ ReflTransGen g.Edge x y

theorem Separates.concat {g : Graph} {components : List (List String)} {c : List String}
    (separates : g.Separates components) (nonempty : c ≠ [])
    (settled : ∀ x ∈ components.flatten, ∀ y, ReflTransGen g.Edge x y → y ∈ components.flatten)
    (apart : ∀ x ∈ c, x ∉ components.flatten) (joined : ∀ x ∈ c, ∀ y ∈ c, ReflTransGen g.Edge x y)
    (stays : ∀ x ∈ c, ∀ y, ReflTransGen g.Edge x y → y ∈ c ∨ y ∈ components.flatten) :
    g.Separates (components ++ [c]) where
  nonempty d listed := by
    rcases List.mem_append.mp listed with before | last
    · exact separates.nonempty d before
    · rwa [List.mem_singleton.mp last]
  classes d listed x member y := by
    rcases List.mem_append.mp listed with before | last
    · exact separates.classes d before x member y
    · obtain rfl := List.mem_singleton.mp last
      refine ⟨fun other => ⟨joined x member y other, joined y other x member⟩, fun ⟨there, back⟩ => ?_⟩
      exact (stays x member y there).resolve_right fun out => apart x member (settled y out x back)
  ordered := by
    refine List.pairwise_append.mpr ⟨separates.ordered, List.pairwise_singleton _ _, ?_⟩
    intro d listed last here x member y other there
    obtain rfl := List.mem_singleton.mp here
    exact apart y other (settled x (List.mem_flatten_of_mem listed member) y there)

namespace Search

variable {g : Graph} {pending : List String} {s s₁ s₂ : Search} {node x y : String} {low : Nat}

@[simp] theorem discovered_discover : (s.discover node).discovered = s.discovered ++ [node] := rfl

@[simp] theorem stack_discover : (s.discover node).stack = node :: s.stack := rfl

@[simp] theorem components_discover : (s.discover node).components = s.components := rfl

@[simp] theorem discovered_close : (s.close node).discovered = s.discovered := rfl

theorem close_eq {above below : List String} (stack : s.stack = above ++ node :: below) (outside : node ∉ above) :
    s.close node = { s with stack := below, components := s.components ++ [node :: above.reverse] } := by
  have taken : s.stack.takeWhile (· ≠ node) = above := by
    rw [stack, List.takeWhile_append_of_pos]
    · simp
    · intro x member
      simpa using fun same : x = node => outside (same ▸ member)
  unfold close
  rw [taken, stack]
  simp

section Numbers

theorem number_lt (found : x ∈ s.discovered) : s.number x < s.discovered.length := List.idxOf_lt_length_of_mem found

theorem number_eq (grows : s.discovered <+: s₁.discovered) (found : x ∈ s.discovered) : s₁.number x = s.number x := by
  obtain ⟨later, whole⟩ := grows
  rw [number, ← whole, List.idxOf_append_of_mem found, number]

theorem number_lt_iff (grows : s.discovered <+: s₁.discovered) :
    s₁.number x < s.discovered.length ↔ x ∈ s.discovered := by
  constructor
  · obtain ⟨later, whole⟩ := grows
    intro small
    by_contra absent
    rw [number, ← whole, List.idxOf_append_of_notMem absent] at small
    omega
  · intro found
    rw [number_eq grows found]
    exact number_lt found

theorem number_discover (absent : x ∉ s.discovered) : (s.discover x).number x = s.discovered.length := by
  rw [number, discovered_discover, List.idxOf_append_of_notMem absent]
  simp

end Numbers

/-- What holds throughout a search, while the visits of some nodes are not over. -/
structure Consistent (g : Graph) (pending : List String) (s : Search) : Prop where
  distinct : s.discovered.Nodup
  placed : (s.stack ++ s.components.flatten).Perm s.discovered
  within : ∀ x ∈ s.discovered, g.Occurs x
  kept : ∀ z ∈ pending, z ∈ s.stack
  upward : ∀ z ∈ pending, ∀ y ∈ s.stack, s.number z ≤ s.number y → ReflTransGen g.Edge z y
  downward : ∀ y ∈ s.stack, ∃ z ∈ pending, s.number z ≤ s.number y ∧ ReflTransGen g.Edge y z
  closed : ∀ x ∈ s.discovered, x ∉ pending → ∀ y, g.Edge x y → y ∈ s.discovered
  settled : ∀ x ∈ s.components.flatten, ∀ y, g.Edge x y → y ∈ s.components.flatten
  separates : g.Separates s.components

namespace Consistent

theorem mem_discovered (consistent : s.Consistent g pending) :
    x ∈ s.discovered ↔ x ∈ s.stack ∨ x ∈ s.components.flatten := by
  rw [← consistent.placed.mem_iff, List.mem_append]

theorem of_stack (consistent : s.Consistent g pending) (member : x ∈ s.stack) : x ∈ s.discovered :=
  consistent.mem_discovered.mpr (.inl member)

theorem nodup (consistent : s.Consistent g pending) : (s.stack ++ s.components.flatten).Nodup :=
  consistent.placed.nodup_iff.mpr consistent.distinct

theorem not_closed (consistent : s.Consistent g pending) (member : x ∈ s.stack) : x ∉ s.components.flatten :=
  fun closed => List.disjoint_of_nodup_append consistent.nodup member closed

theorem reaches_settled (consistent : s.Consistent g pending) (member : x ∈ s.components.flatten)
    (reaches : ReflTransGen g.Edge x y) : y ∈ s.components.flatten := by
  induction reaches with
  | refl => exact member
  | tail _ edge ih => exact consistent.settled _ ih _ edge

theorem initial (g : Graph) : ({} : Search).Consistent g [] where
  distinct := .nil
  placed := .refl _
  within _ found := by cases found
  kept _ found := by cases found
  upward _ found := by cases found
  downward _ found := by cases found
  closed _ found := by cases found
  settled _ found := by cases found
  separates := { nonempty := nofun, classes := nofun, ordered := .nil }

theorem discover (consistent : s.Consistent g pending) (occurs : g.Occurs node) (absent : node ∉ s.discovered)
    (reached : ∀ z ∈ pending, ReflTransGen g.Edge z node) : (s.discover node).Consistent g (node :: pending) := by
  have grows : s.discovered <+: (s.discover node).discovered := List.prefix_append _ _
  have newest := number_discover absent
  have older : ∀ y ∈ s.stack, (s.discover node).number y = s.number y := fun y member =>
    number_eq grows (consistent.of_stack member)
  refine ⟨?_, ?_, ?_, ?_, ?_, ?_, ?_, consistent.settled, consistent.separates⟩
  · rw [discovered_discover, List.nodup_append]
    refine ⟨consistent.distinct, List.nodup_singleton _, fun x found y here same => absent ?_⟩
    rw [← List.mem_singleton.mp here, ← same]
    exact found
  · rw [discovered_discover, stack_discover, components_discover, List.cons_append]
    exact (List.Perm.cons _ consistent.placed).trans (List.perm_append_singleton _ _).symm
  · intro x found
    rcases List.mem_append.mp found with before | here
    · exact consistent.within x before
    · rwa [List.mem_singleton.mp here]
  · intro z member
    rcases List.mem_cons.mp member with rfl | member
    · exact List.mem_cons_self
    · exact List.mem_cons_of_mem _ (consistent.kept z member)
  · intro z member y above le
    rcases List.mem_cons.mp above with rfl | above
    · rcases List.mem_cons.mp member with rfl | member
      · exact .refl
      · exact reached z member
    · rw [older y above] at le
      have small := number_lt (consistent.of_stack above)
      rcases List.mem_cons.mp member with rfl | member
      · omega
      · rw [older z (consistent.kept z member)] at le
        exact consistent.upward z member y above le
  · intro y above
    rcases List.mem_cons.mp above with rfl | above
    · exact ⟨y, List.mem_cons_self, Nat.le_refl _, .refl⟩
    · obtain ⟨z, member, le, reaches⟩ := consistent.downward y above
      refine ⟨z, List.mem_cons_of_mem _ member, ?_, reaches⟩
      rwa [older y above, older z (consistent.kept z member)]
  · intro x found outside y edge
    rw [List.mem_cons, not_or] at outside
    have before := (List.mem_append.mp found).resolve_right fun here => outside.1 (List.mem_singleton.mp here)
    exact grows.subset (consistent.closed x before outside.2 y edge)

end Consistent

structure Onward (g : Graph) (pending : List String) (s s₁ : Search) : Prop where
  consistent : s₁.Consistent g pending
  grows : s.discovered <+: s₁.discovered
  stack : s.stack <:+ s₁.stack
  components : s.components <+: s₁.components

namespace Onward

theorem refl (consistent : s.Consistent g pending) : s.Onward g pending s :=
  ⟨consistent, List.prefix_refl _, List.suffix_refl _, List.prefix_refl _⟩

theorem trans {more : List String} (first : s.Onward g more s₁) (second : s₁.Onward g pending s₂) :
    s.Onward g pending s₂ :=
  ⟨second.consistent, first.grows.trans second.grows, first.stack.trans second.stack,
    first.components.trans second.components⟩

theorem mem_stack {more : List String} (onward : s.Onward g pending s₁) (consistent : s.Consistent g more)
    (member : x ∈ s₁.stack) (before : x ∈ s.discovered) : x ∈ s.stack := by
  refine (consistent.mem_discovered.mp before).resolve_right fun closed => ?_
  obtain ⟨later, whole⟩ := onward.components
  refine onward.consistent.not_closed member ?_
  rw [← whole, List.flatten_append]
  exact List.mem_append_left _ closed

end Onward

structure Looks (g : Graph) (pending : List String) (node : String) (looked : List String) (s : Search)
    (low : Nat) (s₁ : Search) : Prop where
  onward : (s.discover node).Onward g (node :: pending) s₁
  low_le : low ≤ s.discovered.length
  reached : ∃ y ∈ s₁.stack, s₁.number y = low ∧ ReflTransGen g.Edge node y
  least : ∀ a ∈ s₁.stack, a ∉ s.discovered → ∀ y ∈ s.stack, g.Edge a y → (a = node → y ∈ looked) → low ≤ s₁.number y
  found : ∀ y ∈ looked, y ∈ s₁.discovered

structure Visits (g : Graph) (pending : List String) (node : String) (s : Search) (low : Nat) (s₁ : Search) : Prop where
  onward : s.Onward g pending s₁
  reached : low < s.discovered.length → ∃ y ∈ s.stack, s.number y = low ∧ ReflTransGen g.Edge node y
  least : ∀ a ∈ s₁.stack, a ∉ s.discovered → ∀ y ∈ s.stack, g.Edge a y → low ≤ s.number y
  found : node ∈ s₁.discovered

namespace Looks

variable {looked : List String}

theorem start (consistent : s.Consistent g pending) (occurs : g.Occurs node) (absent : node ∉ s.discovered)
    (reached : ∀ z ∈ pending, ReflTransGen g.Edge z node) :
    Looks g pending node [] s s.discovered.length (s.discover node) where
  onward := .refl (consistent.discover occurs absent reached)
  low_le := Nat.le_refl _
  reached := ⟨node, List.mem_cons_self, number_discover absent, .refl⟩
  least a above new y _ _ early := by
    rcases List.mem_cons.mp above with rfl | above
    · cases early rfl
    · exact absurd (consistent.of_stack above) new
  found _ member := by cases member

theorem grows (looks : Looks g pending node looked s low s₁) : s.discovered <+: s₁.discovered :=
  (List.prefix_append _ _).trans looks.onward.grows

theorem visited {target : String} {reached : Nat} (looks : Looks g pending node looked s low s₁)
    (edge : g.Edge node target) (absent : target ∉ s₁.discovered)
    (visits : Visits g (node :: pending) target s₁ reached s₂) :
    Looks g pending node (target :: looked) s (min low reached) s₂ := by
  have onward := visits.onward
  have same : ∀ y ∈ s₁.discovered, s₂.number y = s₁.number y := fun y => number_eq onward.grows
  have lower : s.discovered.length < s₁.discovered.length := by
    have := looks.onward.grows.length_le
    rw [discovered_discover, List.length_append, List.length_singleton] at this
    omega
  have atMost := looks.low_le
  refine ⟨looks.onward.trans onward, by omega, ?_, ?_, ?_⟩
  · by_cases less : low ≤ reached
    · obtain ⟨y, member, number, there⟩ := looks.reached
      refine ⟨y, onward.stack.subset member, ?_, there⟩
      rw [same y (looks.onward.consistent.of_stack member), number]
      omega
    · obtain ⟨y, member, number, there⟩ := visits.reached (by omega)
      refine ⟨y, onward.stack.subset member, ?_, .head edge there⟩
      rw [same y (looks.onward.consistent.of_stack member), number]
      omega
  · intro a above new y member there early
    have below : y ∈ s₁.stack := looks.onward.stack.subset (List.mem_cons_of_mem _ member)
    rw [same y (looks.onward.consistent.of_stack below)]
    by_cases known : a ∈ s₁.discovered
    · have atA := onward.mem_stack looks.onward.consistent above known
      have := looks.least a atA new y member there fun here => ?_
      · omega
      · refine (List.mem_cons.mp (early here)).resolve_left fun here => absent ?_
        rw [← here]
        exact looks.onward.consistent.of_stack below
    · have := visits.least a above known y below there
      omega
  · intro y member
    rcases List.mem_cons.mp member with rfl | member
    · exact visits.found
    · exact onward.grows.subset (looks.found y member)

theorem stacked {target : String} (looks : Looks g pending node looked s low s₁) (edge : g.Edge node target)
    (member : target ∈ s₁.stack) : Looks g pending node (target :: looked) s (min low (s₁.number target)) s₁ := by
  have atMost := looks.low_le
  refine ⟨looks.onward, by omega, ?_, ?_, ?_⟩
  · by_cases less : low ≤ s₁.number target
    · obtain ⟨y, here, number, there⟩ := looks.reached
      exact ⟨y, here, by omega, there⟩
    · exact ⟨target, member, by omega, .single edge⟩
  · intro a above new y below there early
    by_cases here : y = target
    · subst here
      omega
    · have := looks.least a above new y below there fun same => (List.mem_cons.mp (early same)).resolve_left here
      omega
  · intro y here
    rcases List.mem_cons.mp here with rfl | here
    · exact looks.onward.consistent.of_stack member
    · exact looks.found y here

theorem passed {target : String} (looks : Looks g pending node looked s low s₁) (known : target ∈ s₁.discovered)
    (outside : target ∉ s₁.stack) : Looks g pending node (target :: looked) s low s₁ := by
  refine ⟨looks.onward, looks.low_le, looks.reached, ?_, ?_⟩
  · intro a above new y below there early
    refine looks.least a above new y below there fun same => (List.mem_cons.mp (early same)).resolve_left ?_
    rintro rfl
    exact outside (looks.onward.stack.subset (List.mem_cons_of_mem _ below))
  · intro y here
    rcases List.mem_cons.mp here with rfl | here
    · exact known
    · exact looks.found y here

section Over

theorem since (looks : Looks g pending node looked s low s₁) : s.Onward g (node :: pending) s₁ :=
  ⟨looks.onward.consistent, looks.grows, (List.suffix_cons _ _).trans looks.onward.stack, looks.onward.components⟩

theorem number_node (looks : Looks g pending node looked s low s₁) (absent : node ∉ s.discovered) :
    s₁.number node = s.discovered.length := by
  rw [number_eq looks.onward.grows (by simp), number_discover absent]

theorem edge_discovered (looks : Looks g pending node looked s low s₁) (all : ∀ y, g.Edge node y → y ∈ looked)
    (found : x ∈ s₁.discovered) (outside : x ∉ pending) (edge : g.Edge x y) : y ∈ s₁.discovered := by
  by_cases same : x = node
  · subst same
    exact looks.found y (all y edge)
  · exact looks.onward.consistent.closed x found (by simp [same, outside]) y edge

theorem exists_above (looks : Looks g pending node looked s low s₁) (consistent : s.Consistent g pending)
    (absent : node ∉ s.discovered) : ∃ above, s₁.stack = above ++ node :: s.stack ∧ node ∉ above ∧
    ∀ x, x ∈ node :: above.reverse ↔ x ∈ s₁.stack ∧ x ∉ s.discovered := by
  obtain ⟨above, whole⟩ := looks.onward.stack
  have distinct := looks.onward.consistent.nodup.of_append_left
  rw [← whole, List.nodup_append] at distinct
  refine ⟨above, whole.symm, fun member => distinct.2.2 node member node List.mem_cons_self rfl, fun x => ?_⟩
  rw [← whole]
  constructor
  · intro member
    have stacked : x ∈ above ++ node :: s.stack := by
      simp only [List.mem_cons, List.mem_reverse, List.mem_append] at member ⊢
      tauto
    refine ⟨stacked, fun known => ?_⟩
    have below := looks.since.mem_stack consistent (whole ▸ stacked) known
    rcases List.mem_cons.mp member with rfl | member
    · exact absent known
    · exact distinct.2.2 x (List.mem_reverse.mp member) x (List.mem_cons_of_mem _ below) rfl
  · rintro ⟨member, new⟩
    simp only [List.mem_append, stack_discover, List.mem_cons] at member
    rcases member with member | rfl | below
    · exact List.mem_cons_of_mem _ (List.mem_reverse.mpr member)
    · exact List.mem_cons_self
    · exact absurd (consistent.of_stack below) new

variable (looks : Looks g pending node looked s low s₁) (consistent : s.Consistent g pending)
  (all : ∀ y, g.Edge node y → y ∈ looked)

include looks consistent all

theorem stays (lowest : low = s.discovered.length) (member : x ∈ s₁.stack) (new : x ∉ s.discovered)
    (reaches : ReflTransGen g.Edge x y) : (y ∈ s₁.stack ∧ y ∉ s.discovered) ∨ y ∈ s₁.components.flatten := by
  induction reaches with
  | refl => exact .inl ⟨member, new⟩
  | @tail a b _ edge ih =>
    rcases ih with ⟨member, new⟩ | closed
    · have outside : a ∉ pending := fun pending => new (consistent.of_stack (consistent.kept a pending))
      have found := looks.edge_discovered all (looks.onward.consistent.of_stack member) outside edge
      refine (looks.onward.consistent.mem_discovered.mp found).imp_left fun stacked => ⟨stacked, fun known => ?_⟩
      -- An edge from a new node to an old one on the stack would have been come upon.
      have below := looks.since.mem_stack consistent stacked known
      have bound := looks.least a member new b below edge fun same => all b (same ▸ edge)
      have := (number_lt_iff looks.grows).mpr known
      omega
    · exact .inr (looks.onward.consistent.settled a closed b edge)

variable (absent : node ∉ s.discovered)

include absent

theorem reaches_node (lowest : low = s.discovered.length) (member : x ∈ s₁.stack) (new : x ∉ s.discovered) :
    ReflTransGen g.Edge x node ∧ ReflTransGen g.Edge node x := by
  have atNode := looks.number_node absent
  have above : s.discovered.length ≤ s₁.number x := Nat.not_lt.mp (mt (number_lt_iff looks.grows).mp new)
  refine ⟨?_, looks.onward.consistent.upward node List.mem_cons_self x member (by omega)⟩
  -- A node whose visit is over reaches one whose visit is not, and this can be the last of them only.
  obtain ⟨z, pendingZ, _, there⟩ := looks.onward.consistent.downward x member
  rcases List.mem_cons.mp pendingZ with rfl | pendingZ
  · exact there
  · have below := consistent.kept z pendingZ
    have stacked := looks.since.stack.subset below
    rcases looks.stays consistent all lowest member new there with ⟨_, new⟩ | closed
    · exact absurd (consistent.of_stack below) new
    · exact absurd closed (looks.onward.consistent.not_closed stacked)

theorem consistent_close (lowest : low = s.discovered.length) : (s₁.close node).Consistent g pending := by
  obtain ⟨above, whole, outside, inside⟩ := looks.exists_above consistent absent
  have after := looks.onward.consistent
  have same : ∀ y ∈ s.stack, s₁.number y = s.number y := fun y member =>
    number_eq looks.grows (consistent.of_stack member)
  have flat : (s₁.components ++ [node :: above.reverse]).flatten = s₁.components.flatten ++ node :: above.reverse := by
    simp
  have leaves : ∀ x ∈ node :: above.reverse, ∀ y, ReflTransGen g.Edge x y →
      y ∈ node :: above.reverse ∨ y ∈ s₁.components.flatten := fun x member y there => by
    rw [inside]
    exact looks.stays consistent all lowest ((inside x).mp member).1 ((inside x).mp member).2 there
  rw [close_eq whole outside]
  refine ⟨after.distinct, ?_, after.within, consistent.kept, ?_, ?_, ?_, ?_, ?_⟩
  · refine List.Perm.trans ?_ after.placed
    rw [flat, whole]
    refine List.perm_iff_count.mpr fun x => ?_
    simp only [List.count_append, List.count_cons, List.count_reverse]
    omega
  · intro z member y above le
    exact after.upward z (List.mem_cons_of_mem _ member) y (looks.since.stack.subset above) le
  · intro y above
    obtain ⟨z, member, le, there⟩ := consistent.downward y above
    refine ⟨z, member, ?_, there⟩
    change s₁.number z ≤ s₁.number y
    rwa [same y above, same z (consistent.kept z member)]
  · exact fun x found outside y edge => looks.edge_discovered all found outside edge
  · intro x member y edge
    rw [flat, List.mem_append] at member ⊢
    rcases member with member | member
    · exact .inl (after.settled x member y edge)
    · exact (leaves x member y (.single edge)).symm
  · refine after.separates.concat (List.cons_ne_nil _ _) (fun x member y there => after.reaches_settled member there)
      (fun x member => after.not_closed ((inside x).mp member).1) (fun x member y other => ?_) leaves
    have first := (inside x).mp member
    have second := (inside y).mp other
    exact (looks.reaches_node consistent all absent lowest first.1 first.2).1.trans
      (looks.reaches_node consistent all absent lowest second.1 second.2).2

theorem consistent_leave (lower : low < s.discovered.length) : s₁.Consistent g pending := by
  have after := looks.onward.consistent
  have atNode := looks.number_node absent
  refine ⟨after.distinct, after.placed, after.within,
    fun z member => looks.since.stack.subset (consistent.kept z member),
    fun z member => after.upward z (List.mem_cons_of_mem _ member), fun y above => ?_,
    fun x found outside y edge => looks.edge_discovered all found outside edge, after.settled,
    after.separates⟩
  obtain ⟨z, member, le, there⟩ := after.downward y above
  rcases List.mem_cons.mp member with rfl | member
  · obtain ⟨w, stacked, number, further⟩ := looks.reached
    obtain ⟨z', member, le', back⟩ := after.downward w stacked
    have other : z' ≠ z := by
      rintro rfl
      omega
    exact ⟨z', (List.mem_cons.mp member).resolve_left other, by omega, (there.trans further).trans back⟩
  · exact ⟨z, member, le, there⟩

theorem visits : Visits g pending node s low (if low = s.discovered.length then s₁.close node else s₁) := by
  have found : node ∈ s₁.discovered := looks.onward.grows.subset (by simp)
  have reached : low < s.discovered.length → ∃ y ∈ s.stack, s.number y = low ∧ ReflTransGen g.Edge node y := by
    intro lower
    obtain ⟨y, stacked, number, there⟩ := looks.reached
    have known : y ∈ s.discovered := (number_lt_iff looks.grows).mp (by omega)
    refine ⟨y, looks.since.mem_stack consistent stacked known, ?_, there⟩
    rw [← number_eq looks.grows known, number]
  split
  next lowest =>
    have after := looks.consistent_close consistent all absent lowest
    obtain ⟨above, whole, outside, inside⟩ := looks.exists_above consistent absent
    rw [close_eq whole outside] at after ⊢
    refine ⟨⟨after, looks.grows, List.suffix_refl _, ?_⟩, reached, ?_, found⟩
    · exact looks.onward.components.trans (List.prefix_append _ _)
    · exact fun a above new => absurd (consistent.of_stack above) new
  next higher =>
    have lower : low < s.discovered.length := Nat.lt_of_le_of_ne looks.low_le higher
    refine ⟨{ looks.since with consistent := looks.consistent_leave consistent all absent lower }, reached,
      fun a above new y below there => ?_, found⟩
    rw [← number_eq looks.grows (consistent.of_stack below)]
    exact looks.least a above new y below there fun same => all y (same ▸ there)

end Over

end Looks

theorem Consistent.length_le (consistent : s.Consistent g pending) : s.discovered.length ≤ g.nodes.length :=
  (List.subperm_of_subset consistent.distinct fun x found => (consistent.within x found).mem_nodes).length_le

theorem Consistent.stack_eq_nil (consistent : s.Consistent g []) : s.stack = [] := by
  refine List.eq_nil_iff_forall_not_mem.mpr fun y above => ?_
  obtain ⟨z, waiting, _⟩ := consistent.downward y above
  cases waiting

end Search

open Search

section Search

variable {g : Graph} {pending : List String} {s : Search} {node : String}

theorem looks_foldl {depth : Nat} {looked : List String} {low : Nat} {s₁ : Search} (targets : List String)
    (deeper : ∀ target s₁, s₁.Consistent g (node :: pending) → g.Occurs target → target ∉ s₁.discovered →
      (∀ z ∈ node :: pending, ReflTransGen g.Edge z target) → g.nodes.length ≤ depth + s₁.discovered.length →
      Visits g (node :: pending) target s₁ (visit g depth target s₁).1 (visit g depth target s₁).2)
    (edges : ∀ target ∈ targets, g.Edge node target) (reached : ∀ z ∈ node :: pending, ReflTransGen g.Edge z node)
    (room : g.nodes.length ≤ depth + s₁.discovered.length) (looks : Looks g pending node looked s low s₁) :
    Looks g pending node (targets.reverse ++ looked) s (targets.foldl (look (visit g depth)) (low, s₁)).1
      (targets.foldl (look (visit g depth)) (low, s₁)).2 := by
  induction targets generalizing looked low s₁ with
  | nil => exact looks
  | cons target rest ih =>
    have edge := edges target List.mem_cons_self
    rw [List.foldl_cons, List.reverse_cons, List.append_assoc, List.singleton_append]
    have edges := fun t member => edges t (List.mem_cons_of_mem _ member)
    rw [look]
    by_cases absent : target ∉ s₁.discovered
    · rw [if_pos absent]
      have visits := deeper target s₁ looks.onward.consistent (.inr ⟨node, edge⟩) absent
        (fun z waiting => (reached z waiting).tail edge) room
      have := visits.onward.grows.length_le
      exact ih edges (by omega) (looks.visited edge absent visits)
    · rw [if_neg absent]
      by_cases stacked : target ∈ s₁.stack
      · rw [if_pos stacked]
        exact ih edges room (looks.stacked edge stacked)
      · rw [if_neg stacked]
        exact ih edges room (looks.passed (not_not.mp absent) stacked)

theorem visits_visit (depth : Nat) (consistent : s.Consistent g pending) (occurs : g.Occurs node)
    (absent : node ∉ s.discovered) (reached : ∀ z ∈ pending, ReflTransGen g.Edge z node)
    (room : g.nodes.length ≤ depth + s.discovered.length) :
    Visits g pending node s (visit g depth node s).1 (visit g depth node s).2 := by
  have begins := consistent.discover occurs absent reached
  have fits : s.discovered.length + 1 ≤ g.nodes.length := by simpa using begins.length_le
  -- Each level down has discovered one node more, so the depth cannot run out.
  induction depth generalizing node pending s with
  | zero => omega
  | succ depth ih =>
    have looks := looks_foldl (g.targets node)
      (fun target s₁ consistent occurs absent reached room => ih consistent occurs absent reached room
        (consistent.discover occurs absent reached)
        (by simpa using (consistent.discover occurs absent reached).length_le))
      (fun _ member => member)
      (fun z waiting => by
        rcases List.mem_cons.mp waiting with rfl | waiting
        · exact .refl
        · exact reached z waiting)
      (by simp; omega) (Looks.start consistent occurs absent reached)
    exact looks.visits consistent (fun y edge => by simpa using show y ∈ g.targets node from edge) absent

theorem consistent_search (g : Graph) :
    g.search.Consistent g [] ∧ ∀ node ∈ g.map (·.1), node ∈ g.search.discovered := by
  suffices whole : ∀ (names : List String) (s : Search), s.Consistent g [] → (∀ node ∈ names, node ∈ g.map (·.1)) →
      ∀ s', names.foldl (fun s node => if node ∈ s.discovered then s else (visit g g.nodes.length node s).2) s = s' →
        s'.Consistent g [] ∧ (∀ node ∈ s.discovered, node ∈ s'.discovered) ∧ ∀ node ∈ names, node ∈ s'.discovered by
    obtain ⟨consistent, _, found⟩ := whole (g.map (·.1)) {} (.initial g) (fun _ listed => listed) _ rfl
    exact ⟨consistent, found⟩
  intro names
  induction names with
  | nil =>
    rintro s consistent _ _ rfl
    exact ⟨consistent, fun _ found => found, nofun⟩
  | cons node rest ih =>
    rintro s consistent listed s' rfl
    rw [List.foldl_cons]
    have later := fun n member => listed n (List.mem_cons_of_mem _ member)
    by_cases known : node ∈ s.discovered
    · rw [if_pos known]
      obtain ⟨after, grows, found⟩ := ih s consistent later _ rfl
      exact ⟨after, grows, List.forall_mem_cons.mpr ⟨grows node known, found⟩⟩
    · rw [if_neg known]
      have visits := visits_visit g.nodes.length consistent (.inl (listed node List.mem_cons_self)) known nofun
        (by omega)
      obtain ⟨after, grows, found⟩ := ih _ visits.onward.consistent later _ rfl
      refine ⟨after, fun n known => grows n (visits.onward.grows.subset known), ?_⟩
      exact List.forall_mem_cons.mpr ⟨grows node visits.found, found⟩

end Search

section Components

variable {g : Graph} {component : List String} {x y : String}

theorem mem_components (g : Graph) (x : String) : x ∈ g.components.flatten ↔ g.Occurs x := by
  obtain ⟨consistent, listed⟩ := consistent_search g
  have whole : x ∈ g.components.flatten ↔ x ∈ g.search.discovered := by
    rw [consistent.mem_discovered, consistent.stack_eq_nil]
    simp [components]
  rw [whole]
  refine ⟨consistent.within x, fun occurs => ?_⟩
  obtain here | ⟨source, edge⟩ := occurs
  · exact listed x here
  · obtain ⟨targets, entry, _⟩ := exists_mem_of_edge edge
    exact consistent.closed source (listed source (List.mem_map_of_mem entry)) nofun x edge

theorem nodup_components (g : Graph) : g.components.flatten.Nodup := by
  obtain ⟨consistent, _⟩ := consistent_search g
  have nodup := consistent.nodup
  rwa [consistent.stack_eq_nil] at nodup

theorem separates_components (g : Graph) : g.Separates g.components := (consistent_search g).1.separates

theorem mem_nodes_of_component (listed : component ∈ g.components) (member : x ∈ component) : x ∈ g.nodes :=
  ((mem_components g x).mp (List.mem_flatten_of_mem listed member)).mem_nodes

theorem exists_component (listed : x ∈ g.map (·.1)) :
    ∃ component ∈ g.components, ∀ y, ReflTransGen g.Edge x y → ReflTransGen g.Edge y x → y ∈ component := by
  obtain ⟨component, there, member⟩ := List.mem_flatten.mp ((mem_components g x).mpr (.inl listed))
  refine ⟨component, there, fun y forth back => ?_⟩
  exact ((separates_components g).classes component there x member y).mpr ⟨forth, back⟩

end Components

end Packrat.Graph
