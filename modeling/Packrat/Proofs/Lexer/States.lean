import Mathlib.Data.List.Sublists
import Packrat.Lexer.Table
import Packrat.Proofs.Lexer.Fragments
import Packrat.Proofs.SpanMap.Cuts
import Packrat.Proofs.Worklist

namespace Packrat

namespace SpanMap

variable {α : Type} {map : SpanMap α} {x : Int} {target : α}

theorem Ordered.mem_targetsAt (ordered : Ordered map) :
    target ∈ map.targetsAt x ↔ ∃ e ∈ map, x ∈ e.1 ∧ target ∈ e.2 := by
  constructor
  · intro here
    by_cases inside : ∃ e ∈ map, x ∈ e.1
    · obtain ⟨e, listed, member⟩ := inside
      rw [ordered.targetsAt_of_mem listed member] at here
      exact ⟨e, listed, member, here⟩
    · rw [targetsAt_eq_nil fun e listed member => inside ⟨e, listed, member⟩] at here
      cases here
  · intro ⟨e, listed, member, here⟩
    rwa [ordered.targetsAt_of_mem listed member]

end SpanMap

namespace Automaton

variable {m : Automaton} {i j : Nat} {c : Char} {w : List Char}

theorem leads_cons : m.Leads i (c :: w) j ↔
    ∃ k l, m.Leads i [] k ∧ l ∈ (m.state k).edges.targetsAt c.toNat ∧ m.Leads l w j := by
  constructor
  · intro leads
    generalize whole : c :: w = text at leads
    induction leads with
    | here => cases whole
    | @step i j _ u v first rest ih =>
      rcases first with ⟨rfl, listed⟩ | ⟨d, rfl, edge⟩
      · obtain ⟨k, l, before, further⟩ := ih whole
        exact ⟨k, l, .step (.inl ⟨rfl, listed⟩) before, further⟩
      · cases whole
        exact ⟨_, _, .here, edge, rest⟩
  · intro ⟨k, l, before, edge, rest⟩
    exact before.append (.step (u := [c]) (.inr ⟨c, rfl, edge⟩) rest)

end Automaton

namespace LexState

open Automaton

variable {m : Automaton} {s : LexState} {i j : Nat} {x : Int} {starts others : List Nat} {w : List Char}

def Within (m : Automaton) (s : LexState) : Prop := ∀ i ∈ s, i < m.size

def step (m : Automaton) (s : LexState) (x : Int) : LexState :=
  closure m (s.places.flatMap fun i => (m.state i).edges.targetsAt x)

def together (m : Automaton) (s : LexState) : SpanMap (List Nat) :=
  .ofList (s.places.flatMap fun i => (m.state i).edges)

theorem edges_eq : edges m s = (together m s).map fun e => (e.1, closure m e.2.flatten) := rfl

section

variable (sound : m.Sound)
include sound

section

variable (inside : ∀ i ∈ starts, i < m.size)
include inside

theorem within_closure : Within m (closure m starts) := by
  intro i member
  refine Worklist.forall_mem_explore (P := (· < m.size)) (fun i _ j listed => sound.inside (.inl listed))
    (fun i listed => inside i (List.mem_reverse.mp listed)) (List.forall_mem_nil _) i (mem_ofList.mp member)

theorem mem_closure : j ∈ closure m starts ↔ ∃ i ∈ starts, m.Leads i [] j := by
  have within : starts.reverse ⊆ List.range m.size := fun i listed =>
    List.mem_range.mpr (inside i (List.mem_reverse.mp listed))
  have stays : ∀ i ∈ List.range m.size, (m.state i).epsilons ⊆ List.range m.size := fun _ _ _ listed =>
    List.mem_range.mpr (sound.inside (.inl listed))
  have enough : (List.range m.size).length ≤ m.size := Nat.le_of_eq List.length_range
  refine mem_ofList.trans ⟨?_, ?_⟩
  · refine Worklist.forall_mem_explore (P := fun j => ∃ i ∈ starts, m.Leads i [] j) (fun a come b listed => ?_)
      (fun i listed => ⟨i, List.mem_reverse.mp listed, .here⟩) (List.forall_mem_nil _) j
    obtain ⟨i, start, leads⟩ := come
    exact ⟨i, start, leads.append (leads_of_step (.inl ⟨rfl, listed⟩))⟩
  · -- The worklist is closed under steps that read nothing, so it follows the whole way.
    intro ⟨i, start, leads⟩
    have first := Worklist.mem_explore_of_mem within stays enough (List.mem_reverse.mpr start)
    clear start
    generalize nothing : [] = w at leads
    induction leads with
    | here => exact first
    | step across _ ih =>
      obtain ⟨none, rest⟩ := List.nil_eq_append_iff.mp nothing
      rcases across with ⟨_, listed⟩ | ⟨c, some, _⟩
      · exact ih (Worklist.mem_explore_of_step within stays enough first listed) rest.symm
      · rw [none] at some
        cases some

theorem closure_congr (same : ∀ i, i ∈ starts ↔ i ∈ others) : closure m starts = closure m others := by
  refine ext_mem fun j => ?_
  rw [mem_closure sound inside, mem_closure sound fun i listed => inside i ((same i).mpr listed)]
  simp only [same]

end

theorem nonempty_edges (s : LexState) : ∀ e ∈ s.places.flatMap fun i => (m.state i).edges, e.1.Nonempty := by
  intro e listed
  obtain ⟨i, _, edge⟩ := List.mem_flatMap.mp listed
  exact (sound.ordered i).nonempty e edge

theorem together_spec (s : LexState) : SpanMap.Ordered (together m s) ∧ ∀ x target,
    target ∈ ((together m s).targetsAt x).flatten ↔ ∃ i ∈ s, target ∈ (m.state i).edges.targetsAt x := by
  obtain ⟨ordered, targets⟩ := SpanMap.ofList_spec (nonempty_edges sound s)
  refine ⟨ordered, fun x target => ?_⟩
  rw [together, targets]
  simp only [List.mem_flatten, List.mem_map, List.mem_filter, List.mem_flatMap, (sound.ordered _).mem_targetsAt,
    decide_eq_true_eq]
  constructor
  · intro ⟨_, ⟨e, ⟨⟨i, member, listed⟩, inside⟩, rfl⟩, here⟩
    exact ⟨i, member, e, listed, inside, here⟩
  · intro ⟨i, member, e, listed, inside, here⟩
    exact ⟨e.2, ⟨e, ⟨⟨i, member, listed⟩, inside⟩, rfl⟩, here⟩

theorem ordered_edges (s : LexState) : SpanMap.Ordered (edges m s) := by
  apply (together_spec sound s).1.of_spans
  rw [edges_eq, List.map_map]
  rfl

theorem targets_within (s : LexState) (x : Int) :
    ∀ j ∈ s.places.flatMap fun i => (m.state i).edges.targetsAt x, j < m.size := by
  intro j listed
  obtain ⟨i, _, edge⟩ := List.mem_flatMap.mp listed
  exact sound.inside (.inr ⟨x, edge⟩)

theorem within_step (s : LexState) (x : Int) : Within m (step m s x) := within_closure sound (targets_within sound s x)

theorem edge_step {e : Span × LexState} (listed : e ∈ edges m s) (here : x ∈ e.1) : e.2 = step m s x := by
  obtain ⟨ordered, targets⟩ := together_spec sound s
  obtain ⟨entry, member, rfl⟩ := List.mem_map.mp listed
  refine (closure_congr sound (targets_within sound s x) fun j => ?_).symm
  rw [← ordered.targetsAt_of_mem member here, targets]
  exact List.mem_flatMap

theorem edges_of_perm {is : List Nat} (same : is.Perm s.places) :
    (SpanMap.ofList (is.flatMap fun i => (m.state i).edges)).map (fun e => (e.1, closure m e.2.flatten)) =
      edges m s := by
  obtain ⟨ordered, targets⟩ := together_spec sound s
  have within : ∀ e ∈ together m s, ∀ j ∈ e.2.flatten, j < m.size := by
    intro e listed j here
    rw [← ordered.targetsAt_of_mem listed (ordered.nonempty e listed).lower_mem, targets] at here
    obtain ⟨i, _, edge⟩ := here
    exact sound.inside (.inr ⟨_, edge⟩)
  obtain ⟨lengths, alike⟩ :=
    List.forall₂_iff_get.mp (SpanMap.ofList_of_perm (nonempty_edges sound s) (same.flatMap_right _))
  rw [edges_eq]
  refine List.ext_getElem (by rw [List.length_map, List.length_map, lengths, together]) fun i here there => ?_
  rw [List.length_map] at here there
  rw [List.getElem_map, List.getElem_map]
  obtain ⟨spans, perm⟩ := alike i here there
  exact Prod.ext spans (closure_congr sound (within _ (List.getElem_mem there)) fun _ => perm.flatten.mem_iff.symm).symm

theorem not_mem_step (outside : ∀ e ∈ edges m s, x ∉ e.1) : ∀ j, j ∉ step m s x := by
  have nothing : (together m s).targetsAt x = [] :=
    SpanMap.targetsAt_eq_nil fun e listed => outside _ (List.mem_map_of_mem listed)
  intro j member
  obtain ⟨i, listed, _⟩ := (mem_closure sound (targets_within sound s x)).mp member
  have here := ((together_spec sound s).2 x i).mpr (List.mem_flatMap.mp listed)
  rw [nothing] at here
  cases here

end

def run (m : Automaton) (s : LexState) (w : List Char) : LexState := w.foldl (fun s c => step m s c.toNat) s

theorem mem_run (sound : m.Sound) (inside : ∀ i ∈ starts, i < m.size) :
    j ∈ run m (closure m starts) w ↔ ∃ i ∈ starts, m.Leads i w j := by
  -- The start is generalized to the set that the characters before lead to.
  induction w generalizing starts with
  | nil => exact mem_closure sound inside
  | cons c w ih =>
    refine (ih (targets_within sound _ _)).trans ?_
    simp only [List.mem_flatMap, leads_cons, ← mem_def, mem_closure sound inside]
    grind

def possible (m : Automaton) : List LexState := (List.range m.size).sublists.map ofList

theorem length_possible (m : Automaton) : (possible m).length = 2 ^ m.size := by
  rw [possible, List.length_map, List.length_sublists, List.length_range]

theorem mem_possible : s ∈ possible m ↔ Within m s := by
  constructor
  · intro listed i member
    obtain ⟨is, some, rfl⟩ := List.mem_map.mp listed
    exact List.mem_range.mp ((List.mem_sublists.mp some).subset (mem_ofList.mp member))
  · intro within
    refine List.mem_map.mpr ⟨(List.range m.size).filter (· ∈ s), List.mem_sublists.mpr List.filter_sublist, ?_⟩
    refine ext_mem fun i => ?_
    simpa using within i

def targets (m : Automaton) (s : LexState) : List LexState := (edges m s).map (·.2)

def reached (root : Nat) (m : Automaton) : List LexState :=
  Worklist.explore (targets m) (Nat.pow 2 m.size) [closure m [root]] []

theorem targets_possible (sound : m.Sound) : ∀ s ∈ possible m, targets m s ⊆ possible m := by
  intro s _ t listed
  obtain ⟨e, edge, rfl⟩ := List.mem_map.mp listed
  rw [edge_step sound edge ((ordered_edges sound s).nonempty e edge).lower_mem]
  exact mem_possible.mpr (within_step sound s _)

theorem explored_reached {root : Nat} (sound : m.Sound) (inside : root < m.size) :
    Worklist.Explored (targets m) [closure m [root]] (possible m) [] (reached root m) := by
  have start : Within m (closure m [root]) := within_closure sound (List.forall_mem_singleton.mpr inside)
  refine Worklist.explored_explore ?_ (targets_possible sound) (Nat.le_of_eq (length_possible m))
  exact List.cons_subset.mpr ⟨mem_possible.mpr start, List.nil_subset _⟩

theorem reached_zero (root : Nat) (m : Automaton) : (reached root m)[0]? = some (closure m [root]) := by
  obtain ⟨steps, some⟩ : ∃ steps, Nat.pow 2 m.size = steps + 1 :=
    Nat.exists_eq_succ_of_ne_zero (Nat.two_pow_pos m.size).ne'
  obtain ⟨others, whole⟩ : [closure m [root]] <+: reached root m := by
    rw [reached, some]
    exact Worklist.known_prefix_explore
  rw [← whole]
  rfl

end LexState

end Packrat
