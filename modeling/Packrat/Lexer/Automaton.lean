import Packrat.SpanMap
import Packrat.Worklist

namespace Packrat

structure Automaton.State where
  accept : Option Nat := none
  epsilons : List Nat := []
  edges : SpanMap Nat := []

structure Automaton where
  states : Array Automaton.State := #[]

namespace Automaton

def size (m : Automaton) : Nat := m.states.size

def state (m : Automaton) (i : Nat) : State := m.states[i]?.getD {}

def addState (m : Automaton) : Nat × Automaton := (m.size, ⟨m.states.push {}⟩)

def update (m : Automaton) (i : Nat) (f : State → State) : Automaton := ⟨m.states.modify i f⟩

def addEdge (m : Automaton) (i : Nat) (span : Span) (target : Nat) : Automaton :=
  m.update i fun s => { s with edges := s.edges.add span target }

def addEpsilon (m : Automaton) (i target : Nat) : Automaton :=
  m.update i fun s => { s with epsilons := s.epsilons ++ [target] }

def setAccept (m : Automaton) (i token : Nat) : Automaton :=
  m.update i fun s => { s with accept := some token }

def link (m : Automaton) (ends : List Nat) (target : Nat) : Automaton :=
  ends.foldl (fun m i => m.addEpsilon i target) m

def addEdges (m : Automaton) (i : Nat) (spans : List Span) (target : Nat) : Automaton :=
  spans.foldl (fun m span => m.addEdge i span target) m

def acceptAt (m : Automaton) (ends : List Nat) (token : Nat) : Automaton :=
  ends.foldl (fun m i => m.setAccept i token) m

def addChain (m : Automaton) (last : Nat) : List Char → Nat × Automaton
  | [] => (last, m)
  | c :: cs =>
    let (next, m) := m.addState
    (m.addEdge last (.single c.toNat) next).addChain next cs

end Automaton

/-- A state of the deterministic automaton: a set of states of the other one. -/
structure LexState where
  places : List Nat
  ascending : places.Pairwise (· < ·)
  deriving DecidableEq

namespace LexState

instance : Membership Nat LexState := ⟨fun s i => i ∈ s.places⟩

theorem mem_def {i : Nat} {s : LexState} : i ∈ s ↔ i ∈ s.places := Iff.rfl

instance (i : Nat) (s : LexState) : Decidable (i ∈ s) := inferInstanceAs (Decidable (i ∈ s.places))

def insertInto (i : Nat) : List Nat → List Nat
  | [] => [i]
  | j :: js => if i < j then i :: j :: js else if i = j then j :: js else j :: insertInto i js

theorem mem_insertInto {i k : Nat} {js : List Nat} : k ∈ insertInto i js ↔ k = i ∨ k ∈ js := by
  induction js with
  | nil => simp [insertInto]
  | cons j js ih =>
    unfold insertInto
    split
    · simp
    · split
      · next same => simp [same]
      · simp only [List.mem_cons, ih]
        grind

theorem insertInto_ascending (i : Nat) {js : List Nat} (ascending : js.Pairwise (· < ·)) :
    (insertInto i js).Pairwise (· < ·) := by
  induction ascending with
  | nil => simp [insertInto]
  | @cons j js below tail ih =>
    unfold insertInto
    split
    · next lt =>
      refine .cons (fun k listed => ?_) (.cons below tail)
      rcases List.mem_cons.mp listed with rfl | listed
      · exact lt
      · exact Nat.lt_trans lt (below k listed)
    · split
      · exact .cons below tail
      · refine .cons (fun k listed => ?_) ih
        rcases mem_insertInto.mp listed with rfl | listed
        · omega
        · exact below k listed

def insert (i : Nat) (s : LexState) : LexState := ⟨insertInto i s.places, insertInto_ascending i s.ascending⟩

@[simp] theorem mem_insert {i k : Nat} {s : LexState} : k ∈ s.insert i ↔ k = i ∨ k ∈ s := mem_insertInto

def ofList (is : List Nat) : LexState := is.foldr insert ⟨[], .nil⟩

@[simp] theorem mem_ofList {k : Nat} {is : List Nat} : k ∈ ofList is ↔ k ∈ is := by
  induction is with
  | nil => exact iff_of_false List.not_mem_nil List.not_mem_nil
  | cons i is ih =>
    rw [List.mem_cons, ← ih]
    exact mem_insert

theorem ext_mem {s t : LexState} (same : ∀ k, k ∈ s ↔ k ∈ t) : s = t := by
  obtain ⟨is, ascending⟩ := s
  obtain ⟨js, ascending'⟩ := t
  have nodup : ∀ {ks : List Nat}, ks.Pairwise (· < ·) → ks.Nodup := fun below => below.imp Nat.ne_of_lt
  have perm : is.Perm js := (List.perm_ext_iff_of_nodup (nodup ascending) (nodup ascending')).mpr same
  have : is = js := perm.eq_of_pairwise (fun a b _ _ ab ba => by omega) ascending ascending'
  subst this
  rfl

def closure (m : Automaton) (starts : List Nat) : LexState :=
  ofList (Worklist.explore (fun i => (m.state i).epsilons) m.size starts.reverse [])

def edges (m : Automaton) (s : LexState) : List (Span × LexState) :=
  let together : SpanMap (List Nat) := .ofList (s.places.flatMap fun i => (m.state i).edges)
  together.map fun (span, targets) => (span, closure m targets.flatten)

def accepted (m : Automaton) (s : LexState) : Option Nat := (s.places.filterMap fun i => (m.state i).accept).min?

end LexState

end Packrat
