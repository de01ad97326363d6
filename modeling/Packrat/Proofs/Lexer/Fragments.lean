import Packrat.Lexer.Pattern
import Packrat.Proofs.Lexer.Paths

namespace Packrat

namespace Automaton

open Computability

variable {m m' m'' : Automaton} {i j k target token : Nat} {u v w : List Char} {ends others : Set Nat}
    {label : Language Char}

@[simp] theorem size_update (f : State → State) : (m.update i f).size = m.size := Array.size_modify

theorem state_update (f : State → State) (inside : i < m.size) :
    (m.update i f).state k = if k = i then f (m.state k) else m.state k := by
  unfold state update
  rw [Array.getElem?_modify]
  by_cases same : k = i
  · subst same
    rw [if_pos rfl, if_pos rfl, Array.getElem?_eq_getElem inside]
    rfl
  · rw [if_neg (Ne.symm same), if_neg same]

@[simp] theorem size_addState : m.addState.2.size = m.size + 1 := Array.size_push _

@[simp] theorem state_addState : m.addState.2.state k = m.state k := by
  unfold state addState
  rw [Array.getElem?_push]
  split
  · next same =>
    subst same
    rw [Array.getElem?_eq_none (Nat.le_refl _)]
    rfl
  · rfl

theorem state_of_le (outside : m.size ≤ i) : m.state i = {} := by
  rw [state, Array.getElem?_eq_none outside, Option.getD_none]

theorem lt_of_step (step : (m.state i).Step w j) : i < m.size := by
  refine Decidable.byContradiction fun outside => ?_
  rw [state_of_le (Nat.le_of_not_lt outside)] at step
  rcases step with ⟨_, here⟩ | ⟨c, _, here⟩ <;> cases here

theorem joined_update {f : State → State} (ordered : ∀ i, SpanMap.Ordered (m.state i).edges) (inside : i < m.size)
    (accept : (f (m.state i)).accept = (m.state i).accept) (further : SpanMap.Ordered (f (m.state i)).edges)
    (step : ∀ {w j}, (f (m.state i)).Step w j ↔ (m.state i).Step w j ∨ w ∈ label ∧ j = target)
    (follows : ∀ {j}, (f (m.state i)).Follows j → (m.state i).Follows j ∨ j = target) :
    Joined m (m.update i f) {i} label target where
  size := size_update f
  elsewhere k apart := by
    rw [state_update f inside, if_neg (by simpa using apart)]
  accept k := by
    rw [state_update f inside]
    split
    · next same => rw [same, accept]
    · rfl
  ordered k := by
    rw [state_update f inside]
    split
    · next same =>
      rw [same]
      exact further
    · exact ordered k
  step := by
    intro k w j
    rw [state_update f inside]
    by_cases same : k = i
    · subst same
      simp [step]
    · simp [same]
  follows := by
    intro k j
    rw [state_update f inside]
    split
    · next same =>
      rw [same]
      exact follows
    · exact .inl

theorem joined_addEpsilon (ordered : ∀ i, SpanMap.Ordered (m.state i).edges) (inside : i < m.size) (target : Nat) :
    Joined m (m.addEpsilon i target) {i} 1 target := by
  refine joined_update ordered inside rfl (ordered i) (fun {w j} => ?_) fun {j} => ?_
  · simp only [State.Step, List.mem_append, List.mem_singleton, Language.mem_one]
    grind
  · simp only [State.Follows, List.mem_append, List.mem_singleton]
    grind

def oneIn (spans : List Span) : Language Char := {w | ∃ c : Char, w = [c] ∧ ∃ s ∈ spans, (c.toNat : Int) ∈ s}

theorem mem_oneIn {spans : List Span} :
    w ∈ oneIn spans ↔ ∃ c : Char, w = [c] ∧ ∃ s ∈ spans, (c.toNat : Int) ∈ s := Iff.rfl

theorem oneIn_nil : oneIn [] = 0 := by
  ext w
  simp [mem_oneIn]

theorem oneIn_cons (s : Span) (spans : List Span) : oneIn [s] + oneIn spans = oneIn (s :: spans) := by
  ext w
  simp only [Language.mem_add, mem_oneIn, List.mem_cons]
  grind

theorem joined_addEdge (ordered : ∀ i, SpanMap.Ordered (m.state i).edges) (inside : i < m.size) {span : Span}
    (nonempty : span.Nonempty) (target : Nat) : Joined m (m.addEdge i span target) {i} (oneIn [span]) target := by
  have ⟨further, added⟩ := (ordered i).add target nonempty
  refine joined_update ordered inside rfl further (fun {w j} => ?_) fun {j} => ?_
  · simp only [State.Step, added, List.mem_append, mem_oneIn]
    grind
  · simp only [State.Follows, added, List.mem_append]
    grind

theorem joined_link (ordered : ∀ i, SpanMap.Ordered (m.state i).edges) {ends : List Nat}
    (inside : ∀ e ∈ ends, e < m.size)
    (target : Nat) : Joined m (m.link ends target) {e | e ∈ ends} 1 target := by
  induction ends generalizing m with
  | nil => exact ⟨rfl, fun _ _ => rfl, fun _ => rfl, ordered, by simp [link], .inl⟩
  | cons e es ih =>
    obtain ⟨here, rest⟩ := List.forall_mem_cons.mp inside
    have first := joined_addEpsilon ordered here target
    have all := first.trans_ends (ih first.ordered fun e listed => (rest e listed).trans_eq first.size.symm)
    have same : ({e} ∪ {e | e ∈ es} : Set Nat) = {d | d ∈ e :: es} := by
      ext d
      simp
    rwa [same] at all

theorem joined_addEdges (ordered : ∀ i, SpanMap.Ordered (m.state i).edges) (inside : i < m.size) {spans : List Span}
    (nonempty : ∀ s ∈ spans, s.Nonempty) (target : Nat) :
    Joined m (m.addEdges i spans target) {i} (oneIn spans) target := by
  induction spans generalizing m with
  | nil => exact ⟨rfl, fun _ _ => rfl, fun _ => rfl, ordered, by simp [addEdges, oneIn_nil], .inl⟩
  | cons s spans ih =>
    obtain ⟨here, rest⟩ := List.forall_mem_cons.mp nonempty
    have first := joined_addEdge ordered inside here target
    have all := first.trans_label (ih first.ordered (inside.trans_eq first.size.symm) rest)
    rwa [oneIn_cons] at all

theorem setOf_mem_singleton (i : Nat) : {e | e ∈ [i]} = ({i} : Set Nat) := by
  ext e
  exact List.mem_singleton

structure Sound (m : Automaton) : Prop where
  ordered : ∀ i, SpanMap.Ordered (m.state i).edges
  inside : ∀ {i j}, (m.state i).Follows j → j < m.size

theorem Sound.addState (sound : m.Sound) : m.addState.2.Sound := by
  refine ⟨fun i => ?_, fun {i j} after => ?_⟩
  · rw [state_addState]
    exact sound.ordered i
  · rw [state_addState] at after
    rw [size_addState]
    exact Nat.lt_succ_of_lt (sound.inside after)

theorem Sound.joined (sound : m.Sound) (joined : Joined m m' ends label target) (inside : target < m.size) :
    m'.Sound := by
  refine ⟨joined.ordered, fun {i j} after => ?_⟩
  rw [joined.size]
  rcases joined.follows after with old | rfl
  · exact sound.inside old
  · exact inside

theorem Sound.lt_of_leads (sound : m.Sound) (start : i < m.size) (leads : m.Leads i w j) : j < m.size :=
  leads.keeps (fun step _ => sound.inside step.follows) start

theorem Sound.between_eq_zero (sound : m.Sound) (start : i < m.size) (new : ∀ j ∈ ends, m.size ≤ j) :
    m.between i ends = 0 :=
  Automaton.between_eq_zero fun _ j member leads => Nat.not_le_of_lt (sound.lt_of_leads start leads) (new j member)

theorem size_acceptAt (ends : List Nat) : (m.acceptAt ends token).size = m.size := by
  induction ends generalizing m with
  | nil => rfl
  | cons e es ih => exact ih.trans (size_update _)

theorem state_acceptAt {ends : List Nat} (inside : ∀ e ∈ ends, e < m.size) : (m.acceptAt ends token).state i =
    { m.state i with accept := if i ∈ ends then some token else (m.state i).accept } := by
  induction ends generalizing m with
  | nil => rfl
  | cons e es ih =>
    obtain ⟨here, rest⟩ := List.forall_mem_cons.mp inside
    have others := ih (m := m.setAccept e token) fun d listed => (rest d listed).trans_eq (size_update _).symm
    rw [acceptAt, List.foldl_cons, ← acceptAt, others, setAccept, state_update _ here]
    by_cases same : i = e <;> simp [same]

theorem step_acceptAt {ends : List Nat} (inside : ∀ e ∈ ends, e < m.size) :
    ((m.acceptAt ends token).state i).Step w j ↔ (m.state i).Step w j := by
  rw [state_acceptAt inside]
  exact Iff.rfl

theorem Sound.acceptAt (sound : m.Sound) {ends : List Nat} (inside : ∀ e ∈ ends, e < m.size) :
    (m.acceptAt ends token).Sound := by
  refine ⟨fun i => ?_, fun {i j} after => ?_⟩
  · rw [state_acceptAt inside]
    exact sound.ordered i
  · rw [state_acceptAt inside] at after
    rw [size_acceptAt]
    exact sound.inside after

theorem between_self (stuck : ∀ {w j}, ¬ (m.state i).Step w j) : m.between i {i} = 1 := by
  refine le_antisymm (fun w ⟨j, _, leads⟩ => ?_) (one_le_between rfl)
  cases leads with
  | here => exact Language.nil_mem_one
  | step first _ => exact absurd first stuck

theorem between_addState : m.addState.2.between m.size {m.size} = 1 := by
  refine between_self fun {w j} step => ?_
  rw [state_addState] at step
  exact Nat.lt_irrefl _ (lt_of_step step)

/-- States have been added behind those that there were, and no step leads back to these. -/
structure Extends (m m' : Automaton) : Prop where
  le : m.size ≤ m'.size
  same : ∀ i < m.size, m'.state i = m.state i
  apart : ∀ {i w j}, (m'.state i).Step w j → m.size ≤ i → m.size ≤ j
  unmarked : ∀ i, m.size ≤ i → (m'.state i).accept = none
  sound : m'.Sound

namespace Extends

theorem addState (sound : m.Sound) : Extends m m.addState.2 where
  le := by simp
  same i _ := state_addState
  apart step _ := by
    rw [state_addState] at step
    have := lt_of_step step
    omega
  unmarked i outside := by rw [state_addState, state_of_le outside]
  sound := sound.addState

theorem trans (first : Extends m m') (second : Extends m' m'') : Extends m m'' where
  le := first.le.trans second.le
  same i inside := by rw [second.same i (inside.trans_le first.le), first.same i inside]
  apart {i w j} step behind := by
    by_cases inside : i < m'.size
    · rw [second.same i inside] at step
      exact first.apart step behind
    · exact first.le.trans (second.apart step (Nat.le_of_not_lt inside))
  unmarked i outside := by
    by_cases inside : i < m'.size
    · rw [second.same i inside]
      exact first.unmarked i outside
    · exact second.unmarked i (Nat.le_of_not_lt inside)
  sound := second.sound

theorem joined (larger : Extends m m') (joined : Joined m' m'' ends label target) (behind : ∀ e ∈ ends, m.size ≤ e)
    (goal : m.size ≤ target ∧ target < m'.size) : Extends m m'' where
  le := larger.le.trans_eq joined.size.symm
  same i inside := by
    rw [joined.elsewhere i fun member => absurd (behind i member) (Nat.not_le_of_lt inside), larger.same i inside]
  apart {i w j} step here := by
    rcases joined.step.mp step with old | ⟨_, _, rfl⟩
    · exact larger.apart old here
    · exact goal.1
  unmarked i outside := (joined.accept i).trans (larger.unmarked i outside)
  sound := larger.sound.joined joined goal.2

theorem leads_iff (larger : Extends m m') (sound : m.Sound) (inside : i < m.size) : m'.Leads i w j ↔ m.Leads i w j := by
  constructor
  · intro leads
    induction leads with
    | here => exact .here
    | step first _ ih =>
      rw [larger.same _ inside] at first
      exact .step first (ih (sound.inside first.follows))
  · refine fun leads => leads.mono fun {k u l} step => ?_
    rwa [larger.same k (lt_of_step step)]

theorem between_eq (larger : Extends m m') (sound : m.Sound) (inside : i < m.size) :
    m'.between i ends = m.between i ends := by
  ext w
  exact exists_congr fun j => and_congr_right fun _ => larger.leads_iff sound inside

theorem le_of_leads (larger : Extends m m') (start : m.size ≤ i) (leads : m'.Leads i w j) : m.size ≤ j :=
  leads.keeps larger.apart start

theorem between_eq_zero (larger : Extends m m') (start : m.size ≤ i) (old : ∀ j ∈ ends, j < m.size) :
    m'.between i ends = 0 :=
  Automaton.between_eq_zero fun _ j member leads => Nat.not_le_of_lt (old j member) (larger.le_of_leads start leads)

end Extends

end Automaton

namespace Pattern

open Automaton Computability

variable {m m₁ m₂ m₃ : Automaton} {f inner : Fragment} {k l label : Language Char} {s t : Nat} {ends others : List Nat}

/-- What has been added to an automaton is a fragment that reads the texts of a language. -/
structure Adds (m m' : Automaton) (f : Fragment) (l : Language Char) : Prop extends Extends m m' where
  start : m.size ≤ f.start ∧ f.start < m'.size
  ends : ∀ e ∈ f.ends, m.size ≤ e ∧ e < m'.size
  language : m'.between f.start {e | e ∈ f.ends} = l

namespace Adds

theorem congr (adds : Adds m m₁ f k) (same : k = l) : Adds m m₁ f l := same ▸ adds

theorem ends_congr (adds : Adds m m₁ ⟨s, ends⟩ k) (same : ∀ e, e ∈ others ↔ e ∈ ends) : Adds m m₁ ⟨s, others⟩ k :=
  have sets : {e | e ∈ others} = {e | e ∈ ends} := Set.ext same
  { adds with
    ends := fun e listed => adds.ends e ((same e).mp listed)
    language := sets ▸ adds.language }

theorem point (sound : m.Sound) : Adds m m.addState.2 ⟨m.size, [m.size]⟩ 1 where
  toExtends := .addState sound
  start := by simp
  ends := by simp
  language := by
    rw [setOf_mem_singleton]
    exact between_addState

theorem ends_nil (adds : Adds m m₁ f k) : Adds m m₁ ⟨f.start, []⟩ 0 where
  toExtends := adds.toExtends
  start := adds.start
  ends := nofun
  language := Automaton.between_eq_zero fun _ _ listed => absurd listed List.not_mem_nil

section

variable (first : Adds m m₁ ⟨s, ends⟩ k)
include first

theorem between_second (second : Adds m₁ m₂ ⟨t, others⟩ l) : m₂.between s {e | e ∈ ends} = k ∧
    m₂.between s {e | e ∈ others} = 0 ∧ m₂.between t {e | e ∈ ends} = 0 := by
  refine ⟨?_, ?_, second.between_eq_zero second.start.1 fun e listed => (first.ends e listed).2⟩
  · exact (second.between_eq first.sound first.start.2).trans first.language
  · rw [second.between_eq first.sound first.start.2]
    exact first.sound.between_eq_zero first.start.2 fun e listed => (second.ends e listed).1

theorem seq (second : Adds m₁ m₂ ⟨t, others⟩ l) (joined : Joined m₂ m₃ {e | e ∈ ends} label t) :
    Adds m m₃ ⟨s, others⟩ (k * label * l) where
  toExtends := (first.toExtends.trans second.toExtends).joined joined (fun e listed => (first.ends e listed).1)
    (second.start.imp_left first.le.trans)
  start := by
    rw [joined.size]
    exact first.start.imp_right fun inside => inside.trans_le second.le
  ends e listed := by
    rw [joined.size]
    exact (second.ends e listed).imp_left first.le.trans
  language := by
    obtain ⟨before, straight, back⟩ := first.between_second second
    rw [joined.between_of_apart back, straight, before, second.language, zero_add]

theorem again (joined : Joined m₁ m₂ {e | e ∈ ends} 1 s) : Adds m m₂ ⟨s, ends⟩ (k * k∗) where
  toExtends := first.toExtends.joined joined (fun e listed => (first.ends e listed).1) first.start
  start := joined.size ▸ first.start
  ends := joined.size ▸ first.ends
  language := by
    have unfolded : k∗ = 1 + k∗ * k := one_add_kstar_mul.symm
    rw [joined.between_eq, first.language, one_mul, mul_one]
    conv_rhs => rw [unfolded, mul_add, mul_one]

section

variable (once : m₁.between s {s} = 1)
include once

theorem loop (joined : Joined m₁ m₂ {e | e ∈ ends} 1 s) : Adds m m₂ ⟨s, [s]⟩ k∗ where
  toExtends := first.toExtends.joined joined (fun e listed => (first.ends e listed).1) first.start
  start := joined.size ▸ first.start
  ends := by simpa [joined.size] using first.start
  language := by
    rw [setOf_mem_singleton, joined.between_eq, first.language, once, one_mul, mul_one, mul_one, one_add_mul_kstar]

theorem fork_between (second : Extends m₁ m₂) (behind : m₁.size ≤ t) (joined : Joined m₂ m₃ {s} 1 t) (goals : Set Nat) :
    m₃.between s goals = m₂.between s goals + m₂.between t goals := by
  have still : m₂.between s {s} = 1 := (second.between_eq first.sound first.start.2).trans once
  exact joined.between_beside still (second.between_eq_zero behind (by simpa using first.start.2))

theorem fork_once (second : Extends m₁ m₂) (behind : m₁.size ≤ t) (joined : Joined m₂ m₃ {s} 1 t) :
    m₃.between s {s} = 1 := by
  have back : m₂.between t {s} = 0 := second.between_eq_zero behind (by simpa using first.start.2)
  rw [first.fork_between once second behind joined, back, second.between_eq first.sound first.start.2, once, add_zero]

theorem fork (second : Adds m₁ m₂ ⟨t, others⟩ l) (joined : Joined m₂ m₃ {s} 1 t) :
    Adds m m₃ ⟨s, ends ++ others⟩ (k + l) where
  toExtends := (first.toExtends.trans second.toExtends).joined joined (by simpa using first.start.1)
    (second.start.imp_left first.le.trans)
  start := by
    rw [joined.size]
    exact first.start.imp_right fun inside => inside.trans_le second.le
  ends e listed := by
    rw [joined.size]
    rcases List.mem_append.mp listed with old | new
    · exact (first.ends e old).imp_right fun inside => inside.trans_le second.le
    · exact (second.ends e new).imp_left first.le.trans
  language := by
    have both : {e | e ∈ ends ++ others} = {e | e ∈ ends} ∪ {e | e ∈ others} := by
      ext e
      simp
    obtain ⟨before, straight, back⟩ := first.between_second second
    rw [first.fork_between once second.toExtends second.start.1 joined, both, between_union, between_union,
      before, straight,
      back, second.language, add_zero, zero_add]

end

end

theorem mem_single {c d : Char} : (c.toNat : Int) ∈ Span.single d.toNat ↔ c = d := by
  rw [Span.mem_def]
  simp only [Span.single]
  constructor
  · intro ⟨least, most⟩
    have same : c.toNat = d.toNat := by omega
    exact Char.toNat_inj.mp same
  · intro same
    subst same
    omega

theorem oneIn_single_mul (c : Char) (cs : List Char) : oneIn [.single c.toNat] * {cs} = {c :: cs} := by
  ext w
  rw [Language.mem_mul]
  constructor
  · intro ⟨_, ⟨d, rfl, span, listed, member⟩, _, rfl, whole⟩
    rw [List.mem_singleton.mp listed, mem_single] at member
    rw [← whole, member]
    rfl
  · intro whole
    exact ⟨[c], ⟨c, rfl, _, List.mem_cons_self, mem_single.mpr rfl⟩, cs, rfl, whole.symm⟩

theorem chain {last : Nat} (first : Adds m m₁ ⟨s, [last]⟩ k) (cs : List Char) :
    Adds m (m₁.addChain last cs).2 ⟨s, [(m₁.addChain last cs).1]⟩ (k * {cs}) := by
  -- Each character is a fragment of its own behind what there is, joined to the last state.
  induction cs generalizing m₁ last k with
  | nil => exact first.congr (mul_one k).symm
  | cons c cs ih =>
    have inside : last < m₁.addState.2.size := (first.ends last List.mem_cons_self).2.trans_le (by simp)
    have nonempty : (Span.single c.toNat).Nonempty := Int.lt_succ _
    have joined := joined_addEdge (point first.sound).sound.ordered inside nonempty m₁.size
    have next := first.seq (point first.sound) (by rwa [setOf_mem_singleton])
    exact (ih next).congr (by rw [mul_one, mul_assoc, oneIn_single_mul])

end Adds

end Pattern

end Packrat
