import Packrat.Proofs.Lexer.Building
import Packrat.Proofs.Lexer.Fragments

namespace Packrat.Pattern

open Automaton Computability

/-- The texts that a pattern matches. Lookahead matches none, as it has no place in patterns. -/
inductive Matches (scope : Scope) : Expr → List Char → Prop where
  | literal {t} : Matches scope (.literal t) t.toList
  | oneOf {set : CharClass} {c : Char} (member : (c.toNat : Int) ∈ set) : Matches scope (.oneOf set) [c]
  | reference {name t w} (found : scope.token? name = some t) (inside : Matches scope t.pattern w) :
    Matches scope (.reference name) w
  | sequence {items parts} (each : List.Forall₂ (Matches scope) items parts) :
    Matches scope (.sequence items) parts.flatten
  | choice {alternatives e w} (listed : e ∈ alternatives) (inside : Matches scope e w) :
    Matches scope (.choice alternatives) w
  | absent {item} : Matches scope (.optional item) []
  | present {item w} (inside : Matches scope item w) : Matches scope (.optional item) w
  | repetition {atLeastOnce item parts} (each : ∀ part ∈ parts, Matches scope item part)
    (enough : atLeastOnce = true → parts ≠ []) : Matches scope (.repetition atLeastOnce item) parts.flatten
  | bind {name item w} (inside : Matches scope item w) : Matches scope (.bind name item) w

namespace Scope

variable {scope : Scope} {e : Expr} {es : List Expr} {w : List Char}

def language (scope : Scope) (e : Expr) : Language Char := {w | Matches scope e w}

theorem mem_language : w ∈ scope.language e ↔ Matches scope e w := Iff.rfl

theorem language_literal {t : String} : scope.language (.literal t) = {t.toList} := by
  ext w
  constructor
  · intro matched
    cases matched
    rfl
  · intro same
    rw [Set.mem_singleton_iff.mp same]
    exact .literal

theorem language_oneOf {set : CharClass} : scope.language (.oneOf set) = oneIn set.spans := by
  ext w
  constructor
  · intro matched
    cases matched with
    | @oneOf _ c member => exact ⟨c, rfl, member⟩
  · intro ⟨c, single, member⟩
    rw [single]
    exact .oneOf member

theorem language_reference {name : String} {t : TokenRule} (found : scope.token? name = some t) :
    scope.language (.reference name) = scope.language t.pattern := by
  ext w
  constructor
  · intro matched
    cases matched with
    | reference found' inside =>
      cases found.symm.trans found'
      exact inside
  · exact .reference found

theorem mem_prod_language :
    w ∈ (es.map scope.language).prod ↔ ∃ parts, List.Forall₂ (Matches scope) es parts ∧ parts.flatten = w := by
  induction es generalizing w with
  | nil => simp [Language.mem_one, eq_comm]
  | cons e es ih =>
    rw [List.map_cons, List.prod_cons, Language.mem_mul]
    simp only [ih]
    constructor
    · intro ⟨u, inside, v, ⟨parts, each, rest⟩, whole⟩
      exact ⟨u :: parts, .cons inside each, by rw [List.flatten_cons, rest, whole]⟩
    · intro ⟨parts, each, whole⟩
      cases each with
      | @cons _ u _ parts inside each => exact ⟨u, inside, parts.flatten, ⟨parts, each, rfl⟩, whole⟩

theorem language_sequence : scope.language (.sequence es) = (es.map scope.language).prod := by
  ext w
  rw [mem_prod_language]
  constructor
  · intro matched
    cases matched with
    | sequence each => exact ⟨_, each, rfl⟩
  · intro ⟨parts, each, whole⟩
    rw [← whole]
    exact .sequence each

theorem mem_sum_language : w ∈ (es.map scope.language).sum ↔ ∃ e ∈ es, Matches scope e w := by
  induction es with
  | nil => simp
  | cons e es ih =>
    rw [List.map_cons, List.sum_cons, Language.mem_add, ih, List.exists_mem_cons_iff]
    rfl

theorem language_choice : scope.language (.choice es) = (es.map scope.language).sum := by
  ext w
  rw [mem_sum_language]
  constructor
  · intro matched
    cases matched with
    | choice listed inside => exact ⟨_, listed, inside⟩
  · intro ⟨e, listed, inside⟩
    exact .choice listed inside

theorem language_optional : scope.language (.optional e) = 1 + scope.language e := by
  ext w
  rw [Language.mem_add, Language.mem_one]
  constructor
  · intro matched
    cases matched with
    | absent => exact .inl rfl
    | present inside => exact .inr inside
  · intro here
    rcases here with rfl | inside
    · exact .absent
    · exact .present inside

theorem language_any : scope.language (.repetition false e) = (scope.language e)∗ := by
  ext w
  rw [Language.mem_kstar]
  constructor
  · intro matched
    cases matched with
    | repetition each _ => exact ⟨_, rfl, each⟩
  · intro ⟨parts, whole, each⟩
    rw [whole]
    exact .repetition each nofun

theorem language_some : scope.language (.repetition true e) = scope.language e * (scope.language e)∗ := by
  ext w
  rw [Language.mem_mul]
  constructor
  · intro matched
    cases matched with
    | @repetition _ _ parts each enough =>
      cases parts with
      | nil => exact absurd rfl (enough rfl)
      | cons u parts =>
        obtain ⟨first, others⟩ := List.forall_mem_cons.mp each
        exact ⟨u, first, parts.flatten, Language.mem_kstar.mpr ⟨parts, rfl, others⟩, rfl⟩
  · intro ⟨u, first, v, more, whole⟩
    obtain ⟨parts, rfl, others⟩ := Language.mem_kstar.mp more
    rw [← whole]
    exact .repetition (List.forall_mem_cons.mpr ⟨first, others⟩) fun _ => List.cons_ne_nil _ _

theorem language_bind {name : String} : scope.language (.bind name e) = scope.language e := by
  ext w
  constructor
  · intro matched
    cases matched with
    | bind inside => exact inside
  · exact .bind

end Scope

def Reads (work : Building Fragment) (l : Language Char) : Prop :=
  ∀ m : Automaton, m.Sound → ∀ f m', work.run m = .ok (f, m') → Adds m m' f l

variable {scope : Scope} {resolve : String → Building Fragment} {blamed : Option String}

theorem reads_lookahead {e : Expr} {l : Language Char} : Reads (lookahead blamed e) l := by
  intro m sound f m' run
  obtain ⟨text, m₁, _, fails⟩ := ok_of_run_bind run
  cases fails

mutual
theorem reads_fragment (resolves : ∀ name, Reads (resolve name) (scope.language (.reference name))) : ∀ e : Expr,
    Reads (fragment resolve blamed e) (scope.language e)
  | .literal t => fun m sound f m' run => by
    cases run
    have whole := (Adds.point sound).chain t.toList
    rw [one_mul] at whole
    rw [Scope.language_literal]
    exact whole
  | .oneOf set => fun m sound f m' run => by
    cases run
    have start := Adds.point sound
    have stop := Adds.point start.sound
    have inside : m.size < m.addState.2.addState.2.size := by
      rw [size_addState, size_addState]
      omega
    have joined := joined_addEdges stop.sound.ordered inside set.separated.nonempty m.addState.2.size
    rw [← setOf_mem_singleton] at joined
    have whole := start.seq stop joined
    rw [one_mul, mul_one] at whole
    rw [Scope.language_oneOf]
    exact whole
  | .reference name => resolves name
  | .sequence items => fun m sound f m' run => by
    obtain ⟨_, _, new, more⟩ := ok_of_run_bind run
    obtain ⟨ends, _, rest, done⟩ := ok_of_run_bind more
    cases new
    cases done
    have whole := adds_sequenceFrom resolves items (Adds.point sound) rest
    rwa [one_mul, ← Scope.language_sequence] at whole
  | .choice alternatives => fun m sound f m' run => by
    obtain ⟨_, _, new, more⟩ := ok_of_run_bind run
    obtain ⟨ends, _, rest, done⟩ := ok_of_run_bind more
    cases new
    cases done
    have whole := adds_choiceFrom resolves alternatives (Adds.point sound).ends_nil between_addState rest
    rwa [zero_add, ← Scope.language_choice] at whole
  | .optional item => fun m sound f m' run => by
    obtain ⟨_, _, new, more⟩ := ok_of_run_bind run
    obtain ⟨inner, m₁, made, done⟩ := ok_of_run_bind more
    cases new
    cases done
    have start := Adds.point sound
    have within := reads_fragment resolves item _ start.sound _ _ made
    have joined := joined_addEpsilon within.sound.ordered (start.start.2.trans_le within.le) inner.start
    have whole := start.fork between_addState within joined
    rw [← Scope.language_optional] at whole
    exact whole.ends_congr fun e => by simp [or_comm]
  | .repetition true item => fun m sound f m' run => by
    obtain ⟨inner, m₁, made, done⟩ := ok_of_run_bind run
    cases done
    have within := reads_fragment resolves item _ sound _ _ made
    have stop := Adds.point within.sound
    have there := joined_link stop.sound.ordered (fun e listed => (within.ends e listed).2.trans_le stop.le) m₁.size
    have once := within.seq stop there
    have back := joined_link once.sound.ordered (fun e listed => (once.ends e listed).2) inner.start
    have whole := once.again back
    rwa [mul_one, mul_one, ← Scope.language_some] at whole
  | .repetition false item => fun m sound f m' run => by
    obtain ⟨_, _, new, more⟩ := ok_of_run_bind run
    obtain ⟨inner, m₁, made, done⟩ := ok_of_run_bind more
    cases new
    cases done
    have start := (Adds.point sound).ends_nil
    have within := reads_fragment resolves item _ start.sound _ _ made
    have there := joined_addEpsilon within.sound.ordered (start.start.2.trans_le within.le) inner.start
    have once := start.fork between_addState within there
    have back := joined_link once.sound.ordered (fun e listed => (once.ends e listed).2) m.size
    have whole := once.loop (start.fork_once between_addState within.toExtends within.start.1 there) back
    rwa [zero_add, ← Scope.language_any] at whole
  | .bind name item => by
    rw [Scope.language_bind]
    exact reads_fragment resolves item
  | .ahead item | .notAhead item => reads_lookahead
  | .unknown shown => nofun

theorem adds_sequenceFrom (resolves : ∀ name, Reads (resolve name) (scope.language (.reference name))) :
    ∀ (es : List Expr) {m m₁ m' : Automaton} {s : Nat} {ends ends' : List Nat} {k : Language Char},
      Adds m m₁ ⟨s, ends⟩ k → (sequenceFrom resolve blamed ends es).run m₁ = .ok (ends', m') →
      Adds m m' ⟨s, ends'⟩ (k * (es.map scope.language).prod)
  | [], _, _, _, _, _, _, k, first, run => by
    cases run
    exact first.congr (mul_one k).symm
  | e :: es, _, _, _, _, _, _, k, first, run => by
    obtain ⟨item, m₂, made, rest⟩ := ok_of_run_bind run
    have second := reads_fragment resolves e _ first.sound _ _ made
    have joined := joined_link second.sound.ordered
      (fun e listed => (first.ends e listed).2.trans_le second.le) item.start
    have whole := adds_sequenceFrom resolves es (first.seq second joined) rest
    rwa [mul_one, mul_assoc, ← List.prod_cons, ← List.map_cons] at whole

theorem adds_choiceFrom (resolves : ∀ name, Reads (resolve name) (scope.language (.reference name))) :
    ∀ (es : List Expr) {m m₁ m' : Automaton} {s : Nat} {ends ends' : List Nat} {k : Language Char},
      Adds m m₁ ⟨s, ends⟩ k → m₁.between s {s} = 1 → (choiceFrom resolve blamed s ends es).run m₁ = .ok (ends', m') →
      Adds m m' ⟨s, ends'⟩ (k + (es.map scope.language).sum)
  | [], _, _, _, _, _, _, k, first, _, run => by
    cases run
    exact first.congr (add_zero k).symm
  | e :: es, _, _, _, s, _, _, k, first, once, run => by
    obtain ⟨item, m₂, made, rest⟩ := ok_of_run_bind run
    have second := reads_fragment resolves e _ first.sound _ _ made
    have joined := joined_addEpsilon second.sound.ordered (first.start.2.trans_le second.le) item.start
    have still := first.fork_once once second.toExtends second.start.1 joined
    have whole := adds_choiceFrom resolves es (first.fork once second joined) still rest
    rwa [add_assoc, ← List.sum_cons, ← List.map_cons] at whole
end

namespace Scope

theorem reads_expand (depth : Nat) (active : List String) (name : String) :
    Reads (scope.expand depth active name) (scope.language (.reference name)) := by
  induction depth generalizing active name with
  | zero => nofun
  | succ depth ih =>
    unfold expand
    cases found : scope.token? name with
    | none =>
      dsimp only
      split <;> nofun
    | some t =>
      dsimp only
      split
      · nofun
      · rw [language_reference found]
        exact reads_fragment (ih _) t.pattern

theorem reads_fragmentOf (t : TokenRule) : Reads (scope.fragmentOf t) (scope.language t.pattern) :=
  reads_fragment (reads_expand _ _) t.pattern

end Scope

end Packrat.Pattern
