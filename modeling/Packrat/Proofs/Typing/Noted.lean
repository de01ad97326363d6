import Packrat.Proofs.Grammar.WellMade
import Packrat.Proofs.Parse.Conduct
import Packrat.Proofs.Typing.Checked

namespace Packrat

open Relation

namespace Expr

mutual
theorem same_refl : ∀ e : Expr, same e e = true
  | .literal _ | .oneOf _ | .reference _ | .unknown _ => by simp [same, CharClass.same]
  | .sequence items => sameAll_refl items
  | .choice alternatives => sameAll_refl alternatives
  | .optional item | .ahead item | .notAhead item => same_refl item
  | .repetition _ item | .bind _ item => by simp [same, same_refl item]

theorem sameAll_refl : ∀ es : List Expr, sameAll es es = true
  | [] => rfl
  | e :: es => by simp [sameAll, same_refl e, sameAll_refl es]
end

mutual
theorem same_trans : ∀ {a b c : Expr}, same a b = true → same b c = true → same a c = true
  | .literal _, b, c, first, second | .oneOf _, b, c, first, second | .reference _, b, c, first, second
  | .unknown _, b, c, first, second => by
    cases b <;> cases first' : c <;> simp_all [same, CharClass.same]
  | .sequence as, b, c, first, second => by
    cases b <;> cases c <;> simp only [same, reduceCtorEq] at first second ⊢
    exact sameAll_trans first second
  | .choice as, b, c, first, second => by
    cases b <;> cases c <;> simp only [same, reduceCtorEq] at first second ⊢
    exact sameAll_trans first second
  | .optional a, b, c, first, second | .ahead a, b, c, first, second | .notAhead a, b, c, first, second => by
    cases b <;> cases c <;> simp only [same, reduceCtorEq] at first second ⊢
    exact same_trans first second
  | .repetition _ a, b, c, first, second | .bind _ a, b, c, first, second => by
    cases b <;> cases c <;> simp only [same, reduceCtorEq, Bool.and_eq_true, beq_iff_eq] at first second ⊢
    exact ⟨first.1.trans second.1, same_trans first.2 second.2⟩

theorem sameAll_trans : ∀ {as bs cs : List Expr}, sameAll as bs = true → sameAll bs cs = true → sameAll as cs = true
  | [], bs, cs, first, second => by
    cases bs <;> cases cs <;> simp_all [sameAll]
  | a :: as, bs, cs, first, second => by
    cases bs <;> cases cs <;> simp only [sameAll, reduceCtorEq, Bool.and_eq_true] at first second ⊢
    exact ⟨same_trans first.1 second.1, sameAll_trans first.2 second.2⟩
end

def parts : Expr → List Expr
  | .literal _ | .oneOf _ | .reference _ | .unknown _ => []
  | .sequence items | .choice items => items
  | .optional item | .repetition _ item | .bind _ item | .ahead item | .notAhead item => [item]

def Contains : Expr → Expr → Prop := ReflTransGen fun whole part => part ∈ whole.parts

theorem forall₂_of_sameAll {as bs : List Expr} (alike : sameAll as bs = true) :
    List.Forall₂ (fun a b => same a b = true) as bs := by
  induction as generalizing bs with
  | nil => cases bs with
    | nil => exact .nil
    | cons => cases alike
  | cons a as ih => cases bs with
    | nil => cases alike
    | cons b bs =>
      obtain ⟨first, rest⟩ := Bool.and_eq_true_iff.mp alike
      exact .cons first (ih rest)

theorem parts_of_same {a b : Expr} (alike : same a b = true) :
    List.Forall₂ (fun a b => same a b = true) a.parts b.parts := by
  cases a <;> cases b <;> simp only [same, reduceCtorEq, Bool.and_eq_true] at alike
  case sequence | choice => exact forall₂_of_sameAll alike
  case optional | ahead | notAhead => exact .cons alike .nil
  case repetition | bind => exact .cons alike.2 .nil
  all_goals exact .nil

mutual
theorem contains_of_mem_references : ∀ {e : Expr} {name : String}, name ∈ e.references → e.Contains (.reference name)
  | .reference _, _, mentioned => by
    cases List.mem_singleton.mp mentioned
    exact .refl
  | .sequence items, _, mentioned | .choice items, _, mentioned => by
    obtain ⟨item, listed, inside⟩ := contains_of_mem_allReferences items mentioned
    exact .head listed inside
  | .optional item, _, mentioned | .repetition _ item, _, mentioned | .bind _ item, _, mentioned
  | .ahead item, _, mentioned | .notAhead item, _, mentioned =>
    .head List.mem_cons_self (contains_of_mem_references (e := item) mentioned)

theorem contains_of_mem_allReferences : ∀ (es : List Expr) {name : String}, name ∈ allReferences es →
    ∃ e ∈ es, e.Contains (.reference name)
  | e :: es, _, mentioned => by
    rcases List.mem_append.mp mentioned with here | later
    · exact ⟨e, List.mem_cons_self, contains_of_mem_references here⟩
    · obtain ⟨f, listed, inside⟩ := contains_of_mem_allReferences es later
      exact ⟨f, List.mem_cons_of_mem _ listed, inside⟩
end

end Expr

def Grammar.Knows (g : Grammar) (name : String) : Prop := g.rule? name ≠ none ∨ g.token? name ≠ none

namespace Typing

namespace Progress

def Noted (s : Progress) (e : Expr) : Prop := ∃ x ∈ s.types, x.1.same e = true

/-- With an expression its parts are on record, and nothing that is on record refers to what is not there. -/
structure Closed (g : Grammar) (s : Progress) : Prop where
  parts : ∀ x ∈ s.types, ∀ part ∈ x.1.parts, s.Noted part
  references : ∀ x ∈ s.types, ∀ name, x.1 = .reference name → g.Knows name
  typed : ∀ x ∈ s.typedRules, ∀ q ∈ x.2.productions, ∀ e ∈ q.items, s.Noted e

variable {g : Grammar} {s s' : Progress} {e : Expr}

theorem Noted.mono (noted : s.Noted e) (more : s.types ⊆ s'.types) : s'.Noted e := by
  obtain ⟨x, listed, alike⟩ := noted
  exact ⟨x, more listed, alike⟩

theorem Noted.contains (closed : s.Closed g) (noted : s.Noted e) {part : Expr} (inside : e.Contains part) :
    s.Noted part := by
  induction inside with
  | refl => exact noted
  | tail _ direct ih =>
    obtain ⟨x, listed, alike⟩ := ih
    obtain ⟨other, here, like⟩ := exists_of_forall₂ (Expr.parts_of_same alike).flip direct
    obtain ⟨y, there, like'⟩ := closed.parts x listed other here
    exact ⟨y, there, Expr.same_trans like' like⟩

theorem Noted.knows {name : String} (closed : s.Closed g) (noted : s.Noted (.reference name)) : g.Knows name := by
  obtain ⟨x, listed, alike⟩ := noted
  refine closed.references x listed name ?_
  cases found : x.1 <;> simp_all [Expr.same]

theorem Closed.note (closed : s.Closed g) (parts : ∀ part ∈ e.parts, s.Noted part)
    (known : ∀ name, e = .reference name → g.Knows name) (t : ValueType) :
    Closed g { s with types := (e, t) :: s.types } := by
  have more : s.types ⊆ (e, t) :: s.types := List.subset_cons_self _ _
  refine ⟨fun x listed part direct => ?_, fun x listed name here => ?_, fun x listed q member f item => ?_⟩
  · rcases List.mem_cons.mp listed with rfl | listed
    · exact (parts part direct).mono more
    · exact (closed.parts x listed part direct).mono more
  · rcases List.mem_cons.mp listed with rfl | listed
    · exact known name here
    · exact closed.references x listed name here
  · exact (closed.typed x listed q member f item).mono more

theorem Closed.empty (assumed : List String) (assumptions : List (String × ValueType)) :
    Closed g { assumed, assumptions } where
  parts _ listed := by cases listed
  references _ listed := by cases listed
  typed _ listed := by cases listed

end Progress

namespace Infer

variable {α β : Type} {g : Grammar} {Q : Progress → α → Prop} {P : Progress → β → Prop} {s s' : Progress}
  {e : Refusal}

theorem error_of_bind {work : Infer α} {next : α → Infer β} (run : (work >>= next).run.run s = (.error e, s')) :
    work.run.run s = (.error e, s') ∨
      ∃ a s₁, work.run.run s = (.ok a, s₁) ∧ (next a).run.run s₁ = (.error e, s') := by
  cases done : work.run.run s with
  | mk result s₁ =>
    rw [run_bind_eq, done] at run
    cases result with
    | error e' =>
      cases run
      exact .inl rfl
    | ok a => exact .inr ⟨a, s₁, rfl, run⟩

theorem error_of_lift {result : Except Refusal α} (run : (liftM result : Infer α).run.run s = (.error e, s')) :
    result = .error e := by
  cases result with
  | error e' =>
    cases run
    rfl
  | ok a => cases run

/-- Work that keeps what is on record, and comes to what `Q` says or refuses the grammar. -/
structure Notes (g : Grammar) (Q : Progress → α → Prop) (work : Infer α) : Prop where
  comes : ∀ {s a s'}, s.Closed g → work.run.run s = (.ok a, s') → s.types ⊆ s'.types ∧ s'.Closed g ∧ Q s' a
  refuses : ∀ {s e s'}, s.Closed g → work.run.run s = (.error e, s') → e.OfGrammar

def Persists (Q : Progress → α → Prop) : Prop := ∀ s s' a, s.types ⊆ s'.types → Q s a → Q s' a

namespace Notes

theorem pure {a : α} (holds : ∀ s, Q s a) : Notes g Q (Pure.pure a) := by
  refine ⟨fun closed run => ?_, fun closed run => ?_⟩
  · cases run
    exact ⟨List.Subset.refl _, closed, holds _⟩
  · cases run

theorem lift {result : Except Refusal α} (yields : Yields Refusal.OfGrammar (fun a => ∀ s, Q s a) result) :
    Notes g Q (liftM result) := by
  refine ⟨fun closed run => ?_, fun closed run => ?_⟩
  · obtain ⟨rfl, rfl⟩ := of_lift run
    exact ⟨List.Subset.refl _, closed, yields _⟩
  · obtain rfl := error_of_lift run
    exact yields

theorem weaken {Q' : Progress → α → Prop} {work : Infer α} (notes : Notes g Q work)
    (weaker : ∀ s a, Q s a → Q' s a) : Notes g Q' work := by
  refine ⟨fun closed run => ?_, notes.refuses⟩
  obtain ⟨more, closed, holds⟩ := notes.comes closed run
  exact ⟨more, closed, weaker _ _ holds⟩

theorem bind {work : Infer α} {next : α → Infer β} (persists : Persists Q) (first : Notes g Q work)
    (second : ∀ s a, Q s a → Notes g (fun s b => Q s a → P s b) (next a)) : Notes g P (work >>= next) := by
  refine ⟨fun closed run => ?_, fun closed run => ?_⟩
  · obtain ⟨a, s₁, run, run'⟩ := of_bind run
    obtain ⟨more, closed₁, holds⟩ := first.comes closed run
    obtain ⟨more', closed', here⟩ := (second s₁ a holds).comes closed₁ run'
    exact ⟨List.Subset.trans more more', closed', here (persists _ _ _ more' holds)⟩
  · rcases error_of_bind run with run | ⟨a, s₁, run, run'⟩
    · exact first.refuses closed run
    · obtain ⟨_, closed₁, holds⟩ := first.comes closed run
      exact (second s₁ a holds).refuses closed₁ run'

theorem mapM {R : Progress → β → Prop} {work : α → Infer β} {xs : List α} (persists : Persists R)
    (each : ∀ x ∈ xs, Notes g R (work x)) : Notes g (fun s ys => ∀ y ∈ ys, R s y) (xs.mapM work) := by
  induction xs with
  | nil => exact pure fun _ _ listed => by cases listed
  | cons x xs ih =>
    rw [List.mapM_cons]
    refine bind persists (each x List.mem_cons_self) fun _ y _ => ?_
    have all : Persists fun s (ys : List β) => ∀ y ∈ ys, R s y :=
      fun _ _ _ more here z listed => persists _ _ _ more (here z listed)
    refine bind all (ih fun z listed => each z (List.mem_cons_of_mem _ listed)) fun _ ys _ => ?_
    exact pure fun s rest here => List.forall_mem_cons.mpr ⟨here, rest⟩

theorem remember {whole : Expr} {work : Infer ValueType} {Q : Progress → ValueType → Prop} (notes : Notes g Q work)
    (parts : ∀ s t, Q s t → ∀ part ∈ whole.parts, s.Noted part)
    (known : ∀ s t, Q s t → ∀ name, whole = .reference name → g.Knows name) :
    Notes g (fun s _ => s.Noted whole) (Typing.remember whole work) := by
  refine ⟨fun closed run => ?_, fun closed run => ?_⟩
  · rcases remember_cases run with ⟨⟨other, listed, alike⟩, rfl⟩ | ⟨s₁, first, rfl⟩
    · exact ⟨List.Subset.refl _, closed, _, listed, alike⟩
    · obtain ⟨more, closed₁, holds⟩ := notes.comes closed first
      refine ⟨List.subset_cons_of_subset _ more, closed₁.note (parts _ _ holds) (known _ _ holds) _, ?_⟩
      exact ⟨(whole, _), List.mem_cons_self, Expr.same_refl whole⟩
  · unfold Typing.remember at run
    rcases error_of_bind run with got | ⟨_, _, got, run⟩
    · cases got
    · cases got
      split at run
      · cases run
      · rcases error_of_bind run with run | ⟨_, _, _, run⟩
        · exact notes.refuses closed run
        · cases run

end Notes

end Infer

end Typing

end Packrat
