import Packrat.Lexer.Pattern
import Packrat.Proofs.Expr
import Packrat.Proofs.Reporting

namespace Packrat

namespace Pattern

theorem ok_of_run_bind {α β : Type} {work : Building α} {next : α → Building β} {m m' : Automaton} {b : β}
    (run : (work >>= next).run m = .ok (b, m')) : ∃ a m₁, work.run m = .ok (a, m₁) ∧ (next a).run m₁ = .ok (b, m') := by
  rw [StateT.run_bind] at run
  obtain ⟨⟨a, m₁⟩, first, rest⟩ := ok_of_bind run
  exact ⟨a, m₁, first, rest⟩

theorem error_of_run_bind {α β : Type} {work : Building α} {next : α → Building β} {m : Automaton} {e : Refusal}
    (run : (work >>= next).run m = .error e) :
    work.run m = .error e ∨ ∃ a m₁, work.run m = .ok (a, m₁) ∧ (next a).run m₁ = .error e := by
  rw [StateT.run_bind] at run
  exact (error_of_bind run).imp_right fun ⟨(a, m₁), first, rest⟩ => ⟨a, m₁, first, rest⟩

section

variable {resolve other : String → Building Fragment} {blamed : Option String}

def ComesOf (resolve : String → Building Fragment) (blamed : Option String) (lookaheads : List Expr)
    (references : List String) (e : Refusal) : Prop :=
  (∃ l ∈ lookaheads, ∃ m, (lookahead blamed l).run m = .error e) ∨
    ∃ name ∈ references, ∃ m, (resolve name).run m = .error e

/-- Work on an expression that succeeds where there is no lookahead and all references are resolved, and otherwise
fails for one of these. -/
def Explained {α : Type} (resolve : String → Building Fragment) (blamed : Option String) (lookaheads : List Expr)
    (references : List String) (work : Building α) : Prop :=
  ∀ m, Yields (ComesOf resolve blamed lookaheads references)
    (fun _ => lookaheads = [] ∧ ∀ name ∈ references, ∃ m made, (resolve name).run m = .ok made) (work.run m)

theorem ComesOf.mono {ls ls' : List Expr} {names names' : List String} {e : Refusal}
    (comes : ComesOf resolve blamed ls names e) (more : ls ⊆ ls') (further : names ⊆ names') :
    ComesOf resolve blamed ls' names' e :=
  comes.imp (fun ⟨l, listed, fails⟩ => ⟨l, more listed, fails⟩) fun ⟨name, listed, fails⟩ =>
    ⟨name, further listed, fails⟩

namespace Explained

variable {α β : Type} {ls ls' : List Expr} {names names' : List String} {work : Building α}

theorem bind {next : α → Building β} (first : Explained resolve blamed ls names work)
    (second : ∀ a, Explained resolve blamed ls' names' (next a)) :
    Explained resolve blamed (ls ++ ls') (names ++ names') (work >>= next) := by
  intro m
  rw [StateT.run_bind]
  have here := first m
  generalize work.run m = result at here
  cases result with
  | error e => exact here.mono (List.subset_append_left ls ls') (List.subset_append_left names names')
  | ok made =>
    obtain ⟨none, resolved⟩ := here
    have rest := second made.1 made.2
    show Yields _ _ ((next made.1).run made.2)
    generalize (next made.1).run made.2 = result at rest
    cases result with
    | error e => exact rest.mono (List.subset_append_right ls ls') (List.subset_append_right names names')
    | ok _ =>
      obtain ⟨none', resolved'⟩ := rest
      refine ⟨by rw [none, none', List.append_nil], fun name listed => ?_⟩
      exact (List.mem_append.mp listed).elim (resolved name) (resolved' name)

theorem pure (a : α) : Explained resolve blamed [] [] (Pure.pure a : Building α) := fun _ => ⟨rfl, nofun⟩

theorem change (f : Automaton → α × Automaton) : Explained resolve blamed [] [] (modifyGet f : Building α) :=
  fun _ => ⟨rfl, nofun⟩

theorem followed {next : α → Building β} (first : Explained resolve blamed ls names work)
    (second : ∀ a, Explained resolve blamed [] [] (next a)) : Explained resolve blamed ls names (work >>= next) := by
  have whole := first.bind second
  rwa [List.append_nil, List.append_nil] at whole

theorem lookahead (e : Expr) (names : List String) :
    Explained resolve blamed [e] names (Pattern.lookahead blamed e) := by
  intro m
  cases fails : (Pattern.lookahead blamed e).run m with
  | ok _ =>
    obtain ⟨_, _, _, done⟩ := ok_of_run_bind fails
    cases done
  | error e' => exact .inl ⟨e, List.mem_singleton_self e, m, fails⟩

end Explained

mutual
theorem explained_fragment : ∀ {e : Expr}, e.isKnown = true →
    Explained resolve blamed e.lookaheads e.references (fragment resolve blamed e)
  | .literal _, _ => by
    rw [fragment]
    exact (Explained.change _).followed fun _ => (Explained.change _).followed fun _ => .pure _
  | .oneOf _, _ => by
    rw [fragment]
    exact (Explained.change _).followed fun _ => (Explained.change _).followed fun _ =>
      (Explained.change _).followed fun _ => .pure _
  | .reference name, _ => by
    intro m
    rw [fragment]
    cases resolved : (resolve name).run m with
    | ok made =>
      refine ⟨rfl, fun name' listed => ?_⟩
      obtain rfl := List.mem_singleton.mp listed
      exact ⟨m, made, resolved⟩
    | error e => exact .inr ⟨name, List.mem_singleton_self name, m, resolved⟩
  | .sequence items, known => by
    rw [fragment]
    exact (Explained.change _).bind fun start => (explained_sequenceFrom items known [start]).followed fun _ => .pure _
  | .choice alternatives, known => by
    rw [fragment]
    exact (Explained.change _).bind fun start => (explained_choiceFrom start alternatives known []).followed
      fun _ => .pure _
  | .optional item, known => by
    rw [fragment]
    refine (Explained.change _).bind fun start => (explained_fragment (e := item) known).followed fun inner => ?_
    exact (Explained.change _).followed fun _ => .pure _
  | .repetition true item, known => by
    rw [fragment]
    refine (explained_fragment (e := item) known).followed fun inner => (Explained.change _).followed fun stop => ?_
    exact (Explained.change _).followed fun _ => (Explained.change _).followed fun _ => .pure _
  | .repetition false item, known => by
    rw [fragment]
    refine (Explained.change _).bind fun start => (explained_fragment (e := item) known).followed fun inner => ?_
    exact (Explained.change _).followed fun _ => (Explained.change _).followed fun _ => .pure _
  | .bind _ item, known => explained_fragment (e := item) known
  | .ahead item, _ => .lookahead (.ahead item) item.references
  | .notAhead item, _ => .lookahead (.notAhead item) item.references

theorem explained_sequenceFrom : ∀ es : List Expr, Expr.allKnown es = true → ∀ ends,
    Explained resolve blamed (Expr.allLookaheads es) (Expr.allReferences es) (sequenceFrom resolve blamed ends es)
  | [], _, _ => .pure _
  | e :: es, known, ends => by
    obtain ⟨first, rest⟩ := Bool.and_eq_true_iff.mp known
    rw [sequenceFrom]
    exact (explained_fragment first).bind fun item =>
      (Explained.change _).bind fun _ => explained_sequenceFrom es rest item.ends

theorem explained_choiceFrom (start : Nat) : ∀ es : List Expr, Expr.allKnown es = true → ∀ ends,
    Explained resolve blamed (Expr.allLookaheads es) (Expr.allReferences es) (choiceFrom resolve blamed start ends es)
  | [], _, _ => .pure _
  | e :: es, known, ends => by
    obtain ⟨first, rest⟩ := Bool.and_eq_true_iff.mp known
    rw [choiceFrom]
    exact (explained_fragment first).bind fun alternative =>
      (Explained.change _).bind fun _ => explained_choiceFrom start es rest (ends ++ alternative.ends)
end

mutual
theorem fragment_congr : ∀ {e : Expr}, (∀ name ∈ e.references, resolve name = other name) →
    fragment resolve blamed e = fragment other blamed e
  | .literal _, _ | .oneOf _, _ | .ahead _, _ | .notAhead _, _ | .unknown _, _ => rfl
  | .reference name, same => same name (List.mem_singleton_self name)
  | .sequence items, same => by
    rw [fragment, fragment]
    simp only [sequenceFrom_congr items same]
  | .choice alternatives, same => by
    rw [fragment, fragment]
    simp only [choiceFrom_congr alternatives same]
  | .optional item, same | .repetition true item, same | .repetition false item, same => by
    rw [fragment, fragment, fragment_congr (e := item) same]
  | .bind _ item, same => fragment_congr (e := item) same

theorem sequenceFrom_congr : ∀ es : List Expr, (∀ name ∈ Expr.allReferences es, resolve name = other name) → ∀ ends,
    sequenceFrom resolve blamed ends es = sequenceFrom other blamed ends es
  | [], _, _ => rfl
  | e :: es, same, ends => by
    rw [sequenceFrom, sequenceFrom, fragment_congr fun name listed => same name (List.mem_append_left _ listed)]
    simp only [sequenceFrom_congr es fun name listed => same name (List.mem_append_right _ listed)]

theorem choiceFrom_congr : ∀ es : List Expr, (∀ name ∈ Expr.allReferences es, resolve name = other name) → ∀ start ends,
    choiceFrom resolve blamed start ends es = choiceFrom other blamed start ends es
  | [], _, _, _ => rfl
  | e :: es, same, start, ends => by
    rw [choiceFrom, choiceFrom, fragment_congr fun name listed => same name (List.mem_append_left _ listed)]
    simp only [choiceFrom_congr es fun name listed => same name (List.mem_append_right _ listed)]
end

end

end Pattern

end Packrat
