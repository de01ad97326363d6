import Packrat.Proofs.Lexer.Refusals
import Packrat.Proofs.Parse.Conduct

namespace Packrat

namespace Pattern

namespace Scope

/-- Following references from the pattern of a token comes to another one, which is expanded inside those whose names
are `active`, the outermost first. -/
inductive Reaches (scope : Scope) (t : TokenRule) : List String → TokenRule → Prop where
  | start : Reaches scope t [t.name] t
  | inside {active u name v} (outer : Reaches scope t active u) (mentioned : name ∈ u.pattern.references)
    (fresh : name ∉ active) (found : scope.token? name = some v) : Reaches scope t (active ++ [name]) v

/-- The pattern of a token, with references followed, holds something that has no place there. -/
inductive Offends (scope : Scope) (t : TokenRule) : Prop where
  | lookahead {active u l} (reached : Reaches scope t active u) (here : l ∈ u.pattern.lookaheads)
  | unresolved {active u name} (reached : Reaches scope t active u) (mentioned : name ∈ u.pattern.references)
    (missing : ∀ v ∈ scope.tokens, v.name ≠ name)
  | recursive {active u name} (reached : Reaches scope t active u) (mentioned : name ∈ u.pattern.references)
    (again : name ∈ active)

def Usable (scope : Scope) (t : TokenRule) : Prop := ¬ scope.Offends t ∧ ¬ Matches scope t.pattern []

def Unshowable (scope : Scope) (t : TokenRule) (why : Packrat.Unshowable) : Prop :=
  ∃ active u l, scope.Reaches t active u ∧ l ∈ u.pattern.lookaheads ∧ l.unshowable? = some why

/-- An error that a token is to blame for, unless there is something about it that cannot be told. -/
def Blames (scope : Scope) (t : TokenRule) (e : Refusal) : Prop :=
  (∃ error, e = .grammar error ∧ error.blamed = some t.name) ∨ ∃ why, e = .notShowable why ∧ scope.Unshowable t why

variable {scope : Scope} {t u v : TokenRule} {active : List String} {name : String} {depth : Nat}

theorem name_of_token? (found : scope.token? name = some v) : v ∈ scope.tokens ∧ v.name = name := by
  have same := List.find?_some found
  exact ⟨List.mem_reverse.mp (List.mem_of_find?_eq_some found), beq_iff_eq.mp same⟩

theorem ne_of_token?_eq_none (missing : scope.token? name = none) : ∀ v ∈ scope.tokens, v.name ≠ name := by
  intro v listed same
  have no := List.find?_eq_none.mp missing v (List.mem_reverse.mpr listed)
  exact no (beq_iff_eq.mpr same)

theorem of_expand_eq_ok {m : Automaton} {made : Fragment × Automaton}
    (resolved : (scope.expand depth active name).run m = .ok made) :
    ∃ less v, scope.token? name = some v ∧ name ∉ active ∧
      (fragment (scope.expand less (active ++ [name])) active.head? v.pattern).run m = .ok made := by
  cases depth with
  | zero => cases resolved
  | succ less =>
    unfold expand at resolved
    split at resolved
    · next v found =>
      split at resolved
      · cases resolved
      · next fresh => exact ⟨less, v, found, fresh, resolved⟩
    · split at resolved <;> cases resolved

namespace Reaches

theorem head? (reaches : scope.Reaches t active u) : active.head? = some t.name := by
  induction reaches with
  | start => rfl
  | inside _ _ _ _ ih => rw [List.head?_append, ih, Option.some_or]

theorem listed (reaches : scope.Reaches t active u) (here : t ∈ scope.tokens) : u ∈ scope.tokens := by
  cases reaches with
  | start => exact here
  | inside _ _ _ found => exact (name_of_token? found).1

theorem nodup (reaches : scope.Reaches t active u) : active.Nodup := by
  induction reaches with
  | start => exact List.nodup_singleton _
  | @inside active u name v _ _ fresh _ ih =>
    refine List.nodup_append.mpr ⟨ih, List.nodup_singleton _, fun a member b single => ?_⟩
    obtain rfl := List.mem_singleton.mp single
    exact fun same => fresh (same ▸ member)

theorem subset (reaches : scope.Reaches t active u) (here : t ∈ scope.tokens) :
    active ⊆ scope.tokens.map (·.name) := by
  induction reaches with
  | start => exact List.cons_subset.mpr ⟨List.mem_map_of_mem here, List.nil_subset _⟩
  | inside _ _ _ found ih =>
    obtain ⟨listed, same⟩ := name_of_token? found
    exact List.append_subset.mpr ⟨ih, List.cons_subset.mpr ⟨same ▸ List.mem_map_of_mem listed, List.nil_subset _⟩⟩

theorem length_le (reaches : scope.Reaches t active u) (here : t ∈ scope.tokens) :
    active.length ≤ scope.tokens.length := by
  have few := reaches.nodup.length_le_of_subset (reaches.subset here)
  rwa [List.length_map] at few

theorem expanded (reaches : scope.Reaches t active u) (known : ∀ t ∈ scope.tokens, t.pattern.isKnown = true)
    (here : t ∈ scope.tokens) {m : Automaton} {made : Fragment × Automaton}
    (built : (fragment (scope.expand depth [t.name]) (some t.name) t.pattern).run m = .ok made) :
    u.pattern.lookaheads = [] ∧ ∀ name ∈ u.pattern.references, ∃ v, scope.token? name = some v ∧ name ∉ active := by
  have inner : ∃ less m made, (fragment (scope.expand less active) (some t.name) u.pattern).run m = .ok made := by
    induction reaches with
    | start => exact ⟨depth, m, made, built⟩
    | @inside active u name v outer mentioned fresh found ih =>
      obtain ⟨less, m, made, built⟩ := ih
      have explained := built ▸ explained_fragment (known u (outer.listed here)) m
      obtain ⟨m', made', resolved⟩ := explained.2 name mentioned
      obtain ⟨least, v', found', _, inside⟩ := of_expand_eq_ok resolved
      cases found.symm.trans found'
      exact ⟨least, m', made', outer.head? ▸ inside⟩
  obtain ⟨less, m, made, built⟩ := inner
  have explained := built ▸ explained_fragment (known u (reaches.listed here)) m
  refine ⟨explained.1, fun name mentioned => ?_⟩
  obtain ⟨_, _, resolved⟩ := explained.2 name mentioned
  obtain ⟨_, v, found, fresh, _⟩ := of_expand_eq_ok resolved
  exact ⟨v, found, fresh⟩

end Reaches

theorem not_offends_of_ok (known : ∀ t ∈ scope.tokens, t.pattern.isKnown = true) (here : t ∈ scope.tokens)
    {m : Automaton}
    {made : Fragment × Automaton} (built : (scope.fragmentOf t).run m = .ok made) : ¬ scope.Offends t := by
  intro offends
  cases offends with
  | lookahead reached there =>
    rw [(reached.expanded known here built).1] at there
    cases there
  | unresolved reached mentioned missing =>
    obtain ⟨v, found, _⟩ := (reached.expanded known here built).2 _ mentioned
    exact missing v (name_of_token? found).1 (name_of_token? found).2
  | recursive reached mentioned again =>
    obtain ⟨_, _, fresh⟩ := (reached.expanded known here built).2 _ mentioned
    exact fresh again

theorem blames_of_lookahead {l : Expr} {m : Automaton} {e : Refusal} (reached : scope.Reaches t active u)
    (listed : l ∈ u.pattern.lookaheads) (fails : (lookahead (some t.name) l).run m = .error e) : scope.Blames t e := by
  rcases error_of_run_bind fails with hidden | ⟨text, _, _, done⟩
  · cases shown : l.unshowable? with
    | none =>
      rw [Expr.describe, shown] at hidden
      cases hidden
    | some why =>
      rw [Expr.describe, shown] at hidden
      cases hidden
      exact .inr ⟨why, rfl, active, u, l, reached, listed, shown⟩
  · cases done
    exact .inl ⟨_, rfl, rfl⟩

theorem offends_of_error (known : ∀ t ∈ scope.tokens, t.pattern.isKnown = true) (here : t ∈ scope.tokens)
    {m : Automaton}
    {e : Refusal} (reached : scope.Reaches t active u) (enough : scope.tokens.length < depth + active.length)
    (fails : (fragment (scope.expand depth active) (some t.name) u.pattern).run m = .error e) :
    scope.Offends t ∧ scope.Blames t e := by
  -- Each level down is inside one token more, so the depth cannot run out.
  induction depth generalizing active u m with
  | zero =>
    have := reached.length_le here
    omega
  | succ depth ih =>
    have explained := fails ▸ explained_fragment (known u (reached.listed here)) m
    rcases explained with ⟨l, listed, _, refused⟩ | ⟨name, mentioned, _, refused⟩
    · exact ⟨.lookahead reached listed, blames_of_lookahead reached listed refused⟩
    unfold expand at refused
    rw [reached.head?] at refused
    split at refused
    · next v found =>
      split at refused
      · next again =>
        cases refused
        exact ⟨.recursive reached mentioned again, .inl ⟨_, rfl, reached.head?⟩⟩
      · next fresh =>
        refine ih (.inside reached mentioned fresh found) ?_ refused
        rw [List.length_append, List.length_singleton]
        omega
    · next missing =>
      have offends : scope.Offends t := .unresolved reached mentioned (ne_of_token?_eq_none missing)
      split at refused <;> cases refused <;> exact ⟨offends, .inl ⟨_, rfl, rfl⟩⟩

theorem expand_of_le (here : t ∈ scope.tokens) {depth' : Nat} (reached : scope.Reaches t active u)
    (enough : scope.tokens.length < depth + active.length) (enough' : scope.tokens.length < depth' + active.length) :
    fragment (scope.expand depth active) (some t.name) u.pattern =
      fragment (scope.expand depth' active) (some t.name) u.pattern := by
  induction depth generalizing active u depth' with
  | zero =>
    have := reached.length_le here
    omega
  | succ depth ih =>
    obtain ⟨depth', rfl⟩ : ∃ d, depth' = d + 1 := by
      have := reached.length_le here
      exact ⟨depth' - 1, by omega⟩
    refine fragment_congr fun name mentioned => ?_
    unfold expand
    rw [reached.head?]
    split
    · next v found =>
      split
      · rfl
      · next fresh =>
        refine ih (.inside reached mentioned fresh found) ?_ ?_
        all_goals
          rw [List.length_append, List.length_singleton]
          omega
    · rfl

section

variable {root index : Nat} {m : Automaton} {done : List TokenRule}

theorem usable_or_blamed (sound : m.Sound) (known : ∀ t ∈ scope.tokens, t.pattern.isKnown = true)
    (here : t ∈ scope.tokens)
    (root index : Nat) : (∃ m', (scope.addToken root t index).run m = .ok ((), m')) ∧ scope.Usable t ∨
      (∃ e, (scope.addToken root t index).run m = .error e ∧ scope.Blames t e) ∧ ¬ scope.Usable t := by
  rcases addToken_cases sound scope t root index with ⟨e, unbuilt, fails⟩ | ⟨f, m₁, built, _, added⟩
  · obtain ⟨offends, blames⟩ := offends_of_error known here .start (Nat.lt_succ_self _) unbuilt
    exact .inr ⟨⟨e, fails, blames⟩, fun usable => usable.1 offends⟩
  · rcases added with ⟨nothing, e, blamed, fails⟩ | ⟨some, run⟩
    · exact .inr ⟨⟨.grammar e, fails, .inl ⟨e, rfl, blamed⟩⟩, fun usable => usable.2 nothing⟩
    · exact .inl ⟨⟨_, run⟩, not_offends_of_ok known here built, some⟩

variable {before todo : List TokenRule}

theorem exists_forM_iff (assembled : Assembled scope root done m) (known : ∀ t ∈ scope.tokens, t.pattern.isKnown = true)
    (within : ∀ t ∈ todo, t ∈ scope.tokens) :
    (∃ made, ((todo.zipIdx done.length).forM fun (t, index) => scope.addToken root t index).run m = .ok made) ↔
      ∀ t ∈ todo, scope.Usable t := by
  induction todo generalizing done m with
  | nil => exact iff_of_true ⟨_, rfl⟩ nofun
  | cons t todo ih =>
    obtain ⟨here, rest⟩ := List.forall_mem_cons.mp within
    rw [List.zipIdx_cons, List.forM, StateT.run_bind, List.forall_mem_cons]
    rcases usable_or_blamed assembled.sound known here root done.length with ⟨⟨m₁, run⟩, usable⟩ |
      ⟨⟨e, run, _⟩, unusable⟩
    · have more := ih (ok_addToken assembled run) rest
      rw [List.length_append, List.length_singleton] at more
      rw [run, and_iff_right usable]
      exact more
    · rw [run]
      exact iff_of_false nofun fun usable => unusable usable.1

theorem exists_blamed (assembled : Assembled scope root done m) (known : ∀ t ∈ scope.tokens, t.pattern.isKnown = true)
    (within : ∀ u ∈ before ++ t :: todo, u ∈ scope.tokens) (usable : ∀ u ∈ before, scope.Usable u)
    (unusable : ¬ scope.Usable t) : ∃ e, scope.Blames t e ∧
      (((before ++ t :: todo).zipIdx done.length).forM fun (t, index) => scope.addToken root t index).run m =
        .error e := by
  induction before generalizing done m with
  | nil =>
    rw [List.nil_append, List.zipIdx_cons, List.forM, StateT.run_bind]
    rcases usable_or_blamed assembled.sound known (within t List.mem_cons_self) root done.length with
      ⟨_, fine⟩ | ⟨refused, _⟩
    · exact absurd fine unusable
    · obtain ⟨e, run, blames⟩ := refused
      rw [run]
      exact ⟨e, blames, rfl⟩
  | cons u before ih =>
    obtain ⟨here, rest⟩ := List.forall_mem_cons.mp within
    obtain ⟨first, others⟩ := List.forall_mem_cons.mp usable
    rw [List.cons_append, List.zipIdx_cons, List.forM, StateT.run_bind]
    rcases usable_or_blamed assembled.sound known here root done.length with ⟨⟨m₁, run⟩, _⟩ | ⟨_, offends⟩
    · have more := ih (ok_addToken assembled run) rest others
      rw [List.length_append, List.length_singleton] at more
      rw [run]
      exact more
    · exact absurd first offends

theorem automaton_eq (scope : Scope) : scope.automaton =
    (scope.tokens.zipIdx.forM fun (t, index) => scope.addToken 0 t index).run (Automaton.addState {}).2 >>= fun made =>
      .ok (0, made.2) := rfl

theorem exists_automaton_iff (known : ∀ t ∈ scope.tokens, t.pattern.isKnown = true) :
    (∃ made, scope.automaton = .ok made) ↔ ∀ t ∈ scope.tokens, scope.Usable t := by
  rw [← exists_forM_iff (.start scope) known fun _ listed => listed, automaton_eq]
  constructor
  · intro ⟨_, built⟩
    obtain ⟨made, run, _⟩ := ok_of_bind built
    exact ⟨made, run⟩
  · intro ⟨made, run⟩
    refine ⟨(0, made.2), ?_⟩
    rw [List.length_nil] at run
    rw [run]
    rfl

theorem exists_automaton_error {after : List TokenRule} (known : ∀ t ∈ scope.tokens, t.pattern.isKnown = true)
    (split : scope.tokens = before ++ t :: after) (usable : ∀ u ∈ before, scope.Usable u)
    (unusable : ¬ scope.Usable t) :
    ∃ e, scope.Blames t e ∧ scope.automaton = .error e := by
  obtain ⟨e, blames, run⟩ := exists_blamed (.start scope) known (fun u listed => split ▸ listed) usable unusable
  refine ⟨e, blames, ?_⟩
  rw [List.length_nil, ← split] at run
  rw [automaton_eq, run]
  rfl

end

end Scope

end Pattern

open Pattern Reporting

namespace TokenSet

variable {tokens : List TokenRule} {rules : List String} {state : Option String} {set : TokenSet}

/-- Tokens make a table just if all of them can be used. Otherwise the first that cannot is to blame. References are
followed no deeper than there are tokens, and the rows of the table are in order. -/
theorem ofTokens_accepts (known : ∀ t ∈ tokens, t.pattern.isKnown = true) :
    ((∃ set, Gives (ofTokens tokens rules state) set) ↔ ∀ t ∈ tokens, Scope.Usable ⟨tokens, rules⟩ t) ∧
    (∀ before t after, tokens = before ++ t :: after → (∀ u ∈ before, Scope.Usable ⟨tokens, rules⟩ u) →
      ¬ Scope.Usable ⟨tokens, rules⟩ t →
        ∃ e, ComesTo (ofTokens tokens rules state) (.error e) ∧ Scope.Blames ⟨tokens, rules⟩ t e) ∧
    (∀ t ∈ tokens, (∀ active u, Scope.Reaches ⟨tokens, rules⟩ t active u →
        active.Nodup ∧ active.length ≤ tokens.length) ∧
      ∀ depth, tokens.length ≤ depth →
        fragment (Scope.expand ⟨tokens, rules⟩ depth [t.name]) (some t.name) t.pattern =
          fragment (Scope.expand ⟨tokens, rules⟩ tokens.length [t.name]) (some t.name) t.pattern) ∧
    ∀ set, Gives (ofTokens tokens rules state) set → ∀ row ∈ set.table,
      SpanMap.Ordered row.edges ∧ ∀ edge ∈ row.edges, edge.2 < set.table.size := by
  refine ⟨⟨?_, ?_⟩, ?_, ?_, ?_⟩
  · intro ⟨set, gives⟩ t listed
    obtain ⟨made, lifted, _⟩ := gives.of_bind
    exact (@Scope.exists_automaton_iff ⟨tokens, rules⟩ known).mp ⟨made, lifted.of_lift⟩ t listed
  · intro usable
    obtain ⟨⟨root, m⟩, built⟩ := (@Scope.exists_automaton_iff ⟨tokens, rules⟩ known).mpr usable
    refine ⟨⟨tokens, .ofAutomaton root m, state⟩, ?_⟩
    unfold ofTokens
    rw [built]
    exact ⟨[], _, rfl⟩
  · intro before t after split usable unusable
    obtain ⟨e, blames, fails⟩ : ∃ e, Scope.Blames ⟨tokens, rules⟩ t e ∧ Scope.automaton ⟨tokens, rules⟩ = .error e :=
      Scope.exists_automaton_error known split usable unusable
    refine ⟨e, ?_, blames⟩
    unfold ofTokens
    refine ComesTo.bind_error ?_
    rw [fails]
    exact .lift _
  · intro t here
    refine ⟨fun active u reaches => ⟨reaches.nodup, reaches.length_le here⟩, fun depth enough => ?_⟩
    exact Scope.expand_of_le here .start (Nat.lt_succ_of_le enough) (Nat.lt_succ_self _)
  · intro set gives row listed
    obtain ⟨_, root, m, assembled, table⟩ := exists_automaton gives
    rw [table] at listed ⊢
    obtain ⟨s, _, rfl⟩ := LexTable.mem_ofAutomaton.mp listed
    exact ⟨LexTable.ordered_rowOf assembled.sound root s, fun edge leads =>
      LexTable.edge_lt_size assembled.sound assembled.inside listed leads⟩

def looping : List TokenRule := [
  { name := "name", pattern := .repetition true (.literal "a") },
  { name := "entry", pattern := .sequence [.literal "<", .reference "first"] },
  { name := "first", pattern := .reference "second" },
  { name := "second", pattern := .choice [.reference "name", .reference "first"] }]

theorem looping_blames : ∃ name entry rest, looping = name :: entry :: rest ∧
    (∀ t ∈ looping, t.pattern.isKnown = true) ∧ Scope.Usable ⟨looping, []⟩ name ∧ ¬ Scope.Usable ⟨looping, []⟩ entry ∧
    ∃ error, ComesTo (ofTokens looping [] none) (.error (.grammar error)) ∧ error.blamed = some "entry" := by
  have known : ∀ t ∈ looping, t.pattern.isKnown = true := by simp [looping, Expr.isKnown, Expr.allKnown]
  have plain : ∀ t ∈ looping, t.pattern.lookaheads = [] := by simp [looping, Expr.lookaheads, Expr.allLookaheads]
  have usable : Scope.Usable ⟨looping, []⟩ looping[0] := by
    have sound := (Assembled.start ⟨looping, []⟩).sound
    refine (Scope.usable_or_blamed sound known (List.getElem_mem _) 0 0).elim And.right fun ⟨⟨e, fails, _⟩, _⟩ => ?_
    cases fails
  have offends : Scope.Offends ⟨looping, []⟩ looping[1] := by
    have first : Scope.Reaches ⟨looping, []⟩ looping[1] ["entry", "first"] looping[2] :=
      .inside .start (by simp [looping, Expr.references, Expr.allReferences]) (by decide) rfl
    have second : Scope.Reaches ⟨looping, []⟩ looping[1] ["entry", "first", "second"] looping[3] :=
      .inside first (by simp [looping, Expr.references]) (by decide) rfl
    have again : "first" ∈ ["entry", "first", "second"] := by decide
    exact .recursive second (by simp [looping, Expr.references, Expr.allReferences]) again
  have unusable : ¬ Scope.Usable ⟨looping, []⟩ looping[1] := fun usable => usable.1 offends
  obtain ⟨e, refused, blames⟩ := (@ofTokens_accepts looping [] none known).2.1 [looping[0]] looping[1] _ rfl
    (List.forall_mem_singleton.mpr usable) unusable
  refine ⟨_, _, _, rfl, known, usable, unusable, ?_⟩
  rcases blames with ⟨error, rfl, blamed⟩ | ⟨_, _, active, u, l, reached, here, _⟩
  · exact ⟨error, refused, blamed⟩
  · rw [plain u (reached.listed (List.getElem_mem _))] at here
    cases here

def beyond : List TokenRule := [
  { name := "beyond", pattern := .ahead (.oneOf ⟨[⟨codeSpace, codeSpace + 1⟩], false, by decide, by simp⟩) }]

theorem beyond_unblamed : (beyond.map (·.name)).Nodup ∧ (∀ t ∈ beyond, t.pattern.isKnown = true) ∧
    (∀ t ∈ beyond, Scope.Offends ⟨beyond, []⟩ t) ∧
      ComesTo (ofTokens beyond [] none) (.error (.notShowable .noCodePoint)) := by
  refine ⟨by decide, by simp [beyond, Expr.isKnown], ?_, ?_⟩
  · intro t listed
    obtain rfl := List.mem_singleton.mp listed
    exact .lookahead .start List.mem_cons_self
  · exact .bind_error fun _ => rfl

end TokenSet

end Packrat
