import Packrat.Proofs.Typing.Faithful
import Packrat.Proofs.Typing.Noted

namespace Packrat.Typing

section Results

variable {ctx : Context} {pending : List String} {whole : Expr} {r : Rule} {p : Production}

theorem fair_refuse {α : Type} (kind : GrammarError.Kind) (text : String) :
    Fair (refuse pending kind text : Except Refusal α) := ⟨_, rfl⟩

theorem fair_unifyAlternatives {alternatives : List (Expr × ValueType)} (made : whole.isWellMade = true)
    (each : ∀ x ∈ alternatives, x.1.isWellMade = true) (t : ValueType) :
    Fair (unifyAlternatives whole pending t alternatives) := by
  induction alternatives generalizing t with
  | nil => trivial
  | cons first rest ih =>
    have here := Expr.describe_of_isWellMade (each first List.mem_cons_self)
    unfold unifyAlternatives
    split
    · exact ih (fun x listed => each x (List.mem_cons_of_mem _ listed)) _
    · rw [Expr.describe_of_isWellMade made, here]
      exact fair_refuse _ _

theorem fair_choiceType {alternatives : List Expr} {types : List ValueType}
    (made : (Expr.choice alternatives).isWellMade = true) (same : types.length = alternatives.length) :
    Fair (choiceType (.choice alternatives) pending (alternatives.zip types)) := by
  obtain ⟨some, each⟩ := Bool.and_eq_true_iff.mp made
  rw [Expr.allWellMade_iff] at each
  cases alternatives with
  | nil => cases some
  | cons e es =>
    cases types with
    | nil => cases same
    | cons t ts =>
      refine fair_unifyAlternatives made (fun x listed => ?_) t
      exact each _ (List.mem_cons_of_mem _ (List.of_mem_zip listed).1)

theorem fair_addBindings (shown : p.unshowable? = none) (index : Nat) (bound : List Binding)
    (paths : List (String × Path)) : Fair (addBindings p pending index bound paths) := by
  induction paths generalizing bound with
  | nil => trivial
  | cons first rest ih =>
    unfold addBindings
    rw [shown]
    split
    · exact fair_refuse _ _
    · exact ih _

theorem fair_bindingsFrom (shown : p.unshowable? = none) {items : List Expr} (made : Expr.allWellMade items = true)
    (index : Nat) (bound : List Binding) : Fair (bindingsFrom p pending index bound items) := by
  induction items generalizing index bound with
  | nil => trivial
  | cons item rest ih =>
    obtain ⟨first, made⟩ := Bool.and_eq_true_iff.mp made
    unfold bindingsFrom
    split
    · next paths _ => exact (fair_addBindings shown index bound paths).bind fun bound _ => ih made _ _
    · next misplaced =>
      rw [Expr.describe_of_isWellMade (Expr.isWellMade_of_boundPaths first misplaced)]
      exact fair_refuse _ _

theorem fair_findAction (spec : ActionSpec) : Fair (findAction ctx pending spec) := by
  unfold findAction
  split
  · trivial
  · trivial
  · split
    · trivial
    · exact fair_refuse _ _

theorem typedProduction_yields (made : Expr.allWellMade p.items = true) (types : List ValueType) :
    Yields Refusal.OfGrammar (fun q => q.items = Expr.allLaidOpen p.items)
      (typedProduction ctx pending r p (Expr.allLaidOpen p.items) types) := by
  have shown : p.unshowable? = none := Expr.firstUnshowable?_of_allWellMade _ made
  unfold typedProduction
  refine (fair_bindingsFrom shown (Expr.allWellMade_allLaidOpen _ made) 0 []).bind fun bindings _ => ?_
  split
  · exact (fair_findAction _).bind fun action _ => rfl
  · exact rfl

theorem fair_unifyProductions (name : String) (t : ValueType) (types : List ValueType) :
    Fair (unifyProductions name pending t types) := by
  induction types generalizing t with
  | nil => trivial
  | cons first rest ih =>
    unfold unifyProductions
    split
    · exact ih _
    · exact fair_refuse _ _

theorem fair_productionsType (types : List ValueType) : Fair (productionsType r pending types) := by
  cases types with
  | nil => trivial
  | cons first rest => exact (fair_unifyProductions r.name first rest).map

theorem fair_ruleType (inferred : Option ValueType) : Fair (ruleType r pending inferred) := by
  unfold ruleType
  split
  · trivial
  · trivial
  · trivial
  · split
    · trivial
    · exact fair_refuse _ _

end Results

section Work

open Infer

variable {ctx : Context} {terminal : ValueType} {typeOfName : String → Infer ValueType} {pending : List String}

theorem persists_noted {α : Type} (e : Expr) : Persists fun s (_ : α) => s.Noted e :=
  fun _ _ _ more noted => noted.mono more

theorem persists_allNoted (es : List Expr) :
    Persists fun s (types : List ValueType) => types.length = es.length ∧ ∀ e ∈ es, s.Noted e :=
  fun _ _ _ more noted => ⟨noted.1, fun e listed => (noted.2 e listed).mono more⟩

theorem persists_items : Persists fun s (q : TypedProduction) => ∀ e ∈ q.items, s.Noted e :=
  fun _ _ _ more noted e listed => (noted e listed).mono more

mutual
theorem typeOf_notes (references : ∀ name, (typeOfName name).Notes ctx.grammar fun _ _ => ctx.grammar.Knows name) :
    ∀ e : Expr, e.isWellMade = true →
      (typeOf terminal typeOfName pending e).Notes ctx.grammar fun s _ => s.Noted e
  | .literal _, _ | .oneOf _, _ => by
    rw [typeOf]
    exact .remember (.pure (Q := fun _ _ => True) fun _ => trivial) (fun _ _ _ _ direct => by cases direct)
      fun _ _ _ _ same => by cases same
  | .reference name, _ => by
    rw [typeOf]
    refine .remember (references name) (fun _ _ _ _ direct => by cases direct) fun _ _ knows _ same => ?_
    cases same
    exact knows
  | .bind _ item, made => by
    rw [typeOf]
    refine .remember (typeOf_notes references item made) (fun _ _ noted part direct => ?_)
      fun _ _ _ _ same => by cases same
    exact List.mem_singleton.mp direct ▸ noted
  | .sequence items, made => by
    rw [typeOf]
    refine .remember (.bind (persists_allNoted items) (typesOf_notes references items made) fun _ _ _ => ?_)
      (fun _ _ noted => noted) fun _ _ _ _ same => by cases same
    exact .pure fun _ noted => noted.2
  | .choice alternatives, made => by
    rw [typeOf]
    have each := (Bool.and_eq_true_iff.mp made).2
    refine .remember (.bind (persists_allNoted alternatives) (typesOf_notes references alternatives each)
      fun _ types noted => ?_) (fun _ _ noted => noted) fun _ _ _ _ same => by cases same
    exact .lift ((fair_choiceType made noted.1).weaken fun _ _ _ noted => noted.2)
  | .optional item, made | .repetition _ item, made | .ahead item, made | .notAhead item, made => by
    rw [typeOf]
    refine .remember (.bind (persists_noted item) (typeOf_notes references item made) fun _ _ _ => ?_)
      (fun _ _ noted => noted) fun _ _ _ _ same => by cases same
    refine .pure fun _ noted part direct => ?_
    exact List.mem_singleton.mp direct ▸ noted
  | .unknown _, made => by cases made

theorem typesOf_notes (references : ∀ name, (typeOfName name).Notes ctx.grammar fun _ _ => ctx.grammar.Knows name) :
    ∀ es : List Expr, Expr.allWellMade es = true →
      (typesOf terminal typeOfName pending es).Notes ctx.grammar fun s types =>
        types.length = es.length ∧ ∀ e ∈ es, s.Noted e
  | [], _ => by
    rw [typesOf]
    exact .pure fun _ => ⟨rfl, by simp⟩
  | e :: es, made => by
    obtain ⟨first, rest⟩ := Bool.and_eq_true_iff.mp made
    rw [typesOf]
    refine .bind (persists_noted e) (typeOf_notes references e first) fun _ type _ => ?_
    refine .bind (persists_allNoted es) (typesOf_notes references es rest) fun _ types _ => ?_
    exact .pure fun _ others here => ⟨congrArg (· + 1) others.1, List.forall_mem_cons.mpr ⟨here, others.2⟩⟩
end

theorem typeProduction_notes {r : Rule} {p : Production} (made : Expr.allWellMade p.items = true)
    (references : ∀ name, (typeOfName name).Notes ctx.grammar fun _ _ => ctx.grammar.Knows name) :
    (typeProduction ctx typeOfName pending r p).Notes ctx.grammar fun s q => ∀ e ∈ q.items, s.Noted e := by
  unfold typeProduction
  refine .bind (persists_allNoted _) (typesOf_notes references _ (Expr.allWellMade_allLaidOpen _ made))
    fun _ types _ => ?_
  refine .lift ((typedProduction_yields made types).weaken fun q same _ noted => ?_)
  rw [same]
  exact noted.2

theorem typeProductions_notes {r : Rule} (made : ∀ p ∈ r.productions, Expr.allWellMade p.items = true)
    (references : ∀ name, (typeOfName name).Notes ctx.grammar fun _ _ => ctx.grammar.Knows name) :
    (r.productions.mapM (typeProduction ctx typeOfName pending r)).Notes ctx.grammar fun s productions =>
      ∀ q ∈ productions, ∀ e ∈ q.items, s.Noted e :=
  .mapM persists_items fun p listed => typeProduction_notes (made p listed) references

theorem error_of_typeRule {typeOfName : List String → String → Infer ValueType} {r : Rule} {e : Refusal}
    {s s' : Progress} (run : (typeRule ctx typeOfName pending r).run.run s = (.error e, s')) :
    (∃ s₁, (r.productions.mapM (typeProduction ctx (typeOfName (r.name :: pending)) (r.name :: pending) r)).run.run s =
        (.error e, s₁)) ∨ (∃ types, productionsType r (r.name :: pending) types = .error e) ∨
      ∃ inferred, ruleType r (r.name :: pending) inferred = .error e := by
  unfold typeRule at run
  obtain ⟨_, _, got, run⟩ := (Infer.error_of_bind run).resolve_left nofun
  cases got
  split at run
  · cases run
  · rcases Infer.error_of_bind run with first | ⟨productions, _, _, run⟩
    · exact .inl ⟨_, first⟩
    · rcases Infer.error_of_bind run with second | ⟨inferred, _, _, run⟩
      · exact .inr (.inl ⟨_, error_of_lift second⟩)
      · rcases Infer.error_of_bind run with third | ⟨_, _, _, run⟩
        · exact .inr (.inr ⟨_, error_of_lift third⟩)
        · obtain ⟨_, _, _, run⟩ := (Infer.error_of_bind run).resolve_left nofun
          cases run

theorem typeRule_notes {typeOfName : List String → String → Infer ValueType} {r : Rule}
    (made : ∀ p ∈ r.productions, Expr.allWellMade p.items = true)
    (references : ∀ name, (typeOfName (r.name :: pending) name).Notes ctx.grammar fun _ _ => ctx.grammar.Knows name) :
    (typeRule ctx typeOfName pending r).Notes ctx.grammar fun _ _ => True := by
  have each : (r.productions.mapM (typeProduction ctx (typeOfName (r.name :: pending)) (r.name :: pending) r)).Notes
      ctx.grammar fun s productions => ∀ q ∈ productions, ∀ e ∈ q.items, s.Noted e :=
    typeProductions_notes made references
  refine ⟨fun closed run => ?_, fun closed run => ?_⟩
  · rcases typeRule_cases run with ⟨_, rfl⟩ | ⟨productions, s₁, inferred, _, first, _, _, same, rfl⟩
    · exact ⟨List.Subset.refl _, closed, trivial⟩
    · obtain ⟨more, closed₁, noted⟩ := each.comes closed first
      refine ⟨more, ⟨closed₁.parts, closed₁.references, fun x listed => ?_⟩, trivial⟩
      rcases List.mem_append.mp listed with old | new
      · exact closed₁.typed x old
      · rw [List.mem_singleton.mp new, same]
        exact noted
  · rcases error_of_typeRule run with ⟨_, first⟩ | ⟨types, agreed⟩ | ⟨inferred, declared⟩
    · exact each.refuses closed first
    · exact (fair_productionsType types).of_error agreed
    · exact (fair_ruleType inferred).of_error declared

theorem typeOfName_notes (made : ctx.grammar.WellMade) {depth : Nat} (distinct : pending.Nodup)
    (listed : pending ⊆ ctx.grammar.ruleNames) (enough : ctx.grammar.rules.length + 2 ≤ depth + pending.length)
    (name : String) :
    (Typing.typeOfName ctx depth pending name).Notes ctx.grammar fun _ _ => ctx.grammar.Knows name := by
  induction depth generalizing pending name with
  | zero =>
    have few := distinct.length_le_of_subset listed
    have same := Grammar.length_ruleNames ctx.grammar
    omega
  | succ depth ih =>
    unfold Typing.typeOfName
    split
    · next r found =>
      have known : ctx.grammar.Knows name := .inl (by simp [found])
      split
      · exact .pure fun _ => known
      · split
        · refine ⟨fun closed run => ?_, fun closed run => by cases run⟩
          obtain ⟨_, rfl⟩ := assume_eq run
          exact ⟨List.Subset.refl _, ⟨closed.parts, closed.references, closed.typed⟩, known⟩
        · next outside =>
          have same := Grammar.name_of_rule? found
          subst same
          have references : ∀ name, (Typing.typeOfName ctx depth (r.name :: pending) name).Notes ctx.grammar
              fun _ _ => ctx.grammar.Knows name := by
            refine ih (List.nodup_cons.mpr ⟨outside, distinct⟩) ?_ (by rw [List.length_cons]; omega)
            exact List.cons_subset.mpr ⟨Grammar.mem_ruleNames_of_rule? found, listed⟩
          have items := made.items (Grammar.mem_of_rule? found)
          refine .bind (Q := fun _ _ => True) (fun _ _ _ _ _ => trivial) (typeRule_notes items references)
            fun _ _ _ => ?_
          exact .pure fun _ _ => known
    · next t _ found => exact .pure fun _ => .inr (by simp [found])
    · exact .lift ⟨_, rfl⟩

theorem eachRule_notes (made : ctx.grammar.WellMade) {todo : List Rule} (listed : todo ⊆ ctx.grammar.rules) :
    (todo.forM fun r => discard (typeRule ctx ctx.typeOfName [] r) : Infer Unit).Notes ctx.grammar fun _ _ => True := by
  induction todo with
  | nil => exact .pure fun _ => trivial
  | cons r rest ih =>
    have known := listed List.mem_cons_self
    have references : ∀ name, (ctx.typeOfName [r.name] name).Notes ctx.grammar fun _ _ => ctx.grammar.Knows name :=
      typeOfName_notes made (by simp)
        (List.cons_subset.mpr ⟨List.mem_map_of_mem known, List.nil_subset _⟩) (Nat.le_refl _)
    have first : (typeRule ctx ctx.typeOfName [] r).Notes ctx.grammar fun _ _ => True :=
      typeRule_notes (made.items known) references
    have always : ∀ {α : Type}, Persists fun (_ : Progress) (_ : α) => True := fun _ _ _ _ _ => trivial
    refine .bind (Q := fun _ _ => True) always (.bind always first fun _ _ _ => .pure fun _ _ => trivial)
      fun _ _ _ => ?_
    exact (ih fun q member => listed (List.mem_cons_of_mem _ member)).weaken fun _ _ _ _ => trivial

theorem round_notes (made : ctx.grammar.WellMade) : (round ctx).Notes ctx.grammar fun _ _ => True := by
  have each := eachRule_notes made (List.Subset.refl ctx.grammar.rules)
  refine ⟨fun closed run => ?_, fun closed run => ?_⟩
  · obtain ⟨_, _, start, run⟩ := of_bind run
    cases start
    exact each.comes (s := { (_ : Progress) with assumed := [] }) ⟨closed.parts, closed.references, closed.typed⟩ run
  · obtain ⟨_, _, start, run⟩ := (Infer.error_of_bind run).resolve_left nofun
    cases start
    exact each.refuses (s := { (_ : Progress) with assumed := [] }) ⟨closed.parts, closed.references, closed.typed⟩ run

theorem roundsUpTo_comes (made : ctx.grammar.WellMade) {rounds : Nat} {s s' : Progress}
    {rules : List (String × TypedRule)} (closed : s.Closed ctx.grammar)
    (run : (roundsUpTo ctx rounds).run.run s = (.ok rules, s')) : s'.Closed ctx.grammar ∧ s'.typedRules = rules := by
  induction rounds generalizing s with
  | zero =>
    unfold roundsUpTo at run
    obtain ⟨_, s₁, first, run⟩ := of_bind run
    obtain ⟨_, _, got, run⟩ := of_bind run
    cases got
    split at run <;> cases run
    exact ⟨((round_notes made).comes closed first).2.1, rfl⟩
  | succ rounds ih =>
    unfold roundsUpTo at run
    obtain ⟨_, s₁, first, run⟩ := of_bind run
    obtain ⟨_, _, got, run⟩ := of_bind run
    cases got
    split at run
    · cases run
      exact ⟨((round_notes made).comes closed first).2.1, rfl⟩
    · obtain ⟨_, _, again, run⟩ := of_bind run
      cases again
      exact ih (.empty [] _) run

theorem roundsUpTo_refuses (made : ctx.grammar.WellMade) {rounds : Nat} {s s' : Progress} {e : Refusal}
    (closed : s.Closed ctx.grammar) (run : (roundsUpTo ctx rounds).run.run s = (.error e, s')) : e.OfGrammar := by
  induction rounds generalizing s with
  | zero =>
    unfold roundsUpTo at run
    rcases Infer.error_of_bind run with first | ⟨_, s₁, first, run⟩
    · exact (round_notes made).refuses closed first
    · obtain ⟨_, _, got, run⟩ := (Infer.error_of_bind run).resolve_left fun failed => by cases failed
      cases got
      split at run <;> cases run
      exact ⟨_, rfl⟩
  | succ rounds ih =>
    unfold roundsUpTo at run
    rcases Infer.error_of_bind run with first | ⟨_, s₁, first, run⟩
    · exact (round_notes made).refuses closed first
    · obtain ⟨_, _, got, run⟩ := (Infer.error_of_bind run).resolve_left fun failed => by cases failed
      cases got
      split at run
      · cases run
      · obtain ⟨_, _, again, run⟩ := (Infer.error_of_bind run).resolve_left fun failed => by cases failed
        cases again
        exact ih (.empty [] _) run

end Work

section

variable {g : Grammar} {actions : List (String × Action)}

def recorded (g : Grammar) (actions : List (String × Action)) : Progress :=
  ((roundsUpTo ⟨g, actions⟩ g.rules.length).run.run {}).2

theorem fair_typedRules (made : g.WellMade) : Fair (typedRules g actions) := by
  have closed : ({} : Progress).Closed g := .empty [] []
  let ctx : Context := ⟨g, actions⟩
  cases result : typedRules g actions with
  | ok rules => trivial
  | error e =>
    have run : (roundsUpTo ctx g.rules.length).run.run {} = (.error e, recorded g actions) := Prod.ext result rfl
    exact roundsUpTo_refuses made closed run

theorem closed_recorded (made : g.WellMade) {rules : List (String × TypedRule)}
    (accepted : typedRules g actions = .ok rules) :
    (recorded g actions).Closed g ∧ (recorded g actions).typedRules = rules := by
  have closed : ({} : Progress).Closed g := .empty [] []
  let ctx : Context := ⟨g, actions⟩
  have run : (roundsUpTo ctx g.rules.length).run.run {} = (.ok rules, recorded g actions) := Prod.ext accepted rfl
  exact roundsUpTo_comes made closed run

def recordedType? (g : Grammar) (actions : List (String × Action)) (e : Expr) : Option ValueType :=
  ((recorded g actions).types.find? fun (known, _) => known.same e).map (·.2)

theorem exists_recordedType {e : Expr} (noted : (recorded g actions).Noted e) :
    ∃ t, recordedType? g actions e = some t := by
  obtain ⟨x, listed, alike⟩ := noted
  cases found : (recorded g actions).types.find? fun (known, _) => known.same e with
  | some y => exact ⟨y.2, by rw [recordedType?, found]; rfl⟩
  | none => exact absurd alike (List.find?_eq_none.mp found x listed)

theorem noted_of_typedRules (made : g.WellMade) {rules : List (String × TypedRule)}
    (accepted : typedRules g actions = .ok rules) {name : String} {typed : TypedRule}
    (known : rules.lookup name = some typed) {q : TypedProduction} (listed : q ∈ typed.productions) {e part : Expr}
    (item : e ∈ q.items) (inside : e.Contains part) : (recorded g actions).Noted part := by
  obtain ⟨closed, same⟩ := closed_recorded made accepted
  have noted : (recorded g actions).Noted e := by
    refine closed.typed (name, typed) ?_ q listed e item
    rw [same]
    exact mem_of_lookup known
  exact noted.contains closed inside

theorem knows_of_typedRules (made : g.WellMade) {rules : List (String × TypedRule)}
    (accepted : typedRules g actions = .ok rules) {name other : String} {typed : TypedRule}
    (known : rules.lookup name = some typed) {q : TypedProduction} (listed : q ∈ typed.productions)
    (mentioned : other ∈ Expr.allReferences q.items) : g.Knows other := by
  obtain ⟨e, item, inside⟩ := Expr.contains_of_mem_allReferences _ mentioned
  have closed := (closed_recorded made accepted).1
  exact (noted_of_typedRules made accepted known listed item inside).knows closed

end

end Packrat.Typing
