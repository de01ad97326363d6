import Packrat.Parser
import Packrat.Proofs.LeftRecursion.BaseCases
import Packrat.Proofs.Parse.Conduct
import Packrat.Proofs.Typing.Regrouped

namespace Packrat

namespace Expr.Regrouped

variable {as bs : List Expr} {nullable isRule startable : String → Bool}

theorem allNullable_eq (regrouped : Regrouped as bs) : allNullable nullable bs = allNullable nullable as := by
  rw [← allNullable_allLaidOpen, regrouped.allLaidOpen_eq, allNullable_allLaidOpen]

theorem sequenceCallees_eq (regrouped : Regrouped as bs) :
    sequenceCallees nullable isRule bs = sequenceCallees nullable isRule as := by
  refine TextSet.ext_mem fun name => ?_
  rw [← mem_sequenceCallees_allLaidOpen, regrouped.allLaidOpen_eq, mem_sequenceCallees_allLaidOpen]

theorem sequenceCanStart_eq (regrouped : Regrouped as bs) :
    sequenceCanStart nullable startable bs = sequenceCanStart nullable startable as := by
  rw [← sequenceCanStart_allLaidOpen, regrouped.allLaidOpen_eq, sequenceCanStart_allLaidOpen]

end Expr.Regrouped

namespace Rule.Regrouped

variable {r r' : Rule}

theorem isNullable_body (regrouped : Rule.Regrouped r r') (nullable : String → Bool) :
    r'.body.isNullable nullable = r.body.isNullable nullable := by
  obtain ⟨productions, rfl, each⟩ := regrouped
  simp only [Rule.body, Expr.isNullable]
  generalize r.productions = before at each
  induction each with
  | nil => rfl
  | cons here _ ih =>
    obtain ⟨_, rfl, groups⟩ := here
    simp only [List.map_cons, Expr.anyNullable, Expr.isNullable, groups.allNullable_eq, ih]

theorem leftCallees_body (regrouped : Rule.Regrouped r r') (nullable isRule : String → Bool) :
    r'.body.leftCallees nullable isRule = r.body.leftCallees nullable isRule := by
  obtain ⟨productions, rfl, each⟩ := regrouped
  simp only [Rule.body, Expr.leftCallees]
  generalize r.productions = before at each
  induction each with
  | nil => rfl
  | cons here _ ih =>
    obtain ⟨_, rfl, groups⟩ := here
    simp only [List.map_cons, Expr.choiceCallees, Expr.leftCallees, groups.sequenceCallees_eq, ih]

theorem canStart_body (regrouped : Rule.Regrouped r r') (nullable startable : String → Bool) :
    r'.body.canStart nullable startable = r.body.canStart nullable startable := by
  obtain ⟨productions, rfl, each⟩ := regrouped
  simp only [Rule.body, Expr.canStart]
  generalize r.productions = before at each
  induction each with
  | nil => rfl
  | cons here _ ih =>
    obtain ⟨_, rfl, groups⟩ := here
    simp only [List.map_cons, Expr.anyCanStart, Expr.canStart, groups.sequenceCanStart_eq, ih]

end Rule.Regrouped

namespace Grammar.Regrouped

open LeftRecursion

variable {g h : Grammar}

theorem body {α : Type} {f : Expr → α} (regrouped : g.Regrouped h)
    (same : ∀ r r', Rule.Regrouped r r' → f r'.body = f r.body)
    (name : String) : f (h.body name) = f (g.body name) := by
  have found := regrouped.rule? name
  unfold Grammar.body
  generalize g.rule? name = rule, h.rule? name = rule' at found
  cases found with
  | none => rfl
  | some rules => exact same _ _ rules

theorem nullableRules (regrouped : g.Regrouped h) : h.nullableRules = g.nullableRules := by
  have bodies : (fun nullable name => (h.body name).isNullable nullable) =
      fun nullable name => (g.body name).isNullable nullable := by
    funext nullable name
    exact regrouped.body (fun _ _ rules => rules.isNullable_body nullable) name
  rw [Grammar.nullableRules, Grammar.nullableRules, bodies, regrouped.ruleNames]

theorem leftCallees (regrouped : g.Regrouped h) : h.leftCallees = g.leftCallees := by
  simp only [Grammar.leftCallees, regrouped.nullableRules, regrouped.ruleNames]
  refine map_eq_of_forall₂ regrouped.rules fun r r' rules => ?_
  rw [rules.leftCallees_body]
  obtain ⟨_, rfl, _⟩ := rules
  rfl

theorem startableRules (regrouped : g.Regrouped h) (cycles : List (List String)) :
    LeftRecursion.startableRules h cycles = LeftRecursion.startableRules g cycles := by
  have joins : joinsStartable h g.nullableRules cycles.flatten = joinsStartable g g.nullableRules cycles.flatten := by
    funext startable name
    exact regrouped.body (fun _ _ rules => rules.canStart_body _ _) name
  rw [LeftRecursion.startableRules, LeftRecursion.startableRules, regrouped.nullableRules, joins]

theorem checkCycles (regrouped : g.Regrouped h) (startable : List String) (cycles : List (List String)) :
    LeftRecursion.checkCycles h startable cycles = LeftRecursion.checkCycles g startable cycles := by
  induction cycles with
  | nil => rfl
  | cons cycle rest ih => simp only [LeftRecursion.checkCycles, noBaseCase, regrouped.ruleNames, ih]

theorem leftRecursion (regrouped : g.Regrouped h) : LeftRecursion.ofGrammar h = LeftRecursion.ofGrammar g := by
  simp only [LeftRecursion.ofGrammar, regrouped.leftCallees, regrouped.startableRules, regrouped.checkCycles,
    regrouped.ruleNames]

end Grammar.Regrouped

namespace TypedGrammar

variable {g h : Grammar} {rules : List (String × TypedRule)} {input : Input}

theorem isFor_regrouped (regrouped : g.Regrouped h) (input : Input) :
    isFor ⟨h, rules⟩ input = isFor ⟨g, rules⟩ input := by
  cases input with
  | text chars => rfl
  | tokens ts => exact regrouped.usesTokens

section

variable {call : String → Int → Run Value}

mutual
theorem evaluate_regrouped (regrouped : g.Regrouped h) : ∀ (e : Expr) (i : Int),
    evaluate ⟨h, rules⟩ input call e i = evaluate ⟨g, rules⟩ input call e i
  | .literal _, _ | .oneOf _, _ => by simp only [evaluate, isFor_regrouped regrouped]
  | .reference name, i => by
    have found := regrouped.rule? name
    simp only [evaluate]
    rw [regrouped.token? name]
    generalize g.rule? name = rule, h.rule? name = rule' at found
    cases found with
    | none => rfl
    | some rules => rfl
  | .sequence items, i => by simp only [evaluate, evaluateAll_regrouped regrouped items]
  | .choice alternatives, i => by simp only [evaluate, evaluateFirst_regrouped regrouped alternatives]
  | .optional item, i | .bind _ item, i | .ahead item, i | .notAhead item, i => by
    simp only [evaluate, evaluate_regrouped regrouped item]
  | .repetition _ item, i => by
    have items : evaluate ⟨h, rules⟩ input call item = evaluate ⟨g, rules⟩ input call item :=
      funext (evaluate_regrouped regrouped item)
    simp only [evaluate, items]
  | .unknown _, _ => rfl

theorem evaluateAll_regrouped (regrouped : g.Regrouped h) : ∀ (es : List Expr) (i : Int),
    evaluateAll ⟨h, rules⟩ input call es i = evaluateAll ⟨g, rules⟩ input call es i
  | [], _ => rfl
  | e :: es, i => by
    simp only [evaluateAll, evaluate_regrouped regrouped e, evaluateAll_regrouped regrouped es]

theorem evaluateFirst_regrouped (regrouped : g.Regrouped h) : ∀ (es : List Expr) (i : Int),
    evaluateFirst ⟨h, rules⟩ input call es i = evaluateFirst ⟨g, rules⟩ input call es i
  | [], _ => rfl
  | e :: es, i => by
    simp only [evaluateFirst, evaluate_regrouped regrouped e, evaluateFirst_regrouped regrouped es]
end

theorem firstProduction_regrouped (regrouped : g.Regrouped h) (productions : List TypedProduction) (i : Int) :
    firstProduction ⟨h, rules⟩ input call productions i = firstProduction ⟨g, rules⟩ input call productions i := by
  induction productions with
  | nil => rfl
  | cons typed rest ih => simp only [firstProduction, production, evaluateAll_regrouped regrouped, ih]

theorem body_regrouped (regrouped : g.Regrouped h) (typed : TypedRule) (i : Int) :
    body ⟨h, rules⟩ input call typed i = body ⟨g, rules⟩ input call typed i := by
  simp only [body, firstProduction_regrouped regrouped]

end

theorem callWithin_regrouped (regrouped : g.Regrouped h) (depth : Nat) :
    callWithin ⟨h, rules⟩ input depth = callWithin ⟨g, rules⟩ input depth := by
  -- By strong induction, so that what a call does before the depth matters is gone through once.
  induction depth using Nat.strongRecOn with
  | _ depth ih =>
    funext name i
    unfold callWithin
    congr 1
    funext room s
    have known : typed? ⟨h, rules⟩ name = typed? ⟨g, rules⟩ name := rfl
    rw [known]
    cases s.memo.get? ⟨i, name⟩ with
    | some entry => rfl
    | none =>
      cases typed? ⟨g, rules⟩ name with
      | none => rfl
      | some typed =>
        cases depth with
        | zero => rfl
        | succ depth =>
          dsimp only
          rw [ih depth (Nat.lt_succ_self depth), body_regrouped regrouped]

theorem apply_regrouped (regrouped : g.Regrouped h) (name : String) (i : Int) :
    apply ⟨h, rules⟩ input name i = apply ⟨g, rules⟩ input name i := by
  simp only [apply, callWithin_regrouped regrouped]

end TypedGrammar

namespace Parser

structure Interchangeable (p q : Parser) : Prop where
  typedRules : q.typed.typedRules = p.typed.typedRules
  leftRecursion : q.leftRecursion = p.leftRecursion
  lexer : q.lexer = p.lexer
  parse : q.parse = p.parse

variable {g h : Grammar}

theorem startRule_regrouped (regrouped : g.Regrouped h) {rules : List (String × TypedRule)} {l : LeftRecursion}
    {lexer : Option Lexer} (rule : Option String) :
    startRule ⟨⟨h, rules⟩, l, lexer⟩ rule = startRule ⟨⟨g, rules⟩, l, lexer⟩ rule := by
  have given (name : String) :
      startRule ⟨⟨h, rules⟩, l, lexer⟩ (some name) = startRule ⟨⟨g, rules⟩, l, lexer⟩ (some name) := by
    have found := regrouped.rule? name
    dsimp only [startRule, grammar, bind, Except.bind]
    generalize g.rule? name = rule, h.rule? name = rule' at found
    cases found with
    | none => rfl
    | some rules =>
      obtain ⟨_, rfl, _⟩ := rules
      rfl
  cases rule with
  | some name => exact given name
  | none =>
    unfold startRule grammar
    dsimp only
    rw [regrouped.entries]
    cases g.entries with
    | nil => rfl
    | cons name _ => exact given name

theorem interchangeable (regrouped : g.Regrouped h) (rules : List (String × TypedRule)) (l : LeftRecursion)
    (lexer : Option Lexer) : Interchangeable ⟨⟨g, rules⟩, l, lexer⟩ ⟨⟨h, rules⟩, l, lexer⟩ := by
  refine ⟨rfl, rfl, rfl, ?_⟩
  funext room rule subject complete
  unfold parse
  simp only [startRule_regrouped regrouped, TypedGrammar.apply_regrouped regrouped]
  rfl

theorem ofGrammar_inStep (regrouped : g.Regrouped h) (actions : List (String × Action)) :
    InStep Interchangeable (ofGrammar g actions) (ofGrammar h actions) := by
  have lexer : compileLexer h = compileLexer g := by
    rw [compileLexer, compileLexer, regrouped.usesTokens, regrouped.tokens, regrouped.ruleNames, regrouped.states]
  have reported : reportCompiled h = reportCompiled g := by
    funext rules l
    rw [reportCompiled, reportCompiled, regrouped.name, regrouped.tokens, ← regrouped.rules.length_eq]
  unfold ofGrammar
  rw [lexer, regrouped.leftRecursion, reported]
  refine .bind (.refl _) fun lexer => .bind (.lift (Typing.typedRules_alike regrouped)) fun rules => ?_
  refine .bind (.refl _) fun l => .bind (.refl _) fun _ => ?_
  split
  · exact .pure (interchangeable regrouped rules l lexer)
  · exact .throw _

/-- Of two grammars that differ in how items are grouped into sequences, both are typed in the same way, or both are refused
for an error of the same kind in the same rule. Their left recursion is the same, or both have the same rule without a base
case. If one is compiled so is the other, and every input comes to the same value or the same error with either. -/
theorem alike_in_any_groups (regrouped : g.Regrouped h) (actions : List (String × Action)) :
    Alike Eq (Typing.typedRules g actions) (Typing.typedRules h actions) ∧
      h.nullableRules = g.nullableRules ∧ LeftRecursion.ofGrammar h = LeftRecursion.ofGrammar g ∧
      InStep Interchangeable (ofGrammar g actions) (ofGrammar h actions) :=
  ⟨Typing.typedRules_alike regrouped, regrouped.nullableRules, regrouped.leftRecursion,
    ofGrammar_inStep regrouped actions⟩

def pluses (items : List Expr) : Grammar where
  rules := [⟨"sum", [⟨items, none⟩, ⟨[.literal "1"], none⟩], none, true, none, ""⟩]
  tokens := []
  states := []
  name := "pluses"
  distinctRules := List.nodup_singleton _
  distinctTokens := Grammar.distinctTokens_nil
  disjoint := nofun
  distinctInStates := Grammar.distinctInStates_nil

def plus : List Expr := [.bind "before" (.reference "sum"), .literal "+"]

def groupedPlus : List Expr :=
  [.sequence [.sequence [], .sequence [.bind "before" (.reference "sum")]], .sequence [.literal "+"]]

theorem pluses_in_any_groups : (pluses plus).Regrouped (pluses groupedPlus) ∧
    (∃ l, LeftRecursion.ofGrammar (pluses groupedPlus) = .ok l ∧ l.of "sum" = .direct) ∧
    ∃ p q, Reporting.Gives (ofGrammar (pluses plus) []) p ∧ Reporting.Gives (ofGrammar (pluses groupedPlus) []) q ∧
      q.typed.typedRules = p.typed.typedRules ∧ q.parse = p.parse ∧
      ((p.parse .unlimited none (.text "1++") true).run.run []).1.toBool = true := by
  have groups : Expr.Regrouped plus groupedPlus := Expr.regrouped_iff.mpr rfl
  have items : Production.Regrouped ⟨plus, none⟩ ⟨groupedPlus, none⟩ := ⟨groupedPlus, rfl, groups⟩
  have same : Production.Regrouped ⟨[.literal "1"], none⟩ ⟨[.literal "1"], none⟩ := ⟨_, rfl, .refl _⟩
  have regrouped : (pluses plus).Regrouped (pluses groupedPlus) :=
    ⟨.cons ⟨_, rfl, .cons items (.cons same .nil)⟩ .nil, rfl, rfl, rfl⟩
  obtain ⟨_, _, left, compiled⟩ := alike_in_any_groups regrouped []
  have analysed : ∃ l, LeftRecursion.ofGrammar (pluses plus) = .ok l ∧ l.of "sum" = .direct := ⟨_, rfl, by decide⟩
  obtain ⟨p, later, run, parsed⟩ : ∃ p later, (ofGrammar (pluses plus) []).run.run [] = (.ok p, later) ∧
      ((p.parse .unlimited none (.text "1++") true).run.run []).1.toBool = true := ⟨_, _, rfl, by decide +kernel⟩
  obtain ⟨alike, _⟩ := compiled []
  rw [run] at alike
  cases run' : (ofGrammar (pluses groupedPlus) []).run.run [] with
  | mk result later' =>
    rw [run'] at alike
    cases alike with
    | ok interchangeable =>
      exact ⟨regrouped, left ▸ analysed, p, _, ⟨[], later, run⟩, ⟨[], later', run'⟩, interchangeable.typedRules,
        interchangeable.parse, parsed⟩

end Parser

end Packrat
