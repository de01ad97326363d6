import Packrat.Grammar.Basic
import Packrat.Grammar.Refusal
import Packrat.Lexer.Automaton

namespace Packrat.Pattern

abbrev Building := StateT Automaton (Except Refusal)

def newState : Building Nat := modifyGet (·.addState)

/-- What a pattern adds to an automaton: the state that its matches start from, and those that they end in. -/
structure Fragment where
  start : Nat
  ends : List Nat

def invalid {α : Type} (blamed : Option String) (text : String) : Building α :=
  throw (.grammar ⟨.invalidToken, text, blamed⟩)

def lookahead (blamed : Option String) (e : Expr) : Building Fragment := do
  let text ← e.describe
  invalid blamed s!"Token patterns can't use lookahead: {text}"

section

variable (resolve : String → Building Fragment) (blamed : Option String)

mutual
def fragment : Expr → Building Fragment
  | .literal t => do
    let start ← newState
    let stop ← modifyGet (·.addChain start t.toList)
    return ⟨start, [stop]⟩
  | .oneOf set => do
    let start ← newState
    let stop ← newState
    modify (·.addEdges start set.spans stop)
    return ⟨start, [stop]⟩
  | .reference name => resolve name
  | .sequence items => do
    let start ← newState
    return ⟨start, ← sequenceFrom [start] items⟩
  | .choice alternatives => do
    let start ← newState
    return ⟨start, ← choiceFrom start [] alternatives⟩
  | .optional item => do
    let start ← newState
    let inner ← fragment item
    modify (·.link [start] inner.start)
    return ⟨start, inner.ends ++ [start]⟩
  | .repetition true item => do
    let inner ← fragment item
    let stop ← newState
    modify (·.link inner.ends stop)
    modify (·.link [stop] inner.start)
    return ⟨inner.start, [stop]⟩
  | .repetition false item => do
    let start ← newState
    let inner ← fragment item
    modify (·.link [start] inner.start)
    modify (·.link inner.ends start)
    return ⟨start, [start]⟩
  | .bind _ item => fragment item
  | .ahead item => lookahead blamed (.ahead item)
  | .notAhead item => lookahead blamed (.notAhead item)
  | .unknown shown => throw (.unknownExpression shown)

def sequenceFrom (ends : List Nat) : List Expr → Building (List Nat)
  | [] => return ends
  | e :: es => do
    let item ← fragment e
    modify (·.link ends item.start)
    sequenceFrom item.ends es

def choiceFrom (start : Nat) (ends : List Nat) : List Expr → Building (List Nat)
  | [] => return ends
  | e :: es => do
    let alternative ← fragment e
    modify (·.link [start] alternative.start)
    choiceFrom start (ends ++ alternative.ends) es
end

end

/-- What references in patterns are looked up in: the tokens, of which the last of a name counts, and
the names of the rules, which patterns cannot refer to. -/
structure Scope where
  tokens : List TokenRule
  rules : List String

namespace Scope

def token? (scope : Scope) (name : String) : Option TokenRule :=
  scope.tokens.reverse.find? (·.name == name)

/-- Expands a reference. `active` are the tokens being expanded, the outermost first; expansions are
inside each other at most `depth` deep, which the number of tokens bounds. -/
def expand (scope : Scope) : (depth : Nat) → (active : List String) → String → Building Fragment
  | 0, active, name => recursive active name
  | depth + 1, active, name =>
    match scope.token? name with
    | some t =>
      if name ∈ active then recursive active name
      else fragment (expand scope depth (active ++ [name])) active.head? t.pattern
    | none =>
      if name ∈ scope.rules then
        invalid active.head? s!"Token patterns can't refer to the rule {name}"
      else throw (.grammar
        ⟨.unresolvedReference, s!"Reference to {name}, which is not a token", active.head?⟩)
where
  recursive (active : List String) (name : String) : Building Fragment :=
    invalid active.head?
      ("Token patterns can't be recursive: " ++ " -> ".intercalate (active ++ [name]))

def fragmentOf (scope : Scope) (t : TokenRule) : Building Fragment :=
  fragment (scope.expand scope.tokens.length [t.name]) (some t.name) t.pattern

def addToken (scope : Scope) (root : Nat) (t : TokenRule) (index : Nat) : Building Unit := do
  let f ← scope.fragmentOf t
  let closure := LexState.closure (← get) [f.start]
  if f.ends.any (· ∈ closure) then
    invalid (some t.name)
      s!"The pattern for {t.name} matches the empty string (defined at {t.location})"
  modify (·.acceptAt f.ends index)
  modify (·.link [root] f.start)

def addTokens (scope : Scope) : Building Nat := do
  let root ← newState
  scope.tokens.zipIdx.forM fun (t, index) => scope.addToken root t index
  return root

def automaton (scope : Scope) : Except Refusal (Nat × Automaton) := scope.addTokens.run {}

end Scope

end Packrat.Pattern
