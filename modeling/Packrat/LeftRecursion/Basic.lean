import Packrat.Grammar.Basic
import Packrat.Graph
import Packrat.LeftRecursion.Calls
import Packrat.LeftRecursion.Saturation

namespace Packrat

def Rule.body (r : Rule) : Expr := .choice (r.productions.map fun p => .sequence p.items)

inductive Recursion where
  | none
  | direct
  | indirect
  deriving Repr, DecidableEq

def Recursion.text : Recursion → String
  | .none => "none"
  | .direct => "direct"
  | .indirect => "indirect"

namespace Grammar

def body (g : Grammar) (name : String) : Expr := ((g.rule? name).map Rule.body).getD (.choice [])

def nullableRules (g : Grammar) : List String :=
  Saturation.saturate (fun nullable name => (g.body name).isNullable nullable) g.ruleNames

def isNullable (g : Grammar) (name : String) : Bool := name ∈ g.nullableRules

def leftCallees (g : Grammar) : List (String × TextSet) :=
  let nullable := g.nullableRules
  g.rules.map fun r =>
    (r.name, r.body.leftCallees (fun name => name ∈ nullable) (fun name => name ∈ g.ruleNames))

end Grammar

structure LeftRecursion where
  recursion : List (String × Recursion)
  cycles : List (List String)
  calls : List (String × TextSet)

namespace LeftRecursion

def callsOf (calls : List (String × TextSet)) (name : String) : TextSet :=
  (calls.lookup name).getD .empty

def isCycle (calls : List (String × TextSet)) : List String → Bool
  | [name] => name ∈ callsOf calls name
  | _ => true

def recursionOf (calls : List (String × TextSet)) (cycles : List (List String)) (name : String) :
    Recursion :=
  if name ∈ callsOf calls name then .direct
  else if cycles.any (·.contains name) then .indirect
  else .none

def countsOn (members : List String) (startable : String → Bool) (name : String) : Bool :=
  name ∉ members || startable name

def joinsStartable (g : Grammar) (nullable members : List String) (startable : String → Bool)
    (name : String) : Bool :=
  (g.body name).canStart (fun n => n ∈ nullable) (countsOn members startable)

/-- The members of cycles that have a way to match which does not begin by calling back into a cycle,
or begins only by calling members that have one. -/
def startableRules (g : Grammar) (cycles : List (List String)) : List String :=
  let members := cycles.flatten
  Saturation.saturate (joinsStartable g g.nullableRules members) members

def noBaseCase (g : Grammar) (cycle : List String) (stuck : String) : GrammarError where
  kind := .noBaseCase
  text := s!"{stuck} is left-recursive but every way of matching it starts by calling back into " ++
    ", ".intercalate (g.ruleNames.filter (· ∈ cycle)) ++ ", so it can never match anything"
  blamed := some stuck

def checkCycles (g : Grammar) (startable : List String) : List (List String) → Except GrammarError Unit
  | [] => .ok ()
  | cycle :: rest =>
    match g.ruleNames.find? fun name => name ∈ cycle && name ∉ startable with
    | some stuck => .error (noBaseCase g cycle stuck)
    | none => checkCycles g startable rest

def cyclesOf (calls : List (String × TextSet)) : List (List String) :=
  let graph : Graph := calls.map fun (name, called) => (name, called.toList)
  graph.components.filter (isCycle calls)

def ofGrammar (g : Grammar) : Except GrammarError LeftRecursion := do
  let calls := g.leftCallees
  let cycles := cyclesOf calls
  checkCycles g (startableRules g cycles) cycles
  return { recursion := g.ruleNames.map fun name => (name, recursionOf calls cycles name), cycles, calls }

def of (l : LeftRecursion) (name : String) : Recursion := (l.recursion.lookup name).getD .none

end LeftRecursion

end Packrat
