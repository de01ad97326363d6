import Packrat.LeftRecursion.Basic

namespace Packrat

namespace Expr

section

variable (nullable : String → Bool)

mutual
def obstacleToNullable : Expr → Option String
  | .literal _ | .oneOf _ | .reference _ | .optional _ | .ahead _ | .notAhead _ => none
  | .sequence items => obstacleToAllNullable items
  | .choice alternatives => obstacleToAnyNullable alternatives
  | .repetition atLeastOnce item => if atLeastOnce then obstacleToNullable item else none
  | .bind _ item => obstacleToNullable item
  | .unknown shown => some shown

def obstacleToAllNullable : List Expr → Option String
  | [] => none
  | e :: es =>
    (obstacleToNullable e).or (if e.isNullable nullable then obstacleToAllNullable es else none)

def obstacleToAnyNullable : List Expr → Option String
  | [] => none
  | e :: es =>
    (obstacleToNullable e).or (if e.isNullable nullable then none else obstacleToAnyNullable es)
end

mutual
def obstacleToCallees : Expr → Option String
  | .literal _ | .oneOf _ | .reference _ => none
  | .sequence items => obstacleToSequenceCallees items
  | .choice alternatives => obstacleToChoiceCallees alternatives
  | .optional item | .repetition _ item | .bind _ item | .ahead item | .notAhead item =>
    obstacleToCallees item
  | .unknown shown => some shown

def obstacleToSequenceCallees : List Expr → Option String
  | [] => none
  | e :: es =>
    ((obstacleToCallees e).or (e.obstacleToNullable nullable)).or
      (if e.isNullable nullable then obstacleToSequenceCallees es else none)

def obstacleToChoiceCallees : List Expr → Option String
  | [] => none
  | e :: es => (obstacleToCallees e).or (obstacleToChoiceCallees es)
end

variable (startable : String → Bool)

mutual
def obstacleToStart : Expr → Option String
  | .literal _ | .oneOf _ | .reference _ | .optional _ | .notAhead _ => none
  | .sequence items => obstacleToSequenceStart items
  | .choice alternatives => obstacleToAnyStart alternatives
  | .repetition atLeastOnce item => if atLeastOnce then obstacleToStart item else none
  | .bind _ item | .ahead item => obstacleToStart item
  | .unknown shown => some shown

def obstacleToSequenceStart : List Expr → Option String
  | [] => none
  | e :: es =>
    (obstacleToStart e).or <|
      if e.canStart nullable startable then
        (e.obstacleToNullable nullable).or
          (if e.isNullable nullable then obstacleToSequenceStart es else none)
      else none

def obstacleToAnyStart : List Expr → Option String
  | [] => none
  | e :: es =>
    (obstacleToStart e).or (if e.canStart nullable startable then none else obstacleToAnyStart es)
end

end

end Expr

namespace Grammar

def obstacleToNullable (g : Grammar) : Option String :=
  let asked := Saturation.questions (fun nullable name => (g.body name).isNullable nullable) g.ruleNames
  asked.findSome? fun (members, name) => (g.body name).obstacleToNullable (fun n => n ∈ members)

def obstacleToCallees (g : Grammar) : Option String :=
  let nullable := g.nullableRules
  g.rules.findSome? fun r => r.body.obstacleToCallees (fun name => name ∈ nullable)

end Grammar

namespace LeftRecursion

def obstacleToStart (g : Grammar) (cycles : List (List String)) : Option String :=
  let nullable := g.nullableRules
  let members := cycles.flatten
  (Saturation.questions (joinsStartable g nullable members) members).findSome?
    fun (startable, name) =>
      (g.body name).obstacleToStart (fun n => n ∈ nullable)
        (countsOn members fun n => n ∈ startable)

/-- What stands in the way of finding the rules that can match without consuming input, and then of
finding left recursion. Nothing does in a grammar that is made of expressions only. -/
def obstacles (g : Grammar) : Option String × Option String :=
  if g.isKnown then (none, none)
  else (g.obstacleToNullable, g.obstacleToCallees.or (obstacleToStart g (cyclesOf g.leftCallees)))

end LeftRecursion

end Packrat
