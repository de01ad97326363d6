import Packrat.Parse.Basic
import Packrat.Typing.Typed

namespace Packrat

structure TypedGrammar where
  grammar : Grammar
  typedRules : List (String × TypedRule)

namespace TypedGrammar

def typed? (p : TypedGrammar) (name : String) : Option TypedRule := p.typedRules.lookup name

def isFor (p : TypedGrammar) : Input → Bool
  | .text _ => true
  | .tokens _ => p.grammar.usesTokens

section

variable (p : TypedGrammar) (input : Input) (call : String → Int → Run Value)

mutual
/-- Matches an expression. To look at the input takes another level for a literal or a token, and two
for a class. -/
def evaluate : Expr → Int → Run Value
  | .literal t, i => .nested 2 <|
    if p.isFor input then .terminal (input.literal? t i) i (Text.quote t) else .halt .onlyText
  | .oneOf set, i => .nested 3 <|
    if p.isFor input || !input.holds i then .terminal (input.class? set i) i set.text
    else .halt .onlyText
  | .reference name, i =>
    match p.grammar.rule? name, p.grammar.token? name with
    | some _, _ => .nested 1 (call name i)
    | none, some t => .nested 2 (.terminal (input.kind? t i) i t.description)
    | none, none => .halt (.unknownRule name)
  | .sequence items, i => .nested 1 <|
    (evaluateAll items i).andThen fun vs stop => .done (.gather (select (Expr.contributing items) vs)) stop
  | .choice alternatives, i => .nested 1 (evaluateFirst alternatives i)
  | .optional item, i => .nested 1 ((evaluate item i).orElse (.done .none i))
  | .repetition atLeastOnce item, i =>
    .nested 1 (.many (evaluate item) atLeastOnce ((input.size - i).toNat + 1) [] i)
  | .bind _ item, i => evaluate item i
  | .ahead item, i => .nested 1 ((evaluate item i).andThen fun _ _ => .done .none i)
  | .notAhead item, i => .nested 1 (.negate (evaluate item i) i ("not " ++ item.text))
  | .unknown _, _ => .noMatch

def evaluateAll : List Expr → Int → Run (List Value)
  | [], i => .done [] i
  | e :: es, i =>
    (evaluate e i).andThen fun v stop =>
      (evaluateAll es stop).andThen fun vs stop => .done (v :: vs) stop

def evaluateFirst : List Expr → Int → Run Value
  | [], _ => .noMatch
  | e :: es, i => (evaluate e i).orElse (evaluateFirst es i)
end

def finish (typed : TypedProduction) (start : Int) (values : List Value) (stop : Int) : Run Value :=
  .inRoomFor 3 fun _ s =>
    let events := match typed.action with
      | some action => .acting start stop action.label :: s.events
      | none => s.events
    match typed.value values with
    | .ok v => (.matched v stop, { s with events })
    | .error (.fault f) => (.halted (.fault f), { s with events })
    | .error (.misfit _) => (.halted .shapeless, { s with events })

def production (typed : TypedProduction) (i : Int) : Run Value :=
  .nested 1 ((evaluateAll p input call typed.items i).andThen (finish typed i))

def firstProduction : List TypedProduction → Int → Run Value
  | [], _ => .noMatch
  | typed :: rest, i => (production p input call typed i).orElse (firstProduction rest i)

def body (typed : TypedRule) (i : Int) : Run Value :=
  let choice := .nested 1 (firstProduction p input call typed.productions i)
  match typed.errorName with
  | none => choice
  | some name => .nested 1 (.named name i choice)

end

end TypedGrammar

end Packrat
