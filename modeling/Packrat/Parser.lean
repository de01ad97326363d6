import Packrat.LeftRecursion.Basic
import Packrat.Lexer.Basic
import Packrat.Parse.Apply
import Packrat.Parse.Report
import Packrat.Typing.Inference

namespace Packrat

structure Parser where
  typed : TypedGrammar
  leftRecursion : LeftRecursion
  lexer : Option Lexer

namespace Parser

def grammar (p : Parser) : Grammar := p.typed.grammar

def unshowable? (typedRules : List (String × TypedRule)) : Option Unshowable :=
  typedRules.findSome? fun (_, typed) => typed.productions.findSome? fun p => Expr.firstUnshowable? p.items

def compileLexer (g : Grammar) : Reporting Refusal (Option Lexer) :=
  if g.usesTokens then some <$> Lexer.ofTokens g.tokens g.ruleNames g.states else return none

def reportCompiled (g : Grammar) (typedRules : List (String × TypedRule)) (l : LeftRecursion) :
    Reporting Refusal Unit := do
  report (.grammarCompiled g.name g.rules.length g.tokens.length l.cycles.length)
  typedRules.forM fun (name, typed) => report (.ruleTyped name typed.type.text (l.of name).text)

def ofGrammar (g : Grammar) (actions : List (String × Action)) : Reporting Refusal Parser := do
  let lexer ← compileLexer g
  let typedRules ← liftM (Typing.typedRules g actions)
  let leftRecursion ← liftM ((LeftRecursion.ofGrammar g).mapError Refusal.grammar)
  reportCompiled g typedRules leftRecursion
  match unshowable? typedRules with
  | none => return { typed := ⟨g, typedRules⟩, leftRecursion, lexer }
  | some why => throw (.notShowable why)

def ruleType? (p : Parser) (rule : String) : Option ValueType := (p.typed.typed? rule).map (·.type)

def recursion? (p : Parser) (rule : String) : Option Recursion :=
  p.leftRecursion.recursion.lookup rule

inductive Misuse where
  | noEntryRules
  | noRule (name : String)
  | noEntryRule (name : String)
  | onlyText
  | noTokens
  deriving Repr, DecidableEq

def Misuse.message (grammar : String) : Misuse → String
  | .noEntryRules => grammar ++ " has no entry rules"
  | .noRule name => grammar ++ " has no rule named " ++ name
  | .noEntryRule name => name ++ " is not an entry rule, so parsing can't start there"
  | .onlyText => grammar ++ " has no tokens, so it can only parse text"
  | .noTokens => grammar ++ " has no tokens"

inductive Failure where
  | misuse (m : Misuse)
  | input (e : ParseError)
  | halted (h : Halt)

inductive Subject where
  | text (t : String)
  | tokens (ts : List Token)

def ofLexer : Lexer.Failure → Failure
  | .lexical e => .input e
  | .fault f => .halted (.fault f)
  | .nestedTooDeeply => .halted .nestedTooDeeply

def mapFailure {ε δ α : Type} (f : ε → δ) (work : Reporting ε α) : Reporting δ α :=
  ExceptT.mk do return (← work.run).mapError f

def tokenize (p : Parser) (room : Room) (text : String) : Reporting Failure (List Token) :=
  match p.lexer with
  | some lexer => mapFailure ofLexer (lexer.tokenize room text)
  | none => throw (.misuse .noTokens)

def startRule (p : Parser) (rule : Option String) : Except Misuse String := do
  let name ← match rule, p.grammar.entries with
    | some name, _ => .ok name
    | none, name :: _ => .ok name
    | none, [] => .error .noEntryRules
  match p.grammar.rule? name with
  | none => .error (.noRule name)
  | some r => if r.entry then .ok name else .error (.noEntryRule name)

def prepare (p : Parser) (room : Room) (subject : Subject) : Reporting Failure (Input × Source) :=
  match p.lexer, subject with
  | some _, .text t => do return (.tokens (← p.tokenize room t).toArray, some t.toList)
  | some _, .tokens ts => return (.tokens ts.toArray, none)
  | none, .text t => return (.text t.toList.toArray, some t.toList)
  | none, .tokens _ => throw (.misuse .onlyText)

def conclude (input : Input) (source : Source) (complete : Bool) (outcome : Outcome Value)
    (failures : Failures) : Except Failure Value :=
  match outcome with
  | .matched v stop =>
    if complete && stop != input.size then
      .error (.input ((failures.fail stop "end of input").error input source))
    else .ok v
  | .failed => .error (.input (failures.error input source))
  | .halted (.fault .tooDeep) | .halted .nestedTooDeeply => .error (.input
      { kind := .nestedTooDeeply, position := input.position source failures.furthest.toNat })
  | .halted h => .error (.halted h)

/-- Parses from a rule, or else from the first entry rule, in the room that there is for rules inside
each other. The rule need only match the beginning of the input unless `complete` is asked for. -/
def parse (p : Parser) (room : Room) (rule : Option String) (subject : Subject) (complete : Bool) :
    Reporting Failure Value := do
  let name ← liftM ((p.startRule rule).mapError Failure.misuse)
  let (input, source) ← p.prepare room subject
  let (outcome, state) := p.typed.apply input name 0 room { events := ← get }
  set state.events
  liftM (conclude input source complete outcome state.failures)

end Parser

end Packrat
