import Packrat.Event
import Packrat.Index
import Packrat.Lexer.Pattern
import Packrat.Lexer.Table
import Packrat.ParseError
import Packrat.Room

namespace Packrat

structure TokenSet where
  tokens : List TokenRule
  table : LexTable
  state : Option String := none

structure Lexer where
  main : TokenSet
  states : List (String × TokenSet) := []

abbrev Reporting (ε : Type) := ExceptT ε (StateM (List Event))

def report {ε : Type} (e : Event) : Reporting ε Unit := modify (e :: ·)

namespace TokenSet

def ofTokens (tokens : List TokenRule) (rules : List String) (state : Option String) :
    Reporting Refusal TokenSet := do
  let (root, automaton) ← liftM (Pattern.Scope.automaton ⟨tokens, rules⟩)
  let table := LexTable.ofAutomaton root automaton
  report (.tableBuilt tokens.length table.size state)
  return { tokens, table, state }

def checkToken (states : List String) (state : Option String) (t : TokenRule) :
    Except GrammarError Unit :=
  match t.enter.filter (· ∉ states) with
  | some missing => .error
      ⟨.unresolvedReference,
        s!"{t.name} enters the lexer state {missing}, which doesn't exist", some t.name⟩
  | none =>
    if t.leave && state.isNone then
      .error ⟨.invalidToken, s!"{t.name} leaves a lexer state, but it isn't in one", some t.name⟩
    else .ok ()

def check (states : List String) (set : TokenSet) : Except GrammarError Unit := do
  set.tokens.forM (checkToken states set.state)
  match set.state with
  | some name =>
    if set.tokens.any (·.leave) then .ok ()
    else .error ⟨.invalidToken, s!"Nothing ever leaves the lexer state {name}", some name⟩
  | none => .ok ()

def next (set : TokenSet) (rest : List Char) : Option (TokenRule × Nat) := do
  let (index, length) ← set.table.longestMatch rest
  let token ← set.tokens[index]?
  return (token, length)

def expected (set : TokenSet) : TextSet :=
  .ofList ((set.tokens.filter (!·.skip)).map (·.description))

end TokenSet

namespace Lexer

def ofTokens (tokens : List TokenRule) (rules : List String) (states : List (String × List TokenRule)) :
    Reporting Refusal Lexer := do
  let main ← TokenSet.ofTokens tokens rules none
  let states ← states.mapM fun (name, tokens) => do
    return (name, ← TokenSet.ofTokens tokens rules (some name))
  let names := states.map (·.1)
  liftM ((states.forM fun (_, set) => set.check names).mapError Refusal.grammar)
  liftM ((main.check names).mapError Refusal.grammar)
  return { main, states }

inductive Failure where
  | lexical (e : ParseError)
  | fault (f : Fault)
  | nestedTooDeeply

structure Place where
  lines : List Nat
  index : Nat

def lexicalError (place : Place) (set : TokenSet) (pos : Nat) (rest : List Char) : ParseError where
  kind := .lexicalError
  position := .ofOffset place.index pos place.lines
  expected := set.expected
  found := match rest with
    | [] => some "end of input"
    | c :: _ => some (Text.quote (String.singleton c))

structure Match where
  token : TokenRule
  stop : Nat
  rest : List Char
  value : Value

def takeRoom (levels : Nat) (room : Room) : Reporting Failure Room :=
  match room.take? levels with
  | some left => return left
  | none => throw .nestedTooDeeply

def callAction (action : Option Action) (v : Value) (otherwise : Value) : Reporting Failure Value :=
  match action with
  | some action => liftM ((action.run (.positional v)).mapError Failure.fault)
  | none => return otherwise

/-- Matches one token of a set, along with what it does in the lexer state that it enters. That takes
a level of the room, and looking at the text takes two more for as long as it lasts. -/
def matchToken
    (runState : String → Room → Nat → List Char → Reporting Failure (List Value × Nat × List Char))
    (place : Place) (set : TokenSet) (room : Room) (pos : Nat) (rest : List Char) :
    Reporting Failure Match := do
  let room ← takeRoom 1 room
  discard (takeRoom 2 room)
  match set.next rest with
  | none => throw (.lexical (lexicalError place set pos rest))
  | some (token, length) => do
    let text := String.ofList (rest.take length)
    let rest := rest.drop length
    report (.tokenMatched token.name text pos)
    match token.enter with
    | some state => do
      let (parts, stop, rest) ← runState state (← takeRoom 1 room) (pos + length) rest
      return ⟨token, stop, rest, ← callAction token.action (.list parts) (.list parts)⟩
    | none => return ⟨token, pos + length, rest, ← callAction token.action (.text text) .none⟩

/-- Matches tokens of a lexer state up to the one that leaves it, and collects the values of the
others. Each takes some of the text, so `fuel` need only exceed the length of what is left. -/
def runState (lexer : Lexer) (place : Place) : (fuel : Nat) → (parts : List Value) → String → Room →
    Nat → List Char → Reporting Failure (List Value × Nat × List Char)
  | 0, _, _, _, pos, rest => throw (.lexical (lexicalError place lexer.main pos rest))
  | fuel + 1, parts, state, room, pos, rest => do
    let set := (lexer.states.lookup state).getD lexer.main
    let m ← matchToken (runState lexer place fuel []) place set room pos rest
    if m.token.leave then return (parts.reverse, m.stop, m.rest)
    else
      let text := Value.text (String.ofList (rest.take (m.stop - pos)))
      let value := if m.token.makesValue then m.value else text
      runState lexer place fuel (if m.token.skip then parts else value :: parts) state room m.stop
        m.rest

def tokenizeFrom (lexer : Lexer) (room : Room) (lines : List Nat) : (fuel : Nat) → (index : Nat) →
    (found : List Token) → Nat → List Char → Reporting Failure (List Token)
  | 0, _, found, _, _ | _, _, found, _, [] => return found.reverse
  | fuel + 1, index, found, pos, rest => do
    let place : Place := ⟨lines, index⟩
    let m ← matchToken (lexer.runState place (rest.length + 1) []) place lexer.main room pos rest
    let token : Token :=
      ⟨m.token.name, String.ofList (rest.take (m.stop - pos)), pos, m.stop, m.value⟩
    if m.token.skip then lexer.tokenizeFrom room lines fuel index found m.stop m.rest
    else lexer.tokenizeFrom room lines fuel (index + 1) (token :: found) m.stop m.rest

def tokenize (lexer : Lexer) (room : Room) (text : String) : Reporting Failure (List Token) :=
  let chars := text.toList
  lexer.tokenizeFrom room (lineBreaksFrom 0 chars) chars.length 0 [] 0 chars

def next (lexer : Lexer) (text : String) (offset : Int) :
    Except BeforeStart (Option (TokenRule × Int)) := do
  let rest ← readFrom text.toList offset
  return (lexer.main.next rest).map fun (token, length) => (token, offset + length)

end Lexer

end Packrat
