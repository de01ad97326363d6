import Packrat.Text.Quoted

namespace Packrat

inductive Event where
  | tableBuilt (tokens states : Nat) (state : Option String)
  | tokenMatched (name text : String) (start : Nat)
  | grammarCompiled (name : String) (rules tokens cycles : Nat)
  | ruleTyped (name type recursion : String)
  | grew (rule : String) (start stop : Int) (rounds : Nat)
  | acting (start stop : Int) (label : String)
  deriving Repr, DecidableEq

namespace Event

def topic : Event → String
  | .tableBuilt .. | .tokenMatched .. => "lexer"
  | .grammarCompiled .. | .ruleTyped .. => "compile"
  | .grew .. => "memo"
  | .acting .. => "action"

inductive Level where
  | debug
  | info
  deriving Repr, DecidableEq

def level : Event → Level
  | .tableBuilt .. | .grammarCompiled .. => .info
  | _ => .debug

def message : Event → String
  | .tableBuilt tokens states state =>
    let place := match state with
      | some name => " for lexer state " ++ name
      | none => ""
    s!"compiled {tokens} tokens into {states} states{place}"
  | .tokenMatched name text start => s!"{name} {Text.quote text} at {start}"
  | .grammarCompiled name rules tokens cycles =>
    s!"compiled {name}: {rules} rules, {tokens} tokens, {cycles} left-recursive cycles"
  | .ruleTyped name type recursion => s!"  {name}: {type} ({recursion} recursion)"
  | .grew rule start stop rounds => s!"grew {rule} at {start} to {stop} in {rounds} rounds"
  | .acting start stop label => s!"action at {start}-{stop}: {label}"

end Event

end Packrat
