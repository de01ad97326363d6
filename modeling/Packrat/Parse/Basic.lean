import Packrat.Action
import Packrat.CharClass
import Packrat.Event
import Packrat.Grammar.Basic
import Packrat.Index
import Packrat.Parse.Memo
import Packrat.Room

namespace Packrat

inductive Input where
  | text (chars : Array Char)
  | tokens (tokens : Array Token)

namespace Input

def size : Input → Nat
  | .text chars => chars.size
  | .tokens ts => ts.size

def holds (input : Input) (i : Int) : Bool := -input.size ≤ i ∧ i < input.size

def charsMatch (chars : Array Char) : Nat → List Char → Bool
  | _, [] => true
  | i, c :: cs => chars[i]? == some c && charsMatch chars (i + 1) cs

/-- Whether a text goes on with a literal at an index. One that reaches back beyond the start stands
for the start. -/
def goesOnWith (chars : Array Char) (t : String) (i : Int) : Bool :=
  let place := if 0 ≤ i then i.toNat else (chars.size + i).toNat
  place ≤ chars.size && charsMatch chars place t.toList

def tokenWhere? (tokens : Array Token) (holds : Token → Bool) (i : Int) :
    Except BeforeStart (Option Token) :=
  (elementAt tokens i).map (·.filter holds)

def isOneOf (set : CharClass) (t : Token) : Bool :=
  match t.text.toList with
  | [c] => set.contains c.toNat
  | _ => false

def literal? (input : Input) (t : String) (i : Int) : Except BeforeStart Result :=
  match input with
  | .text chars => .ok (if goesOnWith chars t i then some (.text t, i + t.length) else none)
  | .tokens ts => (tokenWhere? ts (·.text == t) i).map (·.map fun t => (t.toValue, i + 1))

def class? (input : Input) (set : CharClass) (i : Int) : Except BeforeStart Result :=
  match input with
  | .text chars => (elementAt chars i).map fun found =>
      (found.filter fun c => set.contains c.toNat).map fun c => (.text (String.singleton c), i + 1)
  | .tokens ts => (tokenWhere? ts (isOneOf set) i).map (·.map fun t => (t.toValue, i + 1))

def kind? (input : Input) (kind : TokenRule) (i : Int) : Except BeforeStart Result :=
  match input with
  | .text _ => .ok none
  | .tokens ts => (tokenWhere? ts (·.kind == kind.name) i).map (·.map fun t =>
      (if kind.makesValue then t.value else t.toValue, i + 1))

end Input

structure Parse where
  memo : Memo := []
  stack : List Call := []
  failures : Failures := {}
  events : List Event := []

inductive Halt where
  | fault (f : Fault)
  | unknownRule (name : String)
  | beforeStart
  | onlyText
  | nestedTooDeeply
  | shapeless
  | exhausted
  deriving Repr, DecidableEq

inductive Outcome (α : Type) where
  | matched (a : α) (stop : Int)
  | failed
  | halted (h : Halt)

abbrev Run (α : Type) := Room → Parse → Outcome α × Parse

namespace Run

variable {α β : Type}

def done (a : α) (stop : Int) : Run α := fun _ s => (.matched a stop, s)

def noMatch : Run α := fun _ s => (.failed, s)

def halt (h : Halt) : Run α := fun _ s => (.halted h, s)

@[inline] def fail (index : Int) (what : String) : Run α := fun _ s =>
  (.failed, { s with failures := s.failures.fail index what })

@[inline] def nested (levels : Nat) (m : Run α) : Run α := fun room s =>
  match room.take? levels with
  | some left => m left s
  | none => (.halted .nestedTooDeeply, s)

/-- Work that can be done only where there is room for some levels, and that does not keep them. -/
@[inline] def inRoomFor (levels : Nat) (m : Run α) : Run α := fun room s =>
  if room.holds levels then m room s else (.halted .nestedTooDeeply, s)

@[simp] theorem nested_unlimited (levels : Nat) (m : Run α) :
    nested levels m .unlimited = m .unlimited := rfl

@[simp] theorem inRoomFor_unlimited (levels : Nat) (m : Run α) :
    inRoomFor levels m .unlimited = m .unlimited := rfl

def andThen (m : Run α) (next : α → Int → Run β) : Run β := fun room s =>
  match m room s with
  | (.matched a stop, s) => next a stop room s
  | (.failed, s) => (.failed, s)
  | (.halted h, s) => (.halted h, s)

def orElse (m other : Run α) : Run α := fun room s =>
  match m room s with
  | (.failed, s) => other room s
  | r => r

@[inline] def terminal (result : Except BeforeStart Result) (index : Int) (what : String) : Run Value :=
  match result with
  | .ok (some (v, stop)) => done v stop
  | .ok none => fail index what
  | .error _ => halt .beforeStart

/-- Matches nothing where `m` does not match. What fails inside `m` is no failure of the parse. -/
@[inline] def negate (m : Run Value) (index : Int) (what : String) : Run Value := fun room s =>
  let saved := s.failures
  match m room { s with failures := {} } with
  | (.halted h, s) => (.halted h, s)
  | (.matched _ _, s) => fail index what room { s with failures := saved }
  | (.failed, s) => (.matched .none index, { s with failures := saved })

def repeated (atLeastOnce : Bool) (values : List Value) (stop : Int) : Run Value :=
  if atLeastOnce && values.isEmpty then noMatch else done (.list values.reverse) stop

/-- Repeats an item for as long as it matches and gets further. A match of nothing ends the
repetition, and counts only where there has to be one. Every round but the last gets further, so
`rounds` need only exceed the length of what is left. -/
def many (item : Int → Run Value) (atLeastOnce : Bool) :
    (rounds : Nat) → (values : List Value) → (index : Int) → Run Value
  | 0, _, _ => halt .exhausted
  | rounds + 1, values, index => fun room s =>
    match item index room s with
    | (.halted h, s) => (.halted h, s)
    | (.failed, s) => repeated atLeastOnce values index room s
    | (.matched v stop, s) =>
      if stop = index then
        repeated atLeastOnce (if atLeastOnce && values.isEmpty then [v] else values) index room s
      else many item atLeastOnce rounds (v :: values) stop room s

/-- Work that is known by a name: when it fails without getting past where it started, the name is
what was expected there. -/
def named (name : String) (index : Int) (m : Run Value) : Run Value := fun room s =>
  let saved := s.failures
  match m room { s with failures := {} } with
  | (.halted h, s) => (.halted h, s)
  | (.matched v stop, s) => (.matched v stop, { s with failures := s.failures.merge saved })
  | (.failed, s) =>
    let failures := if s.failures.furthest ≤ index then ⟨index, .ofList [name]⟩ else s.failures
    (.failed, { s with failures := failures.merge saved })

end Run

end Packrat
