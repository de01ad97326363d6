import Packrat.Parse.Evaluate

namespace Packrat

namespace Parse

def modifyEntry (s : Parse) (c : Call) (f : Entry → Entry) : Parse :=
  { s with memo := Memo.modify c f s.memo }

def makeProvisional (calls : List Call) (s : Parse) : Parse :=
  calls.foldl (fun s c => s.modifyEntry c fun e => { e with provisional := true }) s

def callsAbove (s : Parse) (depth : Nat) : List Call :=
  s.stack.take (s.stack.length - (depth + 1))

def reuse (entry : Entry) : Run Value := fun _ s =>
  let s :=
    if entry.settled then { s with failures := s.failures.merge entry.failures }
    else
      (s.modifyEntry entry.call fun e => { e with reentered := true }).makeProvisional
        (s.callsAbove entry.depth)
  match entry.result with
  | some (v, stop) => (.matched v stop, s)
  | none => (.failed, s)

def enter (c : Call) (s : Parse) : Parse :=
  { s with
    memo := s.memo.insert { call := c, depth := s.stack.length }
    stack := c :: s.stack
    failures := {} }

def leave (c : Call) (saved : Failures) (s : Parse) : Parse :=
  let own := s.failures
  { s.modifyEntry c (fun e => { e with failures := own }) with
    stack := s.stack.tail
    failures := saved.merge own }

/-- Remembers the result of a call, unless it depends on a seed that is still growing. -/
def remember (c : Call) (result : Result) (s : Parse) : Parse :=
  match s.memo.get? c with
  | some entry =>
    if entry.provisional then { s with memo := Memo.erase c s.memo }
    else s.modifyEntry c fun e => { e with result, settled := true }
  | none => s

def isReentered (c : Call) (s : Parse) : Bool := ((s.memo.get? c).map (·.reentered)).getD false

def plantSeed (c : Call) (v : Value) (stop : Int) (s : Parse) : Parse :=
  s.modifyEntry c fun e => { e with result := some (v, stop), rounds := e.rounds + 1 }

def reportGrowth (c : Call) (stop : Int) (s : Parse) : Parse :=
  let rounds := ((s.memo.get? c).map (·.rounds)).getD 0
  { s with events := .grew c.rule c.start stop rounds :: s.events }

end Parse

open Parse

/-- Evaluates a call again from the seed that its last match is, until the match gets no longer. Every
round but the last gets further, so `rounds` need only exceed the length of what is left. -/
def growFrom (body : Run Value) (c : Call) : (rounds : Nat) → Value → Int → Run Value
  | 0, _, _ => .halt .exhausted
  | rounds + 1, v, stop => fun room s =>
    match body room (s.plantSeed c v stop) with
    | (.halted h, s) => (.halted h, s)
    | (.failed, s) => (.matched v stop, s.reportGrowth c stop)
    | (.matched v' stop', s) =>
      if stop' ≤ stop then (.matched v stop, s.reportGrowth c stop)
      else growFrom body c rounds v' stop' room s

def settle (body : Run Value) (c : Call) (size : Nat) (v : Value) (stop : Int) : Run Value :=
  fun room s =>
    if s.isReentered c then Run.nested 1 (growFrom body c ((size - stop).toNat + 1) v stop) room s
    else (.matched v stop, s)

def evaluateCall (body : Run Value) (c : Call) (size : Nat) : Run Value := .inRoomFor 2 fun room s =>
  let saved := s.failures
  match body.andThen (settle body c size) room (s.enter c) with
  | (.halted h, s) => (.halted h, s.leave c saved)
  | (.failed, s) => (.failed, (s.leave c saved).remember c none)
  | (.matched v stop, s) => (.matched v stop, (s.leave c saved).remember c (some (v, stop)))

namespace TypedGrammar

def callWithin (p : TypedGrammar) (input : Input) : (depth : Nat) → String → Int → Run Value
  | depth, name, i => .nested 1 fun room s =>
    match s.memo.get? ⟨i, name⟩ with
    | some entry => reuse entry room s
    | none =>
      match p.typed? name, depth with
      | none, _ => (.halted (.unknownRule name), s)
      | some _, 0 => (.halted .exhausted, s)
      | some typed, depth + 1 =>
        evaluateCall (p.body input (callWithin p input depth) typed i) ⟨i, name⟩ input.size room s

def apply (p : TypedGrammar) (input : Input) (name : String) (i : Int) : Run Value :=
  p.callWithin input (p.typedRules.length * ((input.size - i).toNat + 2) + 1) name i

end TypedGrammar

end Packrat
