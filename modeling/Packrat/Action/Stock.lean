import Packrat.Action

namespace Packrat.Action

def node (tag : String) : Action where
  label := "<tag " ++ tag ++ ">"
  run
    | .named (field :: fields) => .ok (.namedNode tag (field :: fields))
    | arguments => .ok (.node tag arguments.value)

def const (v : Value) : Action := ⟨"<const>", fun _ => .ok v⟩

def fail (message : String) : Action := ⟨"<raise>", fun _ => .error (.raised message)⟩

def tooDeep : Action := ⟨"<deep>", fun _ => .error .tooDeep⟩

mutual
def joinText : Value → Except Fault String
  | .none => .ok ""
  | .text t => .ok t
  | .int n => .ok (toString n)
  | .token _ t _ _ _ => .ok t
  | .list items | .tuple items => joinTexts items
  | .bool _ | .node _ _ | .namedNode _ _ => .error (.raised "cannot join")

def joinTexts : List Value → Except Fault String
  | [] => .ok ""
  | v :: vs => do
    let first ← joinText v
    let rest ← joinTexts vs
    return first ++ rest
end

def digitsValue (digits : List Char) : Nat :=
  digits.foldl (fun n c => 10 * n + (c.toNat - '0'.toNat)) 0

def readNat (cs : List Char) : Option Nat :=
  if cs ≠ [] ∧ cs.all Char.isDigit then some (digitsValue cs) else none

def readInt : List Char → Option Int
  | '+' :: cs => (readNat cs).map Int.ofNat
  | '-' :: cs => (readNat cs).map fun n => -Int.ofNat n
  | cs => (readNat cs).map Int.ofNat

def toInt (v : Value) : Except Fault Value := do
  let t ← joinText v
  match readInt t.toList with
  | some n => .ok (.int n)
  | none => .error (.raised "not an int")

def length : Value → Except Fault Value
  | .text t => .ok (.int t.length)
  | .list items | .tuple items => .ok (.int items.length)
  | _ => .error (.raised "no length")

def second : Value → Except Fault Value
  | .text t => match t.toList with
    | _ :: c :: _ => .ok (.text (String.singleton c))
    | _ => .error (.raised "no second")
  | .list (_ :: v :: _) | .tuple (_ :: v :: _) => .ok v
  | _ => .error (.raised "no second")

def asInts : List Value → Option (List Int)
  | [] => some []
  | .int n :: vs => (asInts vs).map (n :: ·)
  | _ :: _ => none

def operands : Value → Except Fault (Int × List Int)
  | .list items | .tuple items => match asInts items with
    | some (n :: ns) => .ok (n, ns)
    | _ => .error (.raised "not ints")
  | _ => .error (.raised "not ints")

def divide (a b : Int) : Except Fault Int :=
  if b = 0 then .error (.raised "division by zero") else .ok (a.fdiv b)

def arithmetic (step : Int → Int → Except Fault Int) (v : Value) : Except Fault Value := do
  let (n, ns) ← operands v
  return .int (← ns.foldlM step n)

def named? (name : String) : Option Action :=
  let act (f : Value → Except Fault Value) : Option Action :=
    some ⟨"<do " ++ name ++ ">", fun arguments => f arguments.value⟩
  match name with
  | "join" => act fun v => (joinText v).map .text
  | "int" => act toInt
  | "len" => act length
  | "second" => act second
  | "add" => act (arithmetic fun a b => .ok (a + b))
  | "sub" => act (arithmetic fun a b => .ok (a - b))
  | "mul" => act (arithmetic fun a b => .ok (a * b))
  | "div" => act (arithmetic divide)
  | _ => none

end Packrat.Action
