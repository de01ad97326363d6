namespace Packrat

inductive Value where
  | none
  | bool (b : Bool)
  | int (n : Int)
  | text (t : String)
  | list (items : List Value)
  | tuple (items : List Value)
  | token (kind text : String) (start stop : Int) (value : Value)
  | node (tag : String) (argument : Value)
  | namedNode (tag : String) (fields : List (String × Value))

instance : Inhabited Value := ⟨.none⟩

structure Token where
  kind : String
  text : String
  start : Int
  stop : Int
  value : Value := .none

namespace Token

def toValue (t : Token) : Value := .token t.kind t.text t.start t.stop t.value

def same (a b : Token) : Bool :=
  a.kind == b.kind && a.text == b.text && a.start == b.start && a.stop == b.stop

end Token

namespace Value

/-- Several values as one: no value, the only one, or all of them side by side. -/
def gather : List Value → Value
  | [] => .none
  | [v] => v
  | vs => .tuple vs

end Value

end Packrat
