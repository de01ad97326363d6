namespace Packrat

inductive ValueType where
  | unit
  | unknown
  | named (name : String)
  | tuple (items : List ValueType)
  | list (item : ValueType)
  | option (item : ValueType)

namespace ValueType

instance : Inhabited ValueType := ⟨.unknown⟩

mutual
def same : ValueType → ValueType → Bool
  | .unit, .unit | .unknown, .unknown => true
  | .named a, .named b => a == b
  | .tuple as, .tuple bs => sameAll as bs
  | .list a, .list b | .option a, .option b => same a b
  | _, _ => false

def sameAll : List ValueType → List ValueType → Bool
  | [], [] => true
  | a :: as, b :: bs => same a b && sameAll as bs
  | _, _ => false
end

mutual
theorem same_iff : ∀ {a b : ValueType}, same a b = true ↔ a = b
  | .unit, b => by cases b <;> simp [same]
  | .unknown, b => by cases b <;> simp [same]
  | .named _, b => by cases b <;> simp [same]
  | .tuple as, b => by cases b <;> simp [same, sameAll_iff]
  | .list a, b => by cases b <;> simp [same, @same_iff a]
  | .option a, b => by cases b <;> simp [same, @same_iff a]

theorem sameAll_iff : ∀ {as bs : List ValueType}, sameAll as bs = true ↔ as = bs
  | [], bs => by cases bs <;> simp [sameAll]
  | a :: as, bs => by cases bs <;> simp [sameAll, @same_iff a, @sameAll_iff as]
end

instance : DecidableEq ValueType := fun _ _ => decidable_of_iff _ same_iff

mutual
def text : ValueType → String
  | .unit => "()"
  | .unknown => "?"
  | .named name => name
  | .tuple items => "(" ++ ", ".intercalate (texts items) ++ ")"
  | .list item => "[" ++ text item ++ "]"
  | .option item => text item ++ "?"

def texts : List ValueType → List String
  | [] => []
  | t :: ts => text t :: texts ts
end

mutual
def unify : ValueType → ValueType → Option ValueType
  | .unknown, b => some b
  | a, .unknown => some a
  | .unit, .unit => some .unit
  | .named a, .named b => if a = b then some (.named a) else none
  | .tuple as, .tuple bs => (unifyAll as bs).map .tuple
  | .list a, .list b => (unify a b).map .list
  | .option a, .option b => (unify a b).map .option
  | _, _ => none

def unifyAll : List ValueType → List ValueType → Option (List ValueType)
  | [], [] => some []
  | a :: as, b :: bs => do
    let u ← unify a b
    let us ← unifyAll as bs
    return u :: us
  | _, _ => none
end

def gather : List ValueType → ValueType
  | [] => .unit
  | [t] => t
  | ts => .tuple ts

/-- The type of a value that may be missing. Nothing is still nothing when it is missing. -/
def optionOf : ValueType → ValueType
  | .unit => .unit
  | t => .option t

def listOf : ValueType → ValueType
  | .unit => .unit
  | t => .list t

end ValueType

end Packrat
