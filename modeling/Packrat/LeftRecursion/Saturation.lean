namespace Packrat.Saturation

/-- One pass over the names. What joins early in the pass counts for the names after it. -/
def pass (joins : (String → Bool) → String → Bool) (names : List String) (members : List String) :
    List String :=
  names.foldl (fun members name =>
    if name ∉ members ∧ joins (fun n => n ∈ members) name = true then name :: members else members)
    members

/-- Passes until one adds nothing. Every other one adds a name, so `passes` need not exceed the
number of names by more than one. -/
def passesUpTo (joins : (String → Bool) → String → Bool) (names : List String) :
    (passes : Nat) → (members : List String) → List String
  | 0, members => members
  | passes + 1, members =>
    let grown := pass joins names members
    if grown.length = members.length then members else passesUpTo joins names passes grown

def saturate (joins : (String → Bool) → String → Bool) (names : List String) : List String :=
  passesUpTo joins names (names.length + 1) []

def passQuestions (joins : (String → Bool) → String → Bool) :
    (names members : List String) → List (List String × String)
  | [], _ => []
  | name :: rest, members =>
    if name ∈ members then passQuestions joins rest members
    else
      let grown := if joins (fun n => n ∈ members) name = true then name :: members else members
      (members, name) :: passQuestions joins rest grown

def questionsUpTo (joins : (String → Bool) → String → Bool) (names : List String) :
    (passes : Nat) → (members : List String) → List (List String × String)
  | 0, _ => []
  | passes + 1, members =>
    let grown := pass joins names members
    let asked := passQuestions joins names members
    if grown.length = members.length then asked
    else asked ++ questionsUpTo joins names passes grown

def questions (joins : (String → Bool) → String → Bool) (names : List String) :
    List (List String × String) :=
  questionsUpTo joins names (names.length + 1) []

end Packrat.Saturation
