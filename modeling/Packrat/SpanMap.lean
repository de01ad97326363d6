import Packrat.Bisection
import Packrat.Span
import Packrat.Text.Quoted

namespace Packrat

abbrev SpanMap (α : Type) := List (Span × List α)

namespace SpanMap

variable {α : Type}

/-- Adds `target` over `s`, before the first entry that lies above `s`. Of an entry that `s`
intersects, the parts that they do not share keep the targets of their owner, and what `s` has above
the entry goes on to the next. -/
def addFrom (s : Span) (target : α) : SpanMap α → SpanMap α
  | [] => [(s, [target])]
  | (t, targets) :: rest =>
    if s.meets t then
      let regions := s.divide t
      let low := regions.low.map fun l => (l, if l.meets t then targets else [target])
      let mid := regions.mid.map fun m => (m, targets ++ [target])
      let high := match regions.high with
        | none => rest
        | some h => if h.meets t then (h, targets) :: rest else addFrom h target rest
      low.toList ++ mid.toList ++ high
    else (s, [target]) :: (t, targets) :: rest

def add (s : Span) (target : α) (map : SpanMap α) : SpanMap α :=
  let before := Bisection.count (fun (t, _) => t.upper ≤ s.lower) map.toArray
  map.take before ++ addFrom s target (map.drop before)

def ofList (additions : List (Span × α)) : SpanMap α :=
  additions.foldl (fun map (s, target) => map.add s target) []

def targetsAt (map : SpanMap α) (x : Int) : List α :=
  match map.find? fun (s, _) => x ∈ s with
  | some (_, targets) => targets
  | none => []

def text (map : SpanMap String) : String :=
  let entry := fun ((s, targets) : Span × List String) =>
    s.text ++ "->[" ++ ", ".intercalate (targets.map Text.quote) ++ "]"
  "EdgeList[" ++ ",".intercalate (map.map entry) ++ "]"

end SpanMap

end Packrat
