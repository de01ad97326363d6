namespace Packrat

/-- The targets of the edges from each node. Targets need not be listed as nodes themselves. -/
abbrev Graph := List (String × List String)

namespace Graph

def setTargets (node : String) (targets : List String) : Graph → Graph
  | [] => [(node, targets)]
  | (n, ts) :: rest =>
    if n = node then (n, targets) :: rest else (n, ts) :: setTargets node targets rest

def ofList (nodes : List (String × List String)) : Graph :=
  nodes.foldl (fun g (node, targets) => g.setTargets node targets) []

def targets (g : Graph) (node : String) : List String := (g.lookup node).getD []

def nodes (g : Graph) : List String := (g.map (·.1) ++ g.flatMap (·.2)).eraseDups

structure Search where
  discovered : List String := []
  stack : List String := []
  components : List (List String) := []

namespace Search

def number (s : Search) (node : String) : Nat := s.discovered.idxOf node

def discover (s : Search) (node : String) : Search :=
  { s with discovered := s.discovered ++ [node], stack := node :: s.stack }

def close (s : Search) (node : String) : Search :=
  let above := s.stack.takeWhile (· ≠ node)
  { s with
    stack := s.stack.drop (above.length + 1)
    components := s.components ++ [(node :: above.reverse)] }

end Search

def look (visit : String → Search → Nat × Search) : Nat × Search → (target : String) → Nat × Search
  | (low, s), target =>
    if target ∉ s.discovered then
      let (reached, s) := visit target s
      (min low reached, s)
    else if target ∈ s.stack then (min low (s.number target), s)
    else (low, s)

/-- Searches from a node that is not discovered yet. What is returned first is the least number on the
stack that the search has come upon. If that is the number of the node itself, nothing further down on the
stack can be reached from it, and its component is closed. Every step deeper discovers a node, so `depth` need
not exceed the number of nodes. -/
def visit (g : Graph) : (depth : Nat) → (node : String) → Search → Nat × Search
  | 0, _, s => (0, s)
  | depth + 1, node, s =>
    let number := s.discovered.length
    let (low, s) := (g.targets node).foldl (look (visit g depth)) (number, s.discover node)
    (low, if low = number then s.close node else s)

def search (g : Graph) : Search :=
  let depth := g.nodes.length
  (g.map (·.1)).foldl (fun s node => if node ∈ s.discovered then s else (visit g depth node s).2) {}

def components (g : Graph) : List (List String) := g.search.components

end Graph

end Packrat
