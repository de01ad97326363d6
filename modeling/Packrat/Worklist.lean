namespace Packrat.Worklist

variable {α : Type} [DecidableEq α]

/-- Lists what can be reached from the elements to do, in the order that it is first come to; what the last element leads
to goes before the others, its last one first. Each step adds an element, so `steps` need not exceed their number. -/
def explore (next : α → List α) : (steps : Nat) → (todo known : List α) → List α
  | 0, _, known => known
  | steps + 1, todo, known =>
    match todo.dropWhile (· ∈ known) with
    | [] => known
    | a :: rest => explore next steps ((next a).reverse ++ rest) (known ++ [a])

end Packrat.Worklist
