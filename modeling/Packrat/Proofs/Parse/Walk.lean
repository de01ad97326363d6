import Packrat.Parse.Evaluate

namespace Packrat

namespace Run

variable {α β : Type}

def split (m : Run α) (matched : α → Int → Run β) (failed : Run β) : Run β := fun room s =>
  match m room s with
  | (.matched a stop, s) => matched a stop room s
  | (.failed, s) => failed room s
  | (.halted h, s) => (.halted h, s)

section

variable {m : Run α} {matched : α → Int → Run β} {failed : Run β} {room : Room} {s s' : Parse}

theorem split_of_matched {a : α} {stop : Int} (run : m room s = (.matched a stop, s')) :
    m.split matched failed room s = matched a stop room s' := by
  simp only [split, run]

theorem split_of_failed (run : m room s = (.failed, s')) : m.split matched failed room s = failed room s' := by
  simp only [split, run]

theorem split_of_halted {h : Halt} (run : m room s = (.halted h, s')) :
    m.split matched failed room s = (.halted h, s') := by
  simp only [split, run]

end

theorem andThen_eq_split (m : Run α) (next : α → Int → Run β) : m.andThen next = m.split next noMatch := by
  funext room s
  unfold andThen split
  cases m room s with
  | mk o s' => cases o <;> rfl

theorem orElse_eq_split (m other : Run α) : m.orElse other = m.split done other := by
  funext room s
  simp only [orElse, split, done]
  cases m room s with
  | mk o s' => cases o <;> rfl

def nextRound (item : Int → Run Value) (atLeastOnce : Bool) (rounds : Nat) (values : List Value) (index : Int)
    (v : Value) (stop : Int) : Run Value :=
  if stop = index then repeated atLeastOnce (if atLeastOnce && values.isEmpty then [v] else values) index
  else many item atLeastOnce rounds (v :: values) stop

theorem many_succ_eq_split (item : Int → Run Value) (atLeastOnce : Bool) (rounds : Nat) (values : List Value)
    (index : Int) : many item atLeastOnce (rounds + 1) values index =
      (item index).split (nextRound item atLeastOnce rounds values index) (repeated atLeastOnce values index) := by
  funext room s
  simp only [many, split, nextRound]
  cases item index room s with
  | mk o s' =>
    cases o with
    | matched v stop =>
      dsimp only
      split <;> rfl
    | failed => rfl
    | halted h => rfl

/-- A property that is kept when pieces of work are put together. -/
structure Kept (P : (α : Type) → Run α → Prop) : Prop where
  done : ∀ {α : Type} (a : α) (stop : Int), P α (done a stop)
  noMatch : ∀ {α : Type}, P α noMatch
  halt : ∀ {α : Type} (h : Halt), P α (halt h)
  fail : ∀ {α : Type} (index : Int) (what : String), P α (fail index what)
  finish : ∀ (q : TypedProduction) (start : Int) (values : List Value) (stop : Int),
    P Value (TypedGrammar.finish q start values stop)
  nested : ∀ {α : Type} {m : Run α} (levels : Nat), P α m → P α (nested levels m)
  split : ∀ {α β : Type} {m : Run α} {matched : α → Int → Run β} {failed : Run β}, P α m →
    (∀ a stop, P β (matched a stop)) → P β failed → P β (m.split matched failed)
  negate : ∀ {m : Run Value} (index : Int) (what : String), P Value m → P Value (negate m index what)
  named : ∀ {m : Run Value} (name : String) (index : Int), P Value m → P Value (named name index m)

namespace Kept

variable {P : (α : Type) → Run α → Prop}

theorem andThen (kept : Kept P) {m : Run α} {next : α → Int → Run β} (first : P α m)
    (second : ∀ a stop, P β (next a stop)) : P β (m.andThen next) := by
  rw [andThen_eq_split]
  exact kept.split first second kept.noMatch

theorem orElse (kept : Kept P) {m other : Run α} (first : P α m) (second : P α other) : P α (m.orElse other) := by
  rw [orElse_eq_split]
  exact kept.split first kept.done second

theorem terminal (kept : Kept P) (result : Except BeforeStart Result) (index : Int) (what : String) :
    P Value (terminal result index what) := by
  unfold Run.terminal
  split
  · exact kept.done _ _
  · exact kept.fail index what
  · exact kept.halt _

theorem repeated (kept : Kept P) (atLeastOnce : Bool) (values : List Value) (stop : Int) :
    P Value (repeated atLeastOnce values stop) := by
  unfold Run.repeated
  split
  · exact kept.noMatch
  · exact kept.done _ _

theorem many (kept : Kept P) {item : Int → Run Value} {atLeastOnce : Bool} (each : ∀ i, P Value (item i))
    (rounds : Nat) (values : List Value) (i : Int) : P Value (many item atLeastOnce rounds values i) := by
  induction rounds generalizing values i with
  | zero => exact kept.halt _
  | succ rounds ih =>
    rw [many_succ_eq_split]
    refine kept.split (each i) (fun v stop => ?_) (kept.repeated _ _ _)
    unfold nextRound
    split
    · exact kept.repeated _ _ _
    · exact ih _ _

section

variable {p : TypedGrammar} {input : Input} {call : String → Int → Run Value}

mutual
theorem evaluate (kept : Kept P) (calls : ∀ name i, P Value (call name i)) : ∀ (e : Expr) (i : Int),
    P Value (p.evaluate input call e i)
  | .literal t, i => by
    simp only [TypedGrammar.evaluate]
    refine kept.nested 2 ?_
    split
    · exact kept.terminal _ _ _
    · exact kept.halt _
  | .oneOf set, i => by
    simp only [TypedGrammar.evaluate]
    refine kept.nested 3 ?_
    split
    · exact kept.terminal _ _ _
    · exact kept.halt _
  | .reference name, i => by
    simp only [TypedGrammar.evaluate]
    split
    · exact kept.nested 1 (calls name i)
    · exact kept.nested 2 (kept.terminal _ _ _)
    · exact kept.halt _
  | .sequence items, i => by
    simp only [TypedGrammar.evaluate]
    exact kept.nested 1 (kept.andThen (kept.evaluateAll calls items i) fun _ _ => kept.done _ _)
  | .choice alternatives, i => by
    simp only [TypedGrammar.evaluate]
    exact kept.nested 1 (kept.evaluateFirst calls alternatives i)
  | .optional item, i => by
    simp only [TypedGrammar.evaluate]
    exact kept.nested 1 (kept.orElse (kept.evaluate calls item i) (kept.done _ _))
  | .repetition atLeastOnce item, i => by
    simp only [TypedGrammar.evaluate]
    exact kept.nested 1 (kept.many (fun j => kept.evaluate calls item j) _ _ i)
  | .bind _ item, i => by
    simp only [TypedGrammar.evaluate]
    exact kept.evaluate calls item i
  | .ahead item, i => by
    simp only [TypedGrammar.evaluate]
    exact kept.nested 1 (kept.andThen (kept.evaluate calls item i) fun _ _ => kept.done _ _)
  | .notAhead item, i => by
    simp only [TypedGrammar.evaluate]
    exact kept.nested 1 (kept.negate i _ (kept.evaluate calls item i))
  | .unknown _, i => by
    simp only [TypedGrammar.evaluate]
    exact kept.noMatch

theorem evaluateAll (kept : Kept P) (calls : ∀ name i, P Value (call name i)) : ∀ (es : List Expr) (i : Int),
    P (List Value) (p.evaluateAll input call es i)
  | [], i => by
    simp only [TypedGrammar.evaluateAll]
    exact kept.done _ _
  | e :: es, i => by
    simp only [TypedGrammar.evaluateAll]
    refine kept.andThen (kept.evaluate calls e i) fun v stop => ?_
    exact kept.andThen (kept.evaluateAll calls es stop) fun _ _ => kept.done _ _

theorem evaluateFirst (kept : Kept P) (calls : ∀ name i, P Value (call name i)) : ∀ (es : List Expr) (i : Int),
    P Value (p.evaluateFirst input call es i)
  | [], i => by
    simp only [TypedGrammar.evaluateFirst]
    exact kept.noMatch
  | e :: es, i => by
    simp only [TypedGrammar.evaluateFirst]
    exact kept.orElse (kept.evaluate calls e i) (kept.evaluateFirst calls es i)
end

theorem production (kept : Kept P) (calls : ∀ name i, P Value (call name i)) (q : TypedProduction) (i : Int) :
    P Value (p.production input call q i) :=
  kept.nested 1 (kept.andThen (kept.evaluateAll calls q.items i) (kept.finish q i))

theorem firstProduction (kept : Kept P) (calls : ∀ name i, P Value (call name i))
    (productions : List TypedProduction) (i : Int) : P Value (p.firstProduction input call productions i) := by
  induction productions with
  | nil => exact kept.noMatch
  | cons q rest ih => exact kept.orElse (kept.production calls q i) ih

theorem body (kept : Kept P) (calls : ∀ name i, P Value (call name i)) (typed : TypedRule) (i : Int) :
    P Value (p.body input call typed i) := by
  have choice : P Value (Run.nested 1 (p.firstProduction input call typed.productions i)) :=
    kept.nested 1 (kept.firstProduction calls typed.productions i)
  unfold TypedGrammar.body
  cases typed.errorName with
  | none => exact choice
  | some name => exact kept.nested 1 (kept.named name i choice)

end

end Kept

end Run

end Packrat
