import Packrat.LeftRecursion.Basic
import Packrat.Proofs.LeftRecursion.Saturation
import Packrat.Proofs.Typing.Faithful

namespace Packrat

inductive Goal where
  | expr (e : Expr)
  | items (es : List Expr)
  | rounds (item : Expr)

namespace TypedGrammar

inductive Derives (p : TypedGrammar) (input : Input) : Goal → Int → List Value → Int → Prop where
  | literal {t i v stop} (here : input.literal? t i = .ok (some (v, stop))) :
    Derives p input (.expr (.literal t)) i [v] stop
  | oneOf {set i v stop} (here : input.class? set i = .ok (some (v, stop))) :
    Derives p input (.expr (.oneOf set)) i [v] stop
  | token {name kind i v stop} (noRule : p.grammar.rule? name = none) (known : p.grammar.token? name = some kind)
    (here : input.kind? kind i = .ok (some (v, stop))) : Derives p input (.expr (.reference name)) i [v] stop
  | rule {name typed production i vs v stop} (known : p.typed? name = some typed)
    (listed : production ∈ typed.productions) (items : Derives p input (.items production.items) i vs stop)
    (made : production.value vs = .ok v) : Derives p input (.expr (.reference name)) i [v] stop
  | sequence {es i vs stop} (items : Derives p input (.items es) i vs stop) :
    Derives p input (.expr (.sequence es)) i [.gather (select (Expr.contributing es) vs)] stop
  | choice {es e i v stop} (listed : e ∈ es) (here : Derives p input (.expr e) i [v] stop) :
    Derives p input (.expr (.choice es)) i [v] stop
  | present {e i v stop} (here : Derives p input (.expr e) i [v] stop) :
    Derives p input (.expr (.optional e)) i [v] stop
  | absent {e i} : Derives p input (.expr (.optional e)) i [.none] i
  | repetition {atLeastOnce e i vs stop} (rounds : Derives p input (.rounds e) i vs stop)
    (enough : atLeastOnce = true → vs ≠ []) :
    Derives p input (.expr (.repetition atLeastOnce e)) i [.list vs] stop
  | bind {name e i v stop} (here : Derives p input (.expr e) i [v] stop) :
    Derives p input (.expr (.bind name e)) i [v] stop
  | ahead {e i v stop} (here : Derives p input (.expr e) i [v] stop) :
    Derives p input (.expr (.ahead e)) i [.none] i
  | notAhead {e i} : Derives p input (.expr (.notAhead e)) i [.none] i
  | nil {i} : Derives p input (.items []) i [] i
  | cons {e es i v vs mid stop} (first : Derives p input (.expr e) i [v] mid)
    (rest : Derives p input (.items es) mid vs stop) : Derives p input (.items (e :: es)) i (v :: vs) stop
  | done {e i} : Derives p input (.rounds e) i [] i
  | round {e i v vs mid stop} (first : Derives p input (.expr e) i [v] mid)
    (rest : Derives p input (.rounds e) mid vs stop) : Derives p input (.rounds e) i (v :: vs) stop

end TypedGrammar

namespace Input

theorem length_of_charsMatch {chars : Array Char} {i : Nat} {cs : List Char} (within : i ≤ chars.size)
    (here : charsMatch chars i cs = true) : i + cs.length ≤ chars.size := by
  induction cs generalizing i with
  | nil => exact within
  | cons c cs ih =>
    simp only [charsMatch, Bool.and_eq_true, beq_iff_eq] at here
    obtain ⟨inside, _⟩ := Array.getElem?_eq_some_iff.mp here.1
    have rest := ih inside here.2
    simp only [List.length_cons]
    omega

theorem lt_of_elementAt {α : Type} {xs : Array α} {i : Int} {x : α}
    (here : elementAt xs i = .ok (some x)) : i < xs.size := by
  unfold elementAt placeOf? at here
  split at here
  · next place found =>
    obtain ⟨inside, _⟩ := Array.getElem?_eq_some_iff.mp (Except.ok.inj here)
    split at found
    · cases found; omega
    · split at found
      · cases found; omega
      · cases found
  · cases here

theorem tokenWhere?_stop {tokens : Array Token} {holds : Token → Bool} {value : Token → Value} {i stop : Int}
    {v : Value} (here : (tokenWhere? tokens holds i).map (·.map fun t => (value t, i + 1)) =
      .ok (some (v, stop))) : stop = i + 1 ∧ i < tokens.size := by
  unfold tokenWhere? at here
  cases found : elementAt tokens i with
  | error e => rw [found] at here; cases here
  | ok element =>
    rw [found] at here
    cases element with
    | none => cases here
    | some t =>
      simp only [Except.map, Option.filter, Except.ok.injEq] at here
      split at here
      · cases here
        exact ⟨rfl, lt_of_elementAt found⟩
      · cases here

theorem kind?_stop {input : Input} {kind : TokenRule} {i stop : Int} {v : Value}
    (here : input.kind? kind i = .ok (some (v, stop))) : stop = i + 1 ∧ i < input.size := by
  cases input with
  | text chars => cases here
  | tokens ts => exact tokenWhere?_stop here

theorem class?_stop {input : Input} {set : CharClass} {i stop : Int} {v : Value}
    (here : input.class? set i = .ok (some (v, stop))) : stop = i + 1 ∧ i < input.size := by
  cases input with
  | tokens ts => exact tokenWhere?_stop here
  | text chars =>
    simp only [class?] at here
    cases found : elementAt chars i with
    | error e => rw [found] at here; cases here
    | ok element =>
      rw [found] at here
      cases element with
      | none => cases here
      | some c =>
        simp only [Except.map, Option.filter, Except.ok.injEq] at here
        split at here
        · cases here
          exact ⟨rfl, lt_of_elementAt found⟩
        · cases here

theorem literal?_stop {input : Input} {t : String} {i stop : Int} {v : Value}
    (here : input.literal? t i = .ok (some (v, stop))) :
    i ≤ stop ∧ stop ≤ max i input.size ∧ (stop = i → t.isEmpty = true) := by
  cases input with
  | tokens ts =>
    obtain ⟨rfl, inside⟩ := tokenWhere?_stop here
    simp only [size]
    omega
  | text chars =>
    simp only [literal?, Except.ok.injEq] at here
    split at here
    · next found =>
      cases here
      simp only [goesOnWith, Bool.and_eq_true, decide_eq_true_eq] at found
      have long := length_of_charsMatch found.1 found.2
      have same : t.toList.length = t.length := String.length_toList
      simp only [size]
      refine ⟨by omega, ?_, fun stay => ?_⟩
      · split at long <;> omega
      · have none : t.length = 0 := by omega
        rw [String.isEmpty_iff]
        exact String.length_eq_zero_iff.mp none
    · cases here

end Input

namespace Expr

variable {nullable : String → Bool}

theorem allNullable_append (first second : List Expr) :
    allNullable nullable (first ++ second) = (allNullable nullable first && allNullable nullable second) := by
  induction first with
  | nil => rfl
  | cons e es ih => simp only [List.cons_append, allNullable, ih, Bool.and_assoc]

mutual
theorem allNullable_laidOpen : ∀ e : Expr, allNullable nullable (laidOpen e) = isNullable nullable e
  | .sequence items => by
    simp only [laidOpen, isNullable]
    exact allNullable_allLaidOpen items
  | .literal _ | .oneOf _ | .reference _ | .choice _ | .optional _ | .repetition _ _ | .bind _ _
  | .ahead _ | .notAhead _ | .unknown _ => by simp [laidOpen, allNullable]

theorem allNullable_allLaidOpen : ∀ es : List Expr,
    allNullable nullable (allLaidOpen es) = allNullable nullable es
  | [] => rfl
  | e :: es => by
    rw [allLaidOpen, allNullable_append, allNullable_laidOpen e, allNullable_allLaidOpen es]
    rfl
end

theorem anyNullable_iff {es : List Expr} : anyNullable nullable es = true ↔ ∃ e ∈ es, isNullable nullable e = true := by
  induction es with
  | nil => simp [anyNullable]
  | cons e es ih => simp [anyNullable, ih]

end Expr

namespace Grammar

theorem body_eq_of_rule? {g : Grammar} {name : String} {r : Rule} (found : g.rule? name = some r) :
    g.body name = r.body := by
  simp [body, found]

theorem mem_nullableRules {g : Grammar} {name : String} {r : Rule} {production : Production}
    (found : g.rule? name = some r) (listed : production ∈ r.productions)
    (empty : Expr.allNullable (fun n => n ∈ g.nullableRules) production.items = true) :
    name ∈ g.nullableRules := by
  refine Saturation.mem_saturate_of_joins (mem_ruleNames_of_rule? found) ?_
  rw [body_eq_of_rule? found]
  exact Expr.anyNullable_iff.mpr ⟨_, List.mem_map_of_mem listed, empty⟩

end Grammar

def Goal.Void (nullable : String → Bool) (vs : List Value) : Goal → Prop
  | .expr e => e.isNullable nullable = true
  | .items es => Expr.allNullable nullable es = true
  | .rounds item => vs ≠ [] → item.isNullable nullable = true

namespace TypedGrammar

variable {p : TypedGrammar} {input : Input} {goal : Goal} {i stop : Int} {vs : List Value}

theorem Derives.le_stop (derived : p.Derives input goal i vs stop) : i ≤ stop := by
  induction derived with
  | literal here => exact (Input.literal?_stop here).1
  | oneOf here => have := (Input.class?_stop here).1; omega
  | token _ _ here => have := (Input.kind?_stop here).1; omega
  | cons _ _ first rest | round _ _ first rest => exact Int.le_trans first rest
  | rule _ _ _ _ ih | sequence _ ih | choice _ _ ih | present _ ih | repetition _ _ ih | bind _ ih => exact ih
  | absent | ahead | notAhead | nil | done => exact Int.le_refl _

theorem Derives.stop_le (derived : p.Derives input goal i vs stop) : stop ≤ max i input.size := by
  induction derived with
  | literal here => exact (Input.literal?_stop here).2.1
  | oneOf here => have := Input.class?_stop here; omega
  | token _ _ here => have := Input.kind?_stop here; omega
  | cons _ _ first rest | round _ _ first rest => omega
  | rule _ _ _ _ ih | sequence _ ih | choice _ _ ih | present _ ih | repetition _ _ ih | bind _ ih => exact ih
  | absent | ahead | notAhead | nil | done => omega

theorem Derives.void (faithful : p.Faithful) (derived : p.Derives input goal i vs stop)
    (stay : stop = i) : goal.Void (fun n => n ∈ p.grammar.nullableRules) vs := by
  induction derived with
  | literal here => exact (Input.literal?_stop here).2.2 stay
  | oneOf here => have := (Input.class?_stop here).1; omega
  | token _ _ here => have := (Input.kind?_stop here).1; omega
  | @rule name typed production i vs v stop known listed _ _ ih =>
    obtain ⟨r, found, describes⟩ := faithful known
    obtain ⟨source, member, reads⟩ := describes.production listed
    have empty := ih stay
    simp only [Goal.Void] at empty ⊢
    rw [reads.1, Expr.allNullable_allLaidOpen] at empty
    simpa [Expr.isNullable] using Grammar.mem_nullableRules found member empty
  | sequence _ ih => exact ih stay
  | choice listed _ ih => exact Expr.anyNullable_iff.mpr ⟨_, listed, ih stay⟩
  | present | absent | ahead | notAhead => rfl
  | @repetition atLeastOnce e i vs stop rounds enough ih =>
    simp only [Goal.Void, Expr.isNullable, Bool.or_eq_true, Bool.not_eq_true']
    cases atLeastOnce with
    | false => exact .inl rfl
    | true => exact .inr (ih stay (enough rfl))
  | bind _ ih => exact ih stay
  | nil => rfl
  | @cons e es i v vs mid stop first rest ihFirst ihRest =>
    have before := first.le_stop
    have behind := rest.le_stop
    have here : mid = i := by omega
    simp only [Goal.Void, Expr.allNullable, Bool.and_eq_true]
    exact ⟨ihFirst here, ihRest (by omega)⟩
  | done => exact fun some => absurd rfl some
  | @round e i v vs mid stop first rest ihFirst _ =>
    have before := first.le_stop
    have behind := rest.le_stop
    exact fun _ => ihFirst (by omega)

end TypedGrammar

end Packrat
