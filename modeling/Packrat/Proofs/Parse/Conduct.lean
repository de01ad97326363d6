import Packrat.Proofs.Expr
import Packrat.Proofs.Parse.Derivation
import Packrat.Proofs.Parse.Tracking

namespace Packrat

def Goal.callees (g : Grammar) : Goal → TextSet
  | .expr e => e.leftCallees (fun n => n ∈ g.nullableRules) fun n => n ∈ g.ruleNames
  | .items es => Expr.sequenceCallees (fun n => n ∈ g.nullableRules) (fun n => n ∈ g.ruleNames) es
  | .rounds item => item.leftCallees (fun n => n ∈ g.nullableRules) fun n => n ∈ g.ruleNames

namespace Expr

variable {nullable isRule : String → Bool} {name : String}

theorem mem_sequenceCallees_cons {e : Expr} {es : List Expr} :
    name ∈ sequenceCallees nullable isRule (e :: es) ↔ name ∈ leftCallees nullable isRule e ∨
      isNullable nullable e = true ∧ name ∈ sequenceCallees nullable isRule es := by
  simp only [sequenceCallees]
  split
  · next empty => simp [empty]
  · next consumes => simp [consumes]

theorem mem_sequenceCallees_append {first second : List Expr} :
    name ∈ sequenceCallees nullable isRule (first ++ second) ↔
      name ∈ sequenceCallees nullable isRule first ∨
        allNullable nullable first = true ∧ name ∈ sequenceCallees nullable isRule second := by
  induction first with
  | nil => simp [sequenceCallees, allNullable]
  | cons e es ih =>
    rw [List.cons_append, mem_sequenceCallees_cons, mem_sequenceCallees_cons, ih]
    simp only [allNullable, Bool.and_eq_true]
    grind

mutual
theorem mem_sequenceCallees_laidOpen : ∀ e : Expr,
    name ∈ sequenceCallees nullable isRule (laidOpen e) ↔ name ∈ leftCallees nullable isRule e
  | .sequence items => by
    simp only [laidOpen, leftCallees]
    exact mem_sequenceCallees_allLaidOpen items
  | .literal _ | .oneOf _ | .reference _ | .choice _ | .optional _ | .repetition _ _ | .bind _ _
  | .ahead _ | .notAhead _ | .unknown _ => by
    rw [laidOpen, mem_sequenceCallees_cons]
    simp [sequenceCallees]
    · simp

theorem mem_sequenceCallees_allLaidOpen : ∀ es : List Expr,
    name ∈ sequenceCallees nullable isRule (allLaidOpen es) ↔ name ∈ sequenceCallees nullable isRule es
  | [] => Iff.rfl
  | e :: es => by
    rw [allLaidOpen, mem_sequenceCallees_append, mem_sequenceCallees_cons, mem_sequenceCallees_laidOpen e,
      mem_sequenceCallees_allLaidOpen es, allNullable_laidOpen]
end

theorem mem_choiceCallees {es : List Expr} :
    name ∈ choiceCallees nullable isRule es ↔ ∃ e ∈ es, name ∈ leftCallees nullable isRule e := by
  induction es with
  | nil => simp [choiceCallees]
  | cons e es ih => simp [choiceCallees, ih]

end Expr

def Goal.references : Goal → List String
  | .expr e | .rounds e => e.references
  | .items es => Expr.allReferences es

namespace Grammar

def Refers (g : Grammar) (name other : String) : Prop :=
  ∃ r, g.rule? name = some r ∧ ∃ production ∈ r.productions, other ∈ Expr.allReferences production.items

/-- A rule can call another one before it consumes any input. -/
def LeftCalls (g : Grammar) (caller callee : String) : Prop :=
  callee ∈ LeftRecursion.callsOf g.leftCallees caller

theorem lookup_eq_map_find? {β : Type} (f : Rule → β) (rules : List Rule) (name : String) :
    (rules.map fun r => (r.name, f r)).lookup name = (rules.find? (·.name == name)).map f := by
  induction rules with
  | nil => rfl
  | cons first rest ih =>
    rw [List.map_cons, List.lookup_cons, List.find?_cons]
    by_cases here : first.name = name
    · subst here
      simp
    · have other : ¬ name = first.name := fun same => here same.symm
      rw [beq_eq_false_iff_ne.mpr here, beq_eq_false_iff_ne.mpr other]
      exact ih

theorem callsOf_leftCallees {g : Grammar} {name : String} {r : Rule} (found : g.rule? name = some r) :
    LeftRecursion.callsOf g.leftCallees name = (Goal.expr r.body).callees g := by
  unfold rule? at found
  simp only [LeftRecursion.callsOf, Grammar.leftCallees, lookup_eq_map_find?, found]
  rfl

theorem leftCalls_of_items {g : Grammar} {name callee : String} {r : Rule} {production : Production}
    (found : g.rule? name = some r) (listed : production ∈ r.productions)
    (member : callee ∈ (Goal.items production.items).callees g) : g.LeftCalls name callee := by
  unfold LeftCalls
  rw [callsOf_leftCallees found]
  exact Expr.mem_choiceCallees.mpr ⟨_, List.mem_map_of_mem listed, member⟩

end Grammar

structure Scope where
  refers : String → Prop
  first : String → Prop

def Grammar.scope (g : Grammar) (rule : String) : Scope := ⟨g.Refers rule, g.LeftCalls rule⟩

namespace TypedGrammar

/-- Calls that two ways to parse are in step with, inside a scope that starts at `start`. -/
structure Conduct (p : TypedGrammar) (input : Input) (R : Parse → Parse → Prop) (H : Halt → Prop)
    (start : Int) (scope : Scope) (call : String → Int → Run Value)
    (calls : Nat → String → Int → Run Value) : Prop where
  faithful : p.Faithful
  blind : Blind R
  halts : ∀ h, h ≠ .exhausted → H h
  tracks : ∀ {name i}, start ≤ i → i ≤ max start input.size → scope.refers name →
    (i = start → scope.first name) → name ∈ p.grammar.ruleNames →
    Tracks R H (fun v stop => p.Derives input (.expr (.reference name)) i [v] stop) (call name i)
      fun d => calls d name i

structure Inside (g : Grammar) (input : Input) (start : Int) (scope : Scope) (goal : Goal) (i : Int) : Prop where
  behind : start ≤ i
  within : i ≤ max start input.size
  refers : ∀ name ∈ goal.references, scope.refers name
  first : i = start → ∀ name ∈ goal.callees g, scope.first name

namespace Inside

variable {g : Grammar} {input : Input} {start i : Int} {scope : Scope}

theorem of_subset {goal part : Goal} (inside : Inside g input start scope goal i)
    (references : ∀ name ∈ part.references, name ∈ goal.references)
    (callees : ∀ name ∈ part.callees g, name ∈ goal.callees g) : Inside g input start scope part i :=
  ⟨inside.behind, inside.within, fun name member => inside.refers name (references name member),
    fun here name member => inside.first here name (callees name member)⟩

theorem part {goal part : Goal} (inside : Inside g input start scope goal i)
    (references : part.references = goal.references) (callees : part.callees g = goal.callees g) :
    Inside g input start scope part i :=
  inside.of_subset (fun _ member => references ▸ member) fun _ member => callees ▸ member

theorem head {e : Expr} {es : List Expr} (inside : Inside g input start scope (.items (e :: es)) i) :
    Inside g input start scope (.expr e) i :=
  inside.of_subset (fun _ member => List.mem_append_left _ member)
    fun _ member => Expr.mem_sequenceCallees_cons.mpr (.inl member)

theorem alternative {e : Expr} {es : List Expr} (inside : Inside g input start scope (.expr (.choice es)) i)
    (listed : e ∈ es) : Inside g input start scope (.expr e) i :=
  inside.of_subset (fun _ member => Expr.mem_allReferences.mpr ⟨e, listed, member⟩)
    fun _ member => Expr.mem_choiceCallees.mpr ⟨e, listed, member⟩

theorem tail {p : TypedGrammar} {start i stop : Int} {e : Expr} {es : List Expr} {v : Value}
    (faithful : p.Faithful) (inside : Inside p.grammar input start scope (.items (e :: es)) i)
    (derived : p.Derives input (.expr e) i [v] stop) : Inside p.grammar input start scope (.items es) stop := by
  have further := derived.le_stop
  have bounded := derived.stop_le
  have behind := inside.behind
  have within := inside.within
  refine ⟨by omega, by omega, fun name member => inside.refers name (List.mem_append_right _ member),
    fun here name member => ?_⟩
  have empty := derived.void faithful (by omega)
  exact inside.first (by omega) name (Expr.mem_sequenceCallees_cons.mpr (.inr ⟨empty, member⟩))

theorem later {item : Expr} (inside : Inside g input start scope (.rounds item) i) {j : Int} (further : i ≤ j)
    (bounded : j ≤ max i input.size) : Inside g input start scope (.expr item) j := by
  have behind := inside.behind
  have within := inside.within
  exact ⟨by omega, by omega, inside.refers, fun here => inside.first (by omega)⟩

end Inside

namespace Conduct

variable {p : TypedGrammar} {input : Input} {R : Parse → Parse → Prop} {H : Halt → Prop} {start : Int}
  {scope : Scope} {call : String → Int → Run Value} {calls : Nat → String → Int → Run Value}

theorem many {item : Int → Run Value} {items : Nat → Int → Run Value} {e : Expr} {atLeastOnce : Bool}
    {rounds : Nat} {values : List Value} {i : Int}
    (each : ∀ j, i ≤ j → j ≤ max i input.size →
      Tracks R H (fun v stop => p.Derives input (.expr e) j [v] stop) (item j) fun d => items d j)
    (enough : (input.size - i).toNat < rounds) :
    Tracks R H (fun v stop => ∃ vs, v = .list (values.reverse ++ vs) ∧
        p.Derives input (.rounds e) i vs stop ∧ (atLeastOnce = true → values.reverse ++ vs ≠ []))
      (Run.many item atLeastOnce rounds values i) fun d => Run.many (items d) atLeastOnce rounds values i := by
  induction rounds generalizing values i with
  | zero => omega
  | succ rounds ih =>
    have ended : ∀ vs ws stop, p.Derives input (.rounds e) i ws stop → vs.reverse = values.reverse ++ ws →
        Tracks R H (fun v stop => ∃ us, v = .list (values.reverse ++ us) ∧
            p.Derives input (.rounds e) i us stop ∧ (atLeastOnce = true → values.reverse ++ us ≠ []))
          (Run.repeated atLeastOnce vs stop) fun _ => Run.repeated atLeastOnce vs stop := by
      intro vs ws stop derived same
      unfold Run.repeated
      split
      · exact .noMatch
      · next some =>
        refine .done ⟨ws, by rw [same], derived, fun required none => ?_⟩
        rw [← same, List.reverse_eq_nil_iff] at none
        exact some (by simp [required, none])
    intro s t related properLeft properRight
    obtain ⟨o, s₁, t₁, run, runs, ends⟩ := each i (Int.le_refl _) (by omega) s t related properLeft properRight
    cases ends with
    | halted allowed =>
      refine ⟨_, s₁, t₁, by simp [Run.many, run], ?_, .halted allowed⟩
      filter_upwards [runs] with d here
      simp [Run.many, here]
    | failed agree =>
      obtain ⟨o, s₂, t₂, run', runs', ends⟩ := ended values [] i .done (by simp) s₁ t₁ agree.related
        (agree.proper_left properLeft) (agree.proper_right properRight)
      refine ⟨o, s₂, t₂, by simp [Run.many, run, run'], ?_, ends.after agree⟩
      filter_upwards [runs, runs'] with d here there
      simp [Run.many, here, there]
    | @matched v stop _ _ agree derived =>
      have rest : Tracks R H (fun v stop => ∃ vs, v = .list (values.reverse ++ vs) ∧
            p.Derives input (.rounds e) i vs stop ∧ (atLeastOnce = true → values.reverse ++ vs ≠ []))
          (if stop = i then
            Run.repeated atLeastOnce (if atLeastOnce && values.isEmpty then [v] else values) i
          else Run.many item atLeastOnce rounds (v :: values) stop)
          fun d => if stop = i then
            Run.repeated atLeastOnce (if atLeastOnce && values.isEmpty then [v] else values) i
          else Run.many (items d) atLeastOnce rounds (v :: values) stop := by
        split
        · next stay =>
          rw [stay] at derived
          split
          · next first =>
            simp only [Bool.and_eq_true, List.isEmpty_iff] at first
            exact ended [v] [v] i (.round derived .done) (by simp [first.2])
          · exact ended values [] i .done (by simp)
        · next moved =>
          have further := derived.le_stop
          have bounded := derived.stop_le
          refine (ih (fun j behind within => each j (by omega) (by omega)) (by omega)).weaken ?_
          intro w behind here
          obtain ⟨vs, rfl, rounds, some⟩ := here
          exact ⟨v :: vs, by simp, .round derived rounds, by simp⟩
      obtain ⟨o, s₂, t₂, run', runs', ends⟩ := rest s₁ t₁ agree.related
        (agree.proper_left properLeft) (agree.proper_right properRight)
      refine ⟨o, s₂, t₂, ?_, ?_, ends.after agree⟩
      · simp only [Run.many, run]
        split <;> simp_all
      · filter_upwards [runs, runs'] with d here there
        simp only [Run.many, here]
        split <;> simp_all

mutual
theorem evaluate (conduct : Conduct p input R H start scope call calls) : ∀ (e : Expr) (i : Int),
    Inside p.grammar input start scope (.expr e) i →
      Tracks R H (fun v stop => p.Derives input (.expr e) i [v] stop) (p.evaluate input call e i)
        fun d => p.evaluate input (calls d) e i
  | .literal t, i, _ => by
    simp only [TypedGrammar.evaluate]
    refine .nested 2 ?_
    split
    · exact .terminal conduct.blind (conduct.halts _ nofun) fun _ _ here => .literal here
    · exact .halt (conduct.halts _ nofun)
  | .oneOf set, i, _ => by
    simp only [TypedGrammar.evaluate]
    refine .nested 3 ?_
    split
    · exact .terminal conduct.blind (conduct.halts _ nofun) fun _ _ here => .oneOf here
    · exact .halt (conduct.halts _ nofun)
  | .reference name, i, inside => by
    simp only [TypedGrammar.evaluate]
    split
    · next found =>
      have listed := Grammar.mem_ruleNames_of_rule? found
      refine .nested 1 (conduct.tracks inside.behind inside.within ?_ (fun here => inside.first here name ?_) listed)
      · exact inside.refers name (by simp [Goal.references, Expr.references])
      · simp [Goal.callees, Expr.leftCallees, listed]
    · next noRule known =>
      exact .nested 2 (.terminal conduct.blind (conduct.halts _ nofun) fun _ _ here => .token noRule known here)
    · exact .halt (conduct.halts _ nofun)
  | .sequence items, i, inside => by
    simp only [TypedGrammar.evaluate]
    refine .nested 1 (.andThen (conduct.evaluateAll items i (inside.part rfl rfl)) ?_)
    exact fun vs stop derived => .done (.sequence derived)
  | .choice alternatives, i, inside => by
    simp only [TypedGrammar.evaluate]
    refine .nested 1 ((conduct.evaluateFirst alternatives i fun e listed => inside.alternative listed).weaken ?_)
    intro v stop ⟨e, listed, derived⟩
    exact .choice listed derived
  | .optional item, i, inside => by
    simp only [TypedGrammar.evaluate]
    refine .nested 1 (.orElse ((conduct.evaluate item i (inside.part rfl rfl)).weaken ?_) ?_)
    · exact fun v stop derived => .present derived
    · exact .done .absent
  | .repetition atLeastOnce item, i, inside => by
    simp only [TypedGrammar.evaluate]
    have rounds : Inside p.grammar input start scope (.rounds item) i := inside.part rfl rfl
    have each := fun j behind within => conduct.evaluate item j (rounds.later behind within)
    refine .nested 1 ((many each (Nat.lt_succ_self _)).weaken ?_)
    intro v stop here
    obtain ⟨vs, rfl, derived, enough⟩ := here
    exact .repetition derived enough
  | .bind name item, i, inside => by
    simp only [TypedGrammar.evaluate]
    refine (conduct.evaluate item i (inside.part rfl rfl)).weaken ?_
    exact fun v stop derived => .bind derived
  | .ahead item, i, inside => by
    simp only [TypedGrammar.evaluate]
    refine .nested 1 (.andThen (conduct.evaluate item i (inside.part rfl rfl)) ?_)
    exact fun v stop derived => .done (.ahead derived)
  | .notAhead item, i, inside => by
    simp only [TypedGrammar.evaluate]
    have inner := conduct.evaluate item i (inside.part rfl rfl)
    exact .nested 1 (.negate conduct.blind inner .notAhead)
  | .unknown _, i, _ => by
    simp only [TypedGrammar.evaluate]
    exact .noMatch

theorem evaluateAll (conduct : Conduct p input R H start scope call calls) : ∀ (es : List Expr) (i : Int),
    Inside p.grammar input start scope (.items es) i →
      Tracks R H (fun vs stop => p.Derives input (.items es) i vs stop) (p.evaluateAll input call es i)
        fun d => p.evaluateAll input (calls d) es i
  | [], i, _ => by
    simp only [TypedGrammar.evaluateAll]
    exact .done .nil
  | e :: es, i, inside => by
    simp only [TypedGrammar.evaluateAll]
    refine .andThen (conduct.evaluate e i inside.head) fun v mid derived => ?_
    refine .andThen (conduct.evaluateAll es mid (inside.tail conduct.faithful derived)) ?_
    exact fun vs stop rest => .done (.cons derived rest)

theorem evaluateFirst (conduct : Conduct p input R H start scope call calls) : ∀ (es : List Expr) (i : Int),
    (∀ e ∈ es, Inside p.grammar input start scope (.expr e) i) →
      Tracks R H (fun v stop => ∃ e ∈ es, p.Derives input (.expr e) i [v] stop)
        (p.evaluateFirst input call es i) fun d => p.evaluateFirst input (calls d) es i
  | [], i, _ => by
    simp only [TypedGrammar.evaluateFirst]
    exact .noMatch
  | e :: es, i, inside => by
    simp only [TypedGrammar.evaluateFirst]
    refine .orElse ((conduct.evaluate e i (inside e List.mem_cons_self)).weaken ?_)
      ((conduct.evaluateFirst es i fun f listed => inside f (List.mem_cons_of_mem _ listed)).weaken ?_)
    · exact fun v stop derived => ⟨e, List.mem_cons_self, derived⟩
    · intro v stop ⟨f, listed, derived⟩
      exact ⟨f, List.mem_cons_of_mem _ listed, derived⟩
end

theorem finish (blind : Blind R) (halts : ∀ h, h ≠ .exhausted → H h) {typed : TypedProduction}
    {i stop : Int} {values : List Value} :
    Tracks R H (fun v end' => typed.value values = .ok v ∧ end' = stop)
      (TypedGrammar.finish typed i values stop) fun _ => TypedGrammar.finish typed i values stop := by
  intro s t related properLeft properRight
  simp only [TypedGrammar.finish]
  cases made : typed.value values with
  | ok v =>
    refine ⟨_, _, _, rfl, .of_forall fun _ => rfl, .matched (.stay ?_ properLeft properRight rfl rfl) ⟨rfl, rfl⟩⟩
    exact blind related rfl rfl rfl rfl
  | error e =>
    cases e with
    | fault f => exact ⟨_, _, _, rfl, .of_forall fun _ => rfl, .halted (halts _ nofun)⟩
    | misfit m => exact ⟨_, _, _, rfl, .of_forall fun _ => rfl, .halted (halts _ nofun)⟩

theorem production (conduct : Conduct p input R H start scope call calls) {q : TypedProduction} {i : Int}
    (inside : Inside p.grammar input start scope (.items q.items) i) :
    Tracks R H (fun v stop => ∃ vs, p.Derives input (.items q.items) i vs stop ∧ q.value vs = .ok v)
      (p.production input call q i) fun d => p.production input (calls d) q i := by
  refine .nested 1 (.andThen (conduct.evaluateAll q.items i inside) fun vs stop derived => ?_)
  refine (finish conduct.blind conduct.halts).weaken ?_
  intro v _ here
  obtain ⟨made, rfl⟩ := here
  exact ⟨vs, derived, made⟩

theorem firstProduction (conduct : Conduct p input R H start scope call calls) {i : Int}
    {productions : List TypedProduction}
    (inside : ∀ q ∈ productions, Inside p.grammar input start scope (.items q.items) i) :
    Tracks R H (fun v stop => ∃ q ∈ productions, ∃ vs, p.Derives input (.items q.items) i vs stop ∧
        q.value vs = .ok v)
      (p.firstProduction input call productions i) fun d => p.firstProduction input (calls d) productions i := by
  induction productions with
  | nil => exact .noMatch
  | cons q rest ih =>
    refine .orElse ((conduct.production (inside q List.mem_cons_self)).weaken ?_)
      ((ih fun r listed => inside r (List.mem_cons_of_mem _ listed)).weaken ?_)
    · exact fun v stop made => ⟨q, List.mem_cons_self, made⟩
    · intro v stop ⟨r, listed, made⟩
      exact ⟨r, List.mem_cons_of_mem _ listed, made⟩

theorem inside_production {name : String} {typed : TypedRule} {q : TypedProduction} (faithful : p.Faithful)
    (known : p.typed? name = some typed) (listed : q ∈ typed.productions) (i : Int) :
    Inside p.grammar input i (p.grammar.scope name) (.items q.items) i := by
  obtain ⟨r, found, describes⟩ := faithful known
  obtain ⟨production, member, reads⟩ := describes.production listed
  refine ⟨Int.le_refl _, by omega, ?_, fun _ callee called => Grammar.leftCalls_of_items found member ?_⟩
  · intro other mentioned
    simp only [Goal.references, reads.1, Expr.allReferences_allLaidOpen] at mentioned
    exact ⟨r, found, production, member, mentioned⟩
  · rw [reads.1] at called
    exact Expr.mem_sequenceCallees_allLaidOpen production.items |>.mp called

theorem body {name : String} {typed : TypedRule} (known : p.typed? name = some typed) {i : Int}
    (conduct : Conduct p input R H i (p.grammar.scope name) call calls) :
    Tracks R H (fun v stop => p.Derives input (.expr (.reference name)) i [v] stop)
      (p.body input call typed i) fun d => p.body input (calls d) typed i := by
  have choice : Tracks R H (fun v stop => p.Derives input (.expr (.reference name)) i [v] stop)
      (Run.nested 1 (p.firstProduction input call typed.productions i))
      fun d => Run.nested 1 (p.firstProduction input (calls d) typed.productions i) := by
    have inside : ∀ q ∈ typed.productions,
        Inside p.grammar input i (p.grammar.scope name) (.items q.items) i :=
      fun q listed => inside_production conduct.faithful known listed i
    refine .nested 1 ((conduct.firstProduction inside).weaken ?_)
    intro v stop ⟨q, listed, vs, derived, made⟩
    exact .rule known listed derived made
  unfold TypedGrammar.body
  cases typed.errorName with
  | none => exact choice
  | some name => exact .nested 1 (.named conduct.blind name choice)

end Conduct

end TypedGrammar

end Packrat
