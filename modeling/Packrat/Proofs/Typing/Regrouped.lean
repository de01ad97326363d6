import Packrat.Proofs.Grammar.Regrouped
import Packrat.Proofs.Reporting
import Packrat.Typing.Inference

namespace Packrat

def Refusal.withoutText : Refusal → Refusal
  | .grammar e => .grammar { e with text := "" }
  | refusal => refusal

inductive Alike {α β : Type} (R : α → β → Prop) : Except Refusal α → Except Refusal β → Prop where
  | ok {a : α} {b : β} (related : R a b) : Alike R (.ok a) (.ok b)
  | error {e e' : Refusal} (same : e'.withoutText = e.withoutText) : Alike R (.error e) (.error e')

namespace Alike

variable {α β γ : Type} {R : β → γ → Prop} {result result' : Except Refusal α}

theorem refl (result : Except Refusal α) : Alike Eq result result := by
  cases result with
  | ok a => exact .ok rfl
  | error e => exact .error rfl

theorem bind {next : α → Except Refusal β} {next' : α → Except Refusal γ} (first : Alike Eq result result')
    (rest : ∀ a, Alike R (next a) (next' a)) : Alike R (result >>= next) (result' >>= next') := by
  cases first with
  | ok same =>
    cases same
    exact rest _
  | error same => exact .error same

end Alike

/-- Work that comes to results that `R` relates, or to refusals that are the same but for the text, and that leaves the
same state, whatever state it finds. -/
def InStep {σ α β : Type} (R : α → β → Prop) (work : ExceptT Refusal (StateM σ) α)
    (work' : ExceptT Refusal (StateM σ) β) :
    Prop :=
  ∀ s, Alike R (work.run.run s).1 (work'.run.run s).1 ∧ (work'.run.run s).2 = (work.run.run s).2

namespace InStep

variable {σ α β γ : Type} {R : β → γ → Prop}

theorem refl (work : ExceptT Refusal (StateM σ) α) : InStep Eq work work := fun _ => ⟨.refl _, rfl⟩

theorem pure {b : β} {c : γ} (related : R b c) :
    InStep R (Pure.pure b : ExceptT Refusal (StateM σ) β) (Pure.pure c) := fun _ => ⟨.ok related, rfl⟩

theorem throw (e : Refusal) :
    InStep R (MonadExcept.throw e : ExceptT Refusal (StateM σ) β) (MonadExcept.throw e) := fun _ => ⟨.error rfl, rfl⟩

theorem lift {result : Except Refusal β} {result' : Except Refusal γ} (alike : Alike R result result') :
    InStep R (liftM result : ExceptT Refusal (StateM σ) β) (liftM result') := by
  intro s
  cases alike with
  | ok related => exact ⟨.ok related, rfl⟩
  | error same => exact ⟨.error same, rfl⟩

theorem bind {work work' : ExceptT Refusal (StateM σ) α} {next : α → ExceptT Refusal (StateM σ) β}
    {next' : α → ExceptT Refusal (StateM σ) γ} (first : InStep Eq work work')
    (rest : ∀ a, InStep R (next a) (next' a)) :
    InStep R (work >>= next) (work' >>= next') := by
  intro s
  obtain ⟨alike, left⟩ := first s
  rw [run_bind_eq, run_bind_eq, left]
  generalize (work.run.run s).1 = result, (work'.run.run s).1 = result' at alike
  cases alike with
  | ok same =>
    cases same
    exact rest _ _
  | error same => exact ⟨.error same, rfl⟩

theorem mapM {δ : Type} {S : α → δ → Prop} {work : α → ExceptT Refusal (StateM σ) β}
    {work' : δ → ExceptT Refusal (StateM σ) β}
    {xs : List α} {ys : List δ} (each : List.Forall₂ S xs ys) (inStep : ∀ x y, S x y → InStep Eq (work x) (work' y)) :
    InStep Eq (xs.mapM work) (ys.mapM work') := by
  induction each with
  | nil => exact .refl _
  | cons here _ ih =>
    rw [List.mapM_cons, List.mapM_cons]
    exact .bind (inStep _ _ here) fun _ => .bind ih fun _ => .refl _

theorem forM {δ : Type} {S : α → δ → Prop} {work : α → ExceptT Refusal (StateM σ) Unit}
    {work' : δ → ExceptT Refusal (StateM σ) Unit} {xs : List α} {ys : List δ} (each : List.Forall₂ S xs ys)
    (inStep : ∀ x y, S x y → InStep Eq (work x) (work' y)) : InStep Eq (xs.forM work) (ys.forM work') := by
  induction each with
  | nil => exact .refl _
  | cons here _ ih => exact .bind (inStep _ _ here) fun _ => ih

end InStep

namespace Typing

section Expressions

variable {terminal : ValueType} {names names' : String → Infer ValueType} {pending : List String}

theorem remember_inStep {work work' : Infer ValueType} (e : Expr) (inStep : InStep Eq work work') :
    InStep Eq (remember e work) (remember e work') := by
  unfold remember
  refine .bind (.refl _) fun progress => ?_
  split
  · exact .refl _
  · exact .bind inStep fun _ => .refl _

mutual
theorem typeOf_inStep (inStep : ∀ name, InStep Eq (names name) (names' name)) : ∀ e : Expr,
    InStep Eq (typeOf terminal names pending e) (typeOf terminal names' pending e)
  | .literal _ | .oneOf _ | .unknown _ => by
    unfold typeOf
    exact remember_inStep _ (.refl _)
  | .reference name => by
    unfold typeOf
    exact remember_inStep _ (inStep name)
  | .bind _ item => by
    unfold typeOf
    exact remember_inStep _ (typeOf_inStep inStep item)
  | .sequence items | .choice items => by
    unfold typeOf
    exact remember_inStep _ (.bind (typesOf_inStep inStep items) fun _ => .refl _)
  | .optional item | .repetition _ item | .ahead item | .notAhead item => by
    unfold typeOf
    exact remember_inStep _ (.bind (typeOf_inStep inStep item) fun _ => .refl _)

theorem typesOf_inStep (inStep : ∀ name, InStep Eq (names name) (names' name)) : ∀ es : List Expr,
    InStep Eq (typesOf terminal names pending es) (typesOf terminal names' pending es)
  | [] => .refl _
  | e :: es => by
    unfold typesOf
    exact .bind (typeOf_inStep inStep e) fun _ => .bind (typesOf_inStep inStep es) fun _ => .refl _
end

end Expressions

section Productions

variable {p p' : Production} {pending : List String}

theorem addBindings_alike (shown : p'.unshowable? = p.unshowable?) (index : Nat) (bound : List Binding)
    (paths : List (String × Path)) :
    Alike Eq (addBindings p pending index bound paths) (addBindings p' pending index bound paths) := by
  induction paths generalizing bound with
  | nil => exact .refl _
  | cons path rest ih =>
    simp only [addBindings, shown]
    split
    · cases p.unshowable? with
      | none => exact .error rfl
      | some why => exact .error rfl
    · exact ih _

theorem bindingsFrom_alike (shown : p'.unshowable? = p.unshowable?) (index : Nat) (bound : List Binding)
    (items : List Expr) :
    Alike Eq (bindingsFrom p pending index bound items) (bindingsFrom p' pending index bound items) := by
  induction items generalizing index bound with
  | nil => exact .refl _
  | cons item rest ih =>
    unfold bindingsFrom
    split
    · exact .bind (addBindings_alike shown index bound _) fun _ => ih _ _
    · exact .refl _

end Productions

section Rules

variable {g h : Grammar} {actions : List (String × Action)} {p p' : Production} {r r' : Rule} {pending : List String}

theorem typedProduction_alike (rules : Rule.Regrouped r r') (regrouped : Production.Regrouped p p') (items : List Expr)
    (types : List ValueType) : Alike Eq (typedProduction ⟨g, actions⟩ pending r p items types)
      (typedProduction ⟨h, actions⟩ pending r' p' items types) := by
  obtain ⟨_, rfl, _⟩ := rules
  obtain ⟨items', rfl, groups⟩ := regrouped
  have shown : Production.unshowable? { p with items := items' } = p.unshowable? := groups.firstUnshowable?_eq
  unfold typedProduction
  refine .bind (bindingsFrom_alike shown 0 [] items) fun bindings => ?_
  cases p.action with
  | none => exact .refl _
  | some spec => exact .refl _

variable {names names' : String → Infer ValueType}

theorem typeProduction_inStep (regrouped : g.Regrouped h) (inStep : ∀ name, InStep Eq (names name) (names' name))
    (rules : Rule.Regrouped r r') (productions : Production.Regrouped p p') :
    InStep Eq (typeProduction ⟨g, actions⟩ names pending r p) (typeProduction ⟨h, actions⟩ names' pending r' p') := by
  have terminal : Context.terminal ⟨h, actions⟩ = Context.terminal ⟨g, actions⟩ := by
    rw [Context.terminal, Context.terminal, regrouped.usesTokens]
  have items : Expr.allLaidOpen p'.items = Expr.allLaidOpen p.items := by
    obtain ⟨_, rfl, groups⟩ := productions
    exact groups.allLaidOpen_eq
  unfold typeProduction
  rw [terminal, items]
  exact .bind (typesOf_inStep inStep _) fun types => .lift (typedProduction_alike rules productions _ types)

variable {namesIn namesIn' : List String → String → Infer ValueType}

theorem typeRule_inStep (regrouped : g.Regrouped h)
    (inStep : ∀ pending name, InStep Eq (namesIn pending name) (namesIn' pending name)) (rules : Rule.Regrouped r r') :
    InStep Eq (typeRule ⟨g, actions⟩ namesIn pending r) (typeRule ⟨h, actions⟩ namesIn' pending r') := by
  have related := rules
  obtain ⟨productions, rfl, each⟩ := related
  unfold typeRule
  refine .bind (.refl _) fun progress => ?_
  dsimp only
  split
  · exact .refl _
  · refine .bind (.mapM each fun p p' groups => typeProduction_inStep regrouped (inStep _) rules groups) fun typed => ?_
    exact .bind (.refl _) fun inferred => .bind (.refl _) fun type => .refl _

theorem typeOfName_inStep (regrouped : g.Regrouped h) (depth : Nat) : ∀ (pending : List String) (name : String),
    InStep Eq (typeOfName ⟨g, actions⟩ depth pending name) (typeOfName ⟨h, actions⟩ depth pending name) := by
  induction depth with
  | zero => exact fun _ _ => .refl _
  | succ depth ih =>
    intro pending name
    unfold typeOfName
    dsimp only
    rw [regrouped.token? name]
    have found := regrouped.rule? name
    generalize g.rule? name = rule, h.rule? name = rule' at found
    cases found with
    | none =>
      cases g.token? name with
      | none => exact .refl _
      | some t => exact .refl _
    | some rules =>
      obtain ⟨productions, rfl, each⟩ := rules
      dsimp only
      split
      · exact .refl _
      · split
        · exact .refl _
        · exact .bind (typeRule_inStep regrouped ih ⟨productions, rfl, each⟩) fun _ => .refl _

theorem round_inStep (regrouped : g.Regrouped h) : InStep Eq (round ⟨g, actions⟩) (round ⟨h, actions⟩) := by
  have depth : h.rules.length = g.rules.length := regrouped.rules.length_eq.symm
  unfold round
  refine .bind (.refl _) fun _ => .forM regrouped.rules fun r r' rules => ?_
  refine .bind (typeRule_inStep regrouped (fun pending name => ?_) rules) fun _ => .refl _
  unfold Context.typeOfName
  rw [depth]
  exact typeOfName_inStep regrouped _ pending name

theorem roundsUpTo_inStep (regrouped : g.Regrouped h) (rounds : Nat) :
    InStep Eq (roundsUpTo ⟨g, actions⟩ rounds) (roundsUpTo ⟨h, actions⟩ rounds) := by
  induction rounds with
  | zero =>
    unfold roundsUpTo
    exact .bind (round_inStep regrouped) fun _ => .bind (.refl _) fun progress => .refl _
  | succ rounds ih =>
    unfold roundsUpTo
    refine .bind (round_inStep regrouped) fun _ => .bind (.refl _) fun progress => ?_
    split
    · exact .refl _
    · exact .bind (.refl _) fun _ => ih

theorem typedRules_alike (regrouped : g.Regrouped h) : Alike Eq (typedRules g actions) (typedRules h actions) := by
  have rounds : h.rules.length = g.rules.length := regrouped.rules.length_eq.symm
  unfold typedRules
  rw [rounds]
  exact (roundsUpTo_inStep regrouped _ {}).1

end Rules

end Typing

end Packrat
