import Packrat.Proofs.Parse.Conduct
import Packrat.Proofs.Typing.Checked
import Packrat.Proofs.Typing.Refinement

namespace Packrat

namespace Expr

variable {types types' : String → Option ValueType} {terminal : ValueType}

mutual
theorem typeIn_congr : ∀ {e : Expr}, (∀ name ∈ e.references, types name = types' name) →
    typeIn types terminal e = typeIn types' terminal e
  | .literal _, _ | .oneOf _, _ | .unknown _, _ => by simp only [typeIn]
  | .reference name, same => by
    simp only [typeIn]
    exact same name List.mem_cons_self
  | .sequence items, same | .choice items, same => by
    simp only [typeIn]
    rw [typesIn_congr (show ∀ name ∈ allReferences items, types name = types' name from same)]
  | .bind _ item, same | .optional item, same | .repetition _ item, same | .ahead item, same | .notAhead item,
    same => by
    simp only [typeIn]
    rw [typeIn_congr (e := item) same]

theorem typesIn_congr : ∀ {es : List Expr}, (∀ name ∈ allReferences es, types name = types' name) →
    typesIn types terminal es = typesIn types' terminal es
  | [], _ => rfl
  | e :: es, same => by
    obtain ⟨here, later⟩ := List.forall_mem_append.mp same
    rw [typesIn, typesIn, typeIn_congr here, typesIn_congr later]
end

end Expr

namespace Typing

open ValueType

section

variable {r : Rule} {pending : List String} {t u : ValueType} {ts as bs : List ValueType}

def agreed (r : Rule) (ts : List ValueType) : Option ValueType :=
  match r.type, ts with
  | none, [] => some .unit
  | none, ts => common? ts
  | some name, [] => some (.named name)
  | some name, ts => (common? ts).bind (ValueType.named name).unify

theorem agreed_undeclared (undeclared : r.type = none) (some : ts ≠ []) : agreed r ts = common? ts := by
  cases ts with
  | nil => exact absurd rfl some
  | cons => simp [agreed, undeclared]

theorem eq_of_unify_named {name : String} (agreed : (ValueType.named name).unify t = some u) : u = .named name := by
  cases t <;> simp only [unify, reduceCtorEq, Option.ite_none_right_eq_some, Option.some.injEq] at agreed
  · exact agreed.symm
  · exact agreed.2.symm

theorem agreed_declared {name : String} (declared : r.type = some name) (agreed : agreed r ts = some t) :
    t = .named name := by
  cases ts with
  | nil => simpa [Typing.agreed, declared, eq_comm] using agreed
  | cons first rest =>
    simp only [Typing.agreed, declared, Option.bind_eq_some_iff] at agreed
    obtain ⟨u, _, agreed⟩ := agreed
    exact eq_of_unify_named agreed

theorem unifyProductions_eq_ok {name : String} :
    unifyProductions name pending t ts = .ok u ↔ ts.foldlM unify t = some u := by
  induction ts generalizing t with
  | nil => simp [unifyProductions]
  | cons first rest ih =>
    simp only [unifyProductions, List.foldlM_cons]
    cases unify t first with
    | some w => simpa using ih
    | none => simp [refuse]

theorem productionsType_eq_ok {inferred : Option ValueType} :
    productionsType r pending ts = .ok inferred ↔
      ts = [] ∧ inferred = none ∨ ∃ u, common? ts = some u ∧ inferred = some u := by
  cases ts with
  | nil => simp [productionsType, common?, eq_comm]
  | cons first rest =>
    simp only [productionsType, common?, ← @unifyProductions_eq_ok pending _ _ _ r.name]
    cases unifyProductions r.name pending first rest <;> simp [Except.map, eq_comm]

theorem ruleType_declared {name : String} (declared : r.type = some name) :
    ruleType r pending (some u) = .ok t ↔ (ValueType.named name).unify u = some t := by
  cases agreed : (ValueType.named name).unify u with
  | some w => simp [ruleType, declared, agreed, eq_of_unify_named agreed]
  | none => simp [ruleType, declared, agreed, refuse]

theorem agreed_eq_some : agreed r ts = some t ↔
    ∃ inferred, productionsType r pending ts = .ok inferred ∧ ruleType r pending inferred = .ok t := by
  simp only [productionsType_eq_ok]
  cases ts with
  | nil => cases declared : r.type <;> simp [agreed, ruleType, declared, common?]
  | cons first rest =>
    cases declared : r.type with
    | none => simp [agreed, ruleType, declared]
    | some name => simp [agreed, declared, Option.bind_eq_some_iff, ← @ruleType_declared r pending _ _ _ declared]

theorem agreed_mono {lenient : Bool} {a b : ValueType} (fit : List.Forall₂ (Fits lenient) as bs)
    (here : agreed r as = some a) (there : agreed r bs = some b) : Fits lenient a b := by
  cases declared : r.type with
  | some name =>
    rw [agreed_declared declared here, agreed_declared declared there]
    exact .refl _
  | none =>
    cases fit with
    | nil =>
      cases here.symm.trans there
      exact .refl _
    | cons first rest =>
      rw [agreed_undeclared declared (List.cons_ne_nil _ _)] at here there
      exact common?_mono (.cons first rest) here there

theorem exists_agreed {b : ValueType} (fit : List.Forall₂ (Fits false) as bs) (there : agreed r bs = some b) :
    ∃ a, agreed r as = some a := by
  cases fit with
  | nil => exact ⟨b, there⟩
  | @cons first first' rest rest' here others =>
    have fit : List.Forall₂ (Fits false) (first :: rest) (first' :: rest') := .cons here others
    cases declared : r.type with
    | none =>
      rw [agreed_undeclared declared (List.cons_ne_nil _ _)] at there ⊢
      exact exists_common? fit there
    | some name =>
      simp only [agreed, declared, Option.bind_eq_some_iff] at there ⊢
      obtain ⟨u, common, unified⟩ := there
      obtain ⟨t, common'⟩ := exists_common? fit common
      have fits : Fits false t b := (common?_mono fit common' common).trans (fits_unify' unified)
      obtain ⟨w, unified'⟩ := exists_unify (fits_unify unified) fits
      exact ⟨w, t, common', unified'⟩

end

section

variable {ctx : Context} {r : Rule} {p : Production} {pending : List String} {q : TypedProduction}

def typeWith (g : Grammar) (types : String → ValueType) (name : String) : Option ValueType :=
  match g.rule? name, g.token? name with
  | some r, _ => match r.type with
    | some type => some (.named type)
    | none => some (types name)
  | none, some t => some (tokenType t)
  | none, none => none

def productionType (r : Rule) (p : Production) (types : List ValueType) : ValueType :=
  match p.action with
  | some spec => actionType r spec
  | none => .gather (select (Expr.contributing (Expr.allLaidOpen p.items)) types)

theorem productionType_mono {lenient : Bool} {as bs : List ValueType} (fit : List.Forall₂ (Fits lenient) as bs) :
    Fits lenient (productionType r p as) (productionType r p bs) := by
  unfold productionType
  split
  · exact .refl _
  · exact gather_mono (forall₂_select fit _)

def productionIn (ctx : Context) (types : String → ValueType) (r : Rule) (p : Production) : Option ValueType :=
  (Expr.typesIn (typeWith ctx.grammar types) ctx.terminal (Expr.allLaidOpen p.items)).map (productionType r p)

def ruleIn (ctx : Context) (types : String → ValueType) (r : Rule) : Option ValueType :=
  (r.productions.mapM (productionIn ctx types r)).bind (agreed r)

def Solves (ctx : Context) (types : String → ValueType) : Prop :=
  ∀ r ∈ ctx.grammar.rules, ruleIn ctx types r = some (types r.name)

def assigned (rules : List (String × TypedRule)) (name : String) : ValueType :=
  ((rules.lookup name).map (·.type)).getD .unknown

theorem ruleIn_eq_some {types : String → ValueType} {t : ValueType} : ruleIn ctx types r = some t ↔
    ∃ ts, List.Forall₂ (fun p t => productionIn ctx types r p = some t) r.productions ts ∧ agreed r ts = some t := by
  simp [ruleIn, Option.bind_eq_some_iff, mapM_eq_some]

theorem ruleIn_congr {types types' : String → ValueType}
    (same : ∀ p ∈ r.productions, ∀ name ∈ Expr.allReferences p.items,
      typeWith ctx.grammar types name = typeWith ctx.grammar types' name) :
    ruleIn ctx types r = ruleIn ctx types' r := by
  rw [ruleIn, ruleIn, mapM_congr fun p member => ?_]
  rw [productionIn, productionIn, Expr.typesIn_congr]
  rw [Expr.allReferences_allLaidOpen]
  exact same p member

theorem addBindings_again {pending' : List String} {index : Nat} {bound all : List Binding}
    {paths : List (String × Path)}
    (added : addBindings p pending index bound paths = .ok all) :
    addBindings p pending' index bound paths = .ok all := by
  induction paths generalizing bound with
  | nil => exact added
  | cons first rest ih =>
    obtain ⟨fresh, added⟩ := addBindings_cons added
    rw [addBindings, if_neg fresh]
    exact ih added

theorem bindingsFrom_again {pending' : List String} {index : Nat} {bound all : List Binding} {items : List Expr}
    (found : bindingsFrom p pending index bound items = .ok all) :
    bindingsFrom p pending' index bound items = .ok all := by
  induction items generalizing index bound with
  | nil => exact found
  | cons item rest ih =>
    unfold bindingsFrom at found ⊢
    cases paths : item.boundPaths with
    | ok paths' =>
      rw [paths] at found
      obtain ⟨bound', added, found⟩ := ok_of_bind found
      simp only [addBindings_again added]
      exact ih found
    | error e =>
      rw [paths] at found
      obtain ⟨text, _, found⟩ := ok_of_bind found
      cases found

theorem findAction_again {ctx' : Context} {pending' : List String} {spec : ActionSpec} {action : Option Action}
    (same : ctx'.actions = ctx.actions) (found : findAction ctx pending spec = .ok action) :
    findAction ctx' pending' spec = .ok action := by
  unfold findAction at found ⊢
  rw [same]
  split at found
  · exact found
  · exact found
  · split at found
    · exact found
    · cases found

theorem typedProduction_again {ctx' : Context} {pending' : List String} {types types' : List ValueType}
    (same : ctx'.actions = ctx.actions)
    (made : typedProduction ctx pending r p (Expr.allLaidOpen p.items) types = .ok q) :
    typedProduction ctx' pending' r p (Expr.allLaidOpen p.items) types' =
      .ok { q with type := productionType r p types' } := by
  unfold typedProduction at made ⊢
  obtain ⟨bindings, found, made⟩ := ok_of_bind made
  rw [bindingsFrom_again found]
  unfold productionType
  cases given : p.action with
  | none =>
    rw [given] at made
    cases made
    rfl
  | some spec =>
    rw [given] at made
    obtain ⟨action, known, made⟩ := ok_of_bind made
    cases made
    simp only [Except.bind, Bind.bind, findAction_again same known]
    rfl

theorem type_of_typedProduction {types : List ValueType}
    (made : typedProduction ctx pending r p (Expr.allLaidOpen p.items) types = .ok q) :
    q.type = productionType r p types := by
  have again : typedProduction ctx pending r p (Expr.allLaidOpen p.items) types =
    .ok { q with type := productionType r p types } := typedProduction_again rfl made
  rw [made, Except.ok.injEq] at again
  rw [again]

end

section

variable {ctx : Context} {rules : List (String × TypedRule)} {r : Rule} {typed : TypedRule}

theorem assigned_of_lookup {name : String} (found : rules.lookup name = some typed) :
    assigned rules name = typed.type := by
  rw [assigned, found]
  rfl

theorem typeOf?_eq (complete : Complete ctx rules) :
    typeOf? ctx.grammar rules = typeWith ctx.grammar (assigned rules) := by
  funext name
  unfold typeOf? typeWith
  cases found : ctx.grammar.rule? name with
  | none => cases ctx.grammar.token? name <;> rfl
  | some r =>
    obtain ⟨typed, here⟩ := complete.known r (Grammar.mem_of_rule? found)
    rw [Grammar.name_of_rule? found] at here
    cases declared : r.type <;> simp [assigned_of_lookup here, here, declared]

theorem ruleIn_of_checked (complete : Complete ctx rules) (checked : Checked ctx rules r typed) :
    ruleIn ctx (assigned rules) r = some typed.type := by
  obtain ⟨pending, inferred, common, made⟩ := checked.type
  refine ruleIn_eq_some.mpr ⟨typed.productions.map (·.type), ?_, agreed_eq_some.mpr ⟨inferred, common, made⟩⟩
  rw [List.forall₂_map_right_iff]
  refine List.Forall₂.flip (checked.productions.imp fun q p here => ?_)
  obtain ⟨pending, types, read, made⟩ := here
  change productionIn ctx (assigned rules) r p = some q.type
  rw [productionIn, ← typeOf?_eq complete, read, Option.map_some, type_of_typedProduction made]

theorem Complete.solves (complete : Complete ctx rules) : Solves ctx (assigned rules) := by
  intro r listed
  obtain ⟨typed, here⟩ := complete.known r listed
  obtain ⟨r', found, checked⟩ := complete.checked here
  cases (Grammar.rule?_of_mem listed).symm.trans found
  rw [assigned_of_lookup here]
  exact ruleIn_of_checked complete checked

end

/-- The same rules and tokens, with the rules in any order. -/
structure Reordered (g h : Grammar) : Prop where
  rules : h.rules.Perm g.rules
  tokens : h.tokens = g.tokens

namespace Reordered

variable {g h : Grammar} {actions : List (String × Action)} {types : String → ValueType} {r : Rule}

theorem symm (reordered : Reordered g h) : Reordered h g := ⟨reordered.rules.symm, reordered.tokens.symm⟩

theorem terminal (reordered : Reordered g h) : Context.terminal ⟨h, actions⟩ = Context.terminal ⟨g, actions⟩ := by
  rw [Context.terminal, Context.terminal, Grammar.usesTokens, Grammar.usesTokens, reordered.tokens]

theorem typeWith (reordered : Reordered g h) : typeWith h types = Typing.typeWith g types := by
  funext name
  simp only [Typing.typeWith, Grammar.rule?_of_perm reordered.rules, Grammar.token?, reordered.tokens]

theorem ruleIn (reordered : Reordered g h) : ruleIn ⟨h, actions⟩ types r = Typing.ruleIn ⟨g, actions⟩ types r := by
  have each : productionIn ⟨h, actions⟩ types r = productionIn ⟨g, actions⟩ types r := by
    funext p
    rw [productionIn, productionIn, reordered.terminal, reordered.typeWith]
  rw [Typing.ruleIn, Typing.ruleIn, each]

theorem solves (reordered : Reordered g h) (solves : Solves ⟨g, actions⟩ types) : Solves ⟨h, actions⟩ types := by
  intro r listed
  rw [reordered.ruleIn]
  exact solves r (reordered.rules.mem_iff.mp listed)

end Reordered

end Typing

end Packrat
