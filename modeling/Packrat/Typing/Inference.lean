import Packrat.Grammar.Basic
import Packrat.Grammar.Refusal
import Packrat.TextSet
import Packrat.Typing.Typed

namespace Packrat.Typing

structure Progress where
  types : List (Expr × ValueType) := []
  typedRules : List (String × TypedRule) := []
  assumed : List String := []
  assumptions : List (String × ValueType) := []

abbrev Infer := ExceptT Refusal (StateM Progress)

structure Context where
  grammar : Grammar
  actions : List (String × Action)

def Context.terminal (ctx : Context) : ValueType :=
  .named (if ctx.grammar.usesTokens then "Token" else "str")

def refuse {α : Type} (pending : List String) (kind : GrammarError.Kind) (text : String) :
    Except Refusal α :=
  .error (.grammar ⟨kind, text, pending.head?⟩)

def remember (e : Expr) (work : Infer ValueType) : Infer ValueType := do
  match (← get).types.find? fun (known, _) => known.same e with
  | some (_, type) => return type
  | none =>
    let type ← work
    modify fun p => { p with types := (e, type) :: p.types }
    return type

def unifyAlternatives (whole : Expr) (pending : List String) (type : ValueType) :
    List (Expr × ValueType) → Except Refusal ValueType
  | [] => .ok type
  | (e, t) :: rest =>
    match type.unify t with
    | some u => unifyAlternatives whole pending u rest
    | none => do
      let wholeText ← whole.describe
      let text ← e.describe
      refuse pending .typeMismatch (s!"Alternatives of {wholeText} produce different types: " ++
        s!"{type.text}, but {text} produces {t.text}")

def choiceType (whole : Expr) (pending : List String) : List (Expr × ValueType) →
    Except Refusal ValueType
  | [] => .error .emptyChoice
  | (_, first) :: rest => unifyAlternatives whole pending first rest

section Expressions

variable (terminal : ValueType) (typeOfName : String → Infer ValueType)
  (pending : List String)

mutual
def typeOf (e : Expr) : Infer ValueType :=
  remember e <| match e with
    | .literal _ | .oneOf _ => return terminal
    | .reference name => typeOfName name
    | .bind _ item => typeOf item
    | .sequence items => do
      let types ← typesOf items
      return .gather (select (Expr.contributing items) types)
    | .choice alternatives => do
      let types ← typesOf alternatives
      liftM (choiceType (.choice alternatives) pending (alternatives.zip types))
    | .optional item => do return (← typeOf item).optionOf
    | .repetition _ item => do return (← typeOf item).listOf
    | .ahead item | .notAhead item => do
      let _ ← typeOf item
      return .unit
    | .unknown shown => throw (.unknownExpression shown)

def typesOf : List Expr → Infer (List ValueType)
  | [] => return []
  | e :: es => do
    let type ← typeOf e
    let types ← typesOf es
    return type :: types
end

end Expressions

def addBindings (p : Production) (pending : List String) (index : Nat) (bound : List Binding) :
    List (String × Path) → Except Refusal (List Binding)
  | [] => .ok bound
  | (name, path) :: rest =>
    if bound.any (·.name == name) then do
      let text ← Refusal.orText p.unshowable? p.text
      refuse pending .duplicateBinding s!"The name {name} is bound more than once in `{text}`"
    else addBindings p pending index (bound ++ [⟨index, name, path⟩]) rest

def bindingsFrom (p : Production) (pending : List String) (index : Nat) (bound : List Binding) :
    List Expr → Except Refusal (List Binding)
  | [] => .ok bound
  | item :: rest =>
    match item.boundPaths with
    | .ok paths => do
      let bound ← addBindings p pending index bound paths
      bindingsFrom p pending (index + 1) bound rest
    | .error e => do
      let text ← e.describe
      refuse pending .misplacedBinding (s!"`{text}` has a bind inside it, but there's no telling " ++
        "whether that part matched; bind the whole thing instead")

def findAction (ctx : Context) (pending : List String) (spec : ActionSpec) :
    Except Refusal (Option Action) :=
  match spec.callable, spec.name with
  | some action, _ => .ok (some action)
  | none, none => .ok none
  | none, some name => match ctx.actions.lookup name with
    | some action => .ok (some action)
    | none => refuse pending .unresolvedAction s!"No action named {name} was provided"

def actionType (r : Rule) (spec : ActionSpec) : ValueType :=
  match spec.returns, r.type with
  | some name, _ | none, some name => .named name
  | none, none => .unknown

def typedProduction (ctx : Context) (pending : List String) (r : Rule) (p : Production)
    (items : List Expr) (types : List ValueType) : Except Refusal TypedProduction := do
  let mask := Expr.contributing items
  let bindings ← bindingsFrom p pending 0 [] items
  match p.action with
  | some spec =>
    let action ← findAction ctx pending spec
    return { items, mask, bindings, action, type := actionType r spec }
  | none =>
    return { items, mask, bindings, action := none, type := .gather (select mask types) }

def typeProduction (ctx : Context) (typeOfName : String → Infer ValueType)
    (pending : List String) (r : Rule) (p : Production) : Infer TypedProduction := do
  let items := Expr.allLaidOpen p.items
  let types ← typesOf ctx.terminal typeOfName pending items
  liftM (typedProduction ctx pending r p items types)

def unifyProductions (name : String) (pending : List String) (type : ValueType) :
    List ValueType → Except Refusal ValueType
  | [] => .ok type
  | t :: rest =>
    match type.unify t with
    | some u => unifyProductions name pending u rest
    | none => refuse pending .typeMismatch
        s!"Productions of {name} produce different types: {type.text} and {t.text}"

def productionsType (r : Rule) (pending : List String) : List ValueType →
    Except Refusal (Option ValueType)
  | [] => .ok none
  | first :: rest => (unifyProductions r.name pending first rest).map some

def ruleType (r : Rule) (pending : List String) (inferred : Option ValueType) :
    Except Refusal ValueType :=
  match r.type, inferred with
  | none, none => .ok .unit
  | none, some type => .ok type
  | some name, none => .ok (.named name)
  | some name, some type =>
    match (ValueType.named name).unify type with
    | some _ => .ok (.named name)
    | none => refuse pending .typeMismatch
        s!"{r.name} is declared to produce {name}, but it produces {type.text}"

/-- Types a rule, at most once in a round. `pending` are the rules being typed, the innermost first. -/
def typeRule (ctx : Context) (typeOfName : List String → String → Infer ValueType)
    (pending : List String) (r : Rule) : Infer TypedRule := do
  match (← get).typedRules.lookup r.name with
  | some typed => return typed
  | none =>
    let pending := r.name :: pending
    let productions ← r.productions.mapM (typeProduction ctx (typeOfName pending) pending r)
    let inferred ← liftM (productionsType r pending (productions.map (·.type)))
    let type ← liftM (ruleType r pending inferred)
    let typed := { name := r.name, type, productions, errorName := r.errorName }
    modify fun p => { p with typedRules := p.typedRules ++ [(r.name, typed)] }
    return typed

def assume (name : String) : Infer ValueType := do
  modify fun p => { p with assumed := name :: p.assumed }
  return ((← get).assumptions.lookup name).getD .unknown

def tokenType (t : TokenRule) : ValueType :=
  match t.type with
  | some name => .named name
  | none => if t.makesValue then .unknown else .named "Token"

/-- The type of a reference. Rules are typed inside each other, but the type of one that is being typed
already is assumed, so `depth` need not exceed the number of rules by more than one. -/
def typeOfName (ctx : Context) : (depth : Nat) → List String → String → Infer ValueType
  | 0, _, name => assume name
  | depth + 1, pending, name =>
    match ctx.grammar.rule? name, ctx.grammar.token? name with
    | some r, _ => match r.type with
      | some type => return .named type
      | none =>
        if name ∈ pending then assume name
        else do return (← typeRule ctx (typeOfName ctx depth) pending r).type
    | none, some t => return tokenType t
    | none, none => liftM (refuse (α := ValueType) pending .unresolvedReference
        s!"Reference to {name}, which is not a rule or a token")

def Context.typeOfName (ctx : Context) : List String → String → Infer ValueType :=
  Typing.typeOfName ctx (ctx.grammar.rules.length + 1)

def expressionType (ctx : Context) (e : Expr) : Infer ValueType :=
  typeOf ctx.terminal (ctx.typeOfName []) [] e

def wrongAssumptions (p : Progress) : List String :=
  let wrong := p.assumed.filter fun name =>
    (p.assumptions.lookup name).getD .unknown != ((p.typedRules.lookup name).map (·.type)).getD .unknown
  (TextSet.ofList wrong).toList

def round (ctx : Context) : Infer Unit := do
  modify fun p => { p with assumed := [] }
  ctx.grammar.rules.forM fun r => discard (typeRule ctx ctx.typeOfName [] r)

def growing (name : String) (last : ValueType) : GrammarError where
  kind := .typeMismatch
  text := s!"The type of {name} keeps growing every time it refers to itself " ++
    s!"(last seen as {last.text}); give it a type"
  blamed := some name

def outcomes (p : Progress) : List (String × ValueType) :=
  p.typedRules.map fun (name, typed) => (name, typed.type)

/-- Goes around until every assumption comes true, at most `rounds` times after the first. -/
def roundsUpTo (ctx : Context) : (rounds : Nat) → Infer (List (String × TypedRule))
  | 0 => do
    round ctx
    let progress ← get
    match wrongAssumptions progress with
    | [] => return progress.typedRules
    | name :: _ =>
      throw (.grammar (growing name (((outcomes progress).lookup name).getD .unknown)))
  | rounds + 1 => do
    round ctx
    let progress ← get
    match wrongAssumptions progress with
    | [] => return progress.typedRules
    | _ :: _ =>
      set { assumptions := outcomes progress : Progress }
      roundsUpTo ctx rounds

def typedRules (g : Grammar) (actions : List (String × Action)) :
    Except Refusal (List (String × TypedRule)) :=
  ((roundsUpTo ⟨g, actions⟩ g.rules.length).run.run {}).1

end Packrat.Typing
