import Packrat.Proofs.Parse.Order

namespace Packrat

open Relation

/-- Names stand for sets of values such that all values from outside are of the types that are given for them. -/
structure Typing.Honest (ctx : Context) (input : Input) (A : String → Value → Prop) : Prop where
  symbols : match input with
    | .text _ => ctx.grammar.usesTokens = false ∧ ∀ t, A "str" (.text t)
    | .tokens ts => ctx.grammar.usesTokens = true ∧ ∀ t ∈ ts, A "Token" t.toValue
  actions : ∀ r ∈ ctx.grammar.rules, ∀ production ∈ r.productions, ∀ spec, production.action = some spec →
    ∃ action name, Typing.findAction ctx [] spec = .ok (some action) ∧ spec.returns.or r.type = some name ∧
      ∀ arguments v, action.run arguments = .ok v → A name v
  tokens : ∀ kind ∈ ctx.grammar.tokens, kind.makesValue = true ∨ kind.type ≠ none →
    ∃ name, kind.type = some name ∧ ∀ i v stop, input.kind? kind i = .ok (some (v, stop)) → A name v

namespace Input

theorem mem_of_elementAt {α : Type} {xs : Array α} {i : Int} {x : α} (here : elementAt xs i = .ok (some x)) :
    x ∈ xs := by
  unfold elementAt at here
  split at here
  · exact Array.mem_of_getElem? (Except.ok.inj here)
  · cases here

theorem mem_of_tokenWhere? {tokens : Array Token} {holds : Token → Bool} {value : Token → Value} {i stop : Int}
    {v : Value} (here : (tokenWhere? tokens holds i).map (·.map fun t => (value t, i + 1)) =
      .ok (some (v, stop))) : ∃ t ∈ tokens, v = value t := by
  unfold tokenWhere? at here
  cases found : elementAt tokens i with
  | error e => rw [found] at here; cases here
  | ok element =>
    rw [found] at here
    cases element with
    | none => cases here
    | some t =>
      simp only [Except.map, Option.filter, Except.ok.injEq] at here
      split at here
      · cases here
        exact ⟨t, mem_of_elementAt found, rfl⟩
      · cases here

end Input

namespace Typing

variable {ctx : Context} {rules : List (String × TypedRule)} {input : Input} {A : String → Value → Prop}
  {r : Rule} {typed : TypedRule} {production : Production} {q : TypedProduction} {pending : List String}
  {i stop : Int} {v : Value}

theorem common_of_unifyProductions {rest : List ValueType} {first u : ValueType}
    (unified : unifyProductions r.name pending first rest = .ok u) : rest.foldlM ValueType.unify first = some u := by
  induction rest generalizing first with
  | nil =>
    cases unified
    rfl
  | cons t rest ih =>
    unfold unifyProductions at unified
    split at unified
    · next w here =>
      rw [List.foldlM_cons, here]
      exact ih unified
    · cases unified

theorem productionsType_common {types : List ValueType} {inferred : Option ValueType} {t : ValueType}
    (agreed : productionsType r pending types = .ok inferred) (member : t ∈ types) :
    ∃ u, inferred = some u ∧ ValueType.common? types = some u := by
  cases types with
  | nil => cases member
  | cons first rest =>
    simp only [productionsType] at agreed
    cases unified : unifyProductions r.name pending first rest with
    | error e => rw [unified] at agreed; cases agreed
    | ok u =>
      rw [unified] at agreed
      cases agreed
      exact ⟨u, rfl, common_of_unifyProductions unified⟩

theorem ruleType_of_declared {name : String} {inferred : Option ValueType} {t : ValueType}
    (declared : r.type = some name) (typed : ruleType r pending inferred = .ok t) : t = .named name := by
  unfold ruleType at typed
  rw [declared] at typed
  cases inferred with
  | none =>
    cases typed
    rfl
  | some u =>
    dsimp only at typed
    split at typed <;> cases typed
    rfl

theorem hasType_of_ruleType {u t : ValueType} (here : HasType A u v) (typed : ruleType r pending (some u) = .ok t) :
    HasType A t v := by
  unfold Typing.ruleType at typed
  split at typed
  · next given => cases given
  · next given =>
    cases given
    cases typed
    exact here
  · next given => cases given
  · next name _ _ given =>
    cases given
    split at typed
    · next w unified =>
      cases typed
      have here := here.unify_right unified
      cases u <;> simp_all [ValueType.unify]
    · cases typed

namespace Checked

theorem typeOf?_eq (checked : Checked ctx rules r typed) (found : ctx.grammar.rule? r.name = some r)
    (known : rules.lookup r.name = some typed) : Typing.typeOf? ctx.grammar rules r.name = some typed.type := by
  obtain ⟨pending, inferred, _, given⟩ := checked.type
  cases declared : r.type with
  | some name => simp [Typing.typeOf?, found, declared, ruleType_of_declared declared given]
  | none => simp [Typing.typeOf?, found, declared, known]

theorem hasType (checked : Checked ctx rules r typed) (listed : q ∈ typed.productions) (here : HasType A q.type v) :
    HasType A typed.type v := by
  obtain ⟨pending, inferred, agreed, given⟩ := checked.type
  have member : q.type ∈ typed.productions.map (·.type) := List.mem_map_of_mem listed
  obtain ⟨u, rfl, common⟩ := productionsType_common agreed member
  exact hasType_of_ruleType (here.common common member) given

end Checked

namespace Honest

variable (honest : Honest ctx input A)

include honest

theorem literal {t : String} (here : input.literal? t i = .ok (some (v, stop))) : HasType A ctx.terminal v := by
  have symbols := honest.symbols
  unfold Context.terminal
  cases input with
  | text chars =>
    rw [symbols.1]
    simp only [Input.literal?, Except.ok.injEq] at here
    split at here
    · cases here
      exact .named (symbols.2 _)
    · cases here
  | tokens ts =>
    obtain ⟨token, member, rfl⟩ := Input.mem_of_tokenWhere? here
    rw [symbols.1]
    exact .named (symbols.2 token member)

theorem oneOf {set : CharClass} (here : input.class? set i = .ok (some (v, stop))) : HasType A ctx.terminal v := by
  have symbols := honest.symbols
  unfold Context.terminal
  cases input with
  | text chars =>
    rw [symbols.1]
    simp only [Input.class?] at here
    cases found : elementAt chars i with
    | error e => rw [found] at here; cases here
    | ok element =>
      rw [found] at here
      cases element with
      | none => cases here
      | some c =>
        simp only [Except.map, Option.filter, Except.ok.injEq] at here
        split at here
        · cases here
          exact .named (symbols.2 _)
        · cases here
  | tokens ts =>
    obtain ⟨token, member, rfl⟩ := Input.mem_of_tokenWhere? here
    rw [symbols.1]
    exact .named (symbols.2 token member)

theorem token {kind : TokenRule} (listed : kind ∈ ctx.grammar.tokens)
    (here : input.kind? kind i = .ok (some (v, stop))) : HasType A (tokenType kind) v := by
  by_cases given : kind.makesValue = true ∨ kind.type ≠ none
  · obtain ⟨name, declared, belongs⟩ := honest.tokens kind listed given
    rw [tokenType, declared]
    exact .named (belongs i v stop here)
  · obtain ⟨plain, undeclared⟩ := not_or.mp given
    have symbols := honest.symbols
    rw [tokenType, not_not.mp undeclared]
    cases input with
    | text chars => cases here
    | tokens ts =>
      obtain ⟨token, member, rfl⟩ := Input.mem_of_tokenWhere? here
      rw [if_neg plain, if_neg plain]
      exact .named (symbols.2 token member)

theorem made {items : List Expr} {types : List ValueType} {vs : List Value} (listed : r ∈ ctx.grammar.rules)
    (source : production ∈ r.productions)
    (made : typedProduction ctx pending r production items types = .ok q) (each : List.Forall₂ (HasType A) types vs)
    (value : q.value vs = .ok v) : HasType A q.type v := by
  obtain ⟨_, _, ⟨_, plain, type⟩ | ⟨spec, asked, found, type⟩⟩ := typedProduction_cases made
  · rw [TypedProduction.value, plain] at value
    cases value
    rw [type]
    exact .gather (forall₂_select each q.mask)
  · obtain ⟨action, name, found', given, belongs⟩ := honest.actions r listed production source spec asked
    have act : q.action = some action := Except.ok.inj (found.symm.trans found')
    rw [TypedProduction.value, act] at value
    dsimp only at value
    split at value
    · next arguments _ =>
      cases run : action.run arguments with
      | error f => rw [run] at value; cases value
      | ok w =>
        rw [run] at value
        cases value
        have named : q.type = .named name := by
          rw [type, actionType]
          cases returns : spec.returns <;> simp_all
        rw [named]
        exact .named (belongs arguments v run)
    · cases value

end Honest

end Typing

def Goal.HasTypes (A : String → Value → Prop) (types : String → Option ValueType) (terminal : ValueType)
    (vs : List Value) : Goal → Prop
  | .expr e => ∀ t, e.typeIn types terminal = some t → List.Forall₂ (HasType A) [t] vs
  | .items es => ∀ ts, Expr.typesIn types terminal es = some ts → List.Forall₂ (HasType A) ts vs
  | .rounds item => ∀ t, item.typeIn types terminal = some t → ∀ v ∈ vs, HasType A t v

theorem Expr.exists_typeIn_of_mem {types : String → Option ValueType} {terminal : ValueType} {es : List Expr} {e : Expr}
    {ts : List ValueType} (typed : typesIn types terminal es = some ts) (listed : e ∈ es) :
    ∃ t ∈ ts, e.typeIn types terminal = some t := by
  induction es generalizing ts with
  | nil => cases listed
  | cons first rest ih =>
    simp only [typesIn, Option.bind_eq_bind, Option.bind_eq_some_iff] at typed
    obtain ⟨t, here, later, others, same⟩ := typed
    cases same
    rcases List.mem_cons.mp listed with rfl | listed
    · exact ⟨t, List.mem_cons_self, here⟩
    · obtain ⟨t', member, known⟩ := ih others listed
      exact ⟨t', List.mem_cons_of_mem _ member, known⟩

namespace TypedGrammar

variable {p : TypedGrammar} {actions : List (String × Action)} {input : Input} {A : String → Value → Prop} {goal : Goal}
  {i stop : Int} {vs : List Value}

theorem Derives.hasTypes (accepted : Typing.typedRules p.grammar actions = .ok p.typedRules)
    (honest : Typing.Honest ⟨p.grammar, actions⟩ input A) (derived : p.Derives input goal i vs stop) :
    goal.HasTypes A (Typing.typeOf? p.grammar p.typedRules) (Typing.Context.terminal ⟨p.grammar, actions⟩) vs := by
  induction derived with
  | literal here =>
    intro t typed
    cases typed
    exact .cons (honest.literal here) .nil
  | oneOf here =>
    intro t typed
    cases typed
    exact .cons (honest.oneOf here) .nil
  | @token name kind i v stop noRule known here =>
    intro t typed
    simp only [Expr.typeIn, Typing.typeOf?, noRule, known] at typed
    cases typed
    exact .cons (honest.token (List.mem_of_find?_eq_some known) here) .nil
  | @rule name typed q i vs v stop known listed _ made ih =>
    intro t reference
    obtain ⟨r, found, checked⟩ := (Typing.complete_of_typedRules accepted).checked known
    obtain rfl := Grammar.name_of_rule? found
    obtain ⟨production, source, pending, types, items, made'⟩ := exists_of_forall₂ checked.productions listed
    obtain ⟨same, _⟩ := Typing.typedProduction_cases made'
    rw [← same] at items
    have here := honest.made (Grammar.mem_of_rule? found) source made' (ih types items) made
    cases (checked.typeOf?_eq found known).symm.trans reference
    exact .cons (checked.hasType listed here) .nil
  | sequence _ ih =>
    intro t typed
    obtain ⟨ts, items, rfl⟩ := Option.map_eq_some_iff.mp typed
    exact .cons (.gather (forall₂_select (ih ts items) _)) .nil
  | choice listed _ ih =>
    intro t typed
    obtain ⟨ts, alternatives, agreed⟩ := Option.bind_eq_some_iff.mp typed
    obtain ⟨t', member, here⟩ := Expr.exists_typeIn_of_mem alternatives listed
    cases ih t' here with
    | cons here _ => exact .cons (here.common agreed member) .nil
  | present _ ih =>
    intro t typed
    obtain ⟨t, item, rfl⟩ := Option.map_eq_some_iff.mp typed
    cases ih t item with
    | cons here _ => exact .cons here.optionOf .nil
  | absent =>
    intro t typed
    obtain ⟨t, _, rfl⟩ := Option.map_eq_some_iff.mp typed
    exact .cons HasType.none_optionOf .nil
  | repetition _ _ ih =>
    intro t typed
    obtain ⟨t, item, rfl⟩ := Option.map_eq_some_iff.mp typed
    exact .cons (.listOf (ih t item)) .nil
  | bind _ ih => exact fun t typed => ih t typed
  | ahead | notAhead =>
    intro t typed
    obtain ⟨_, _, rfl⟩ := Option.map_eq_some_iff.mp typed
    exact .cons .nothing .nil
  | nil =>
    intro ts typed
    cases typed
    exact .nil
  | cons _ _ first rest =>
    intro ts typed
    simp only [Expr.typesIn, Option.bind_eq_bind, Option.bind_eq_some_iff] at typed
    obtain ⟨t, here, later, others, same⟩ := typed
    cases same
    cases first t here with
    | cons here _ => exact .cons here (rest later others)
  | done => exact fun _ _ _ member => by cases member
  | round _ _ first rest =>
    intro t typed v member
    rcases List.mem_cons.mp member with rfl | member
    · cases first t typed with
      | cons here _ => exact here
    · exact rest t typed v member

end TypedGrammar

theorem Sound.derives_call {p : TypedGrammar} {input : Input} {lo : Int} {stack : List Call} {depth : Nat}
    {name : String}
    {i stop : Int} {v : Value} {s s' : Parse} (faithful : p.Faithful)
    (sound : Sound p input lo stack ⟨depth, .call name, i, s⟩)
    (run : p.callWithin input depth name i .unlimited s = (.matched v stop, s')) :
    p.Derives input (.expr (.reference name)) i [v] stop := by
  have tracks := sound.tracks_call (TypedGrammar.answering faithful input lo) trivial s
  obtain ⟨_, _, derived⟩ := (tracks s s sound.twin sound.proper sound.proper).of_matched run
  exact derived

namespace Parser

variable {g : Grammar} {actions : List (String × Action)} {parser : Parser} {input : Input} {s : Parse}
  {A : String → Value → Prop}

/-- Whatever a rule matches is of the type of the rule, in a call that is begun anew and in any call that comes up
inside one. So a rule whose type is unknown never matches. -/
theorem matched_hasType (compiled : Reporting.Gives (ofGrammar g actions) parser)
    (honest : Typing.Honest ⟨g, actions⟩ input A) (reached : Completed parser.typed input s) {r : Rule}
    (listed : r ∈ g.rules) : ∃ type, parser.ruleType? r.name = some type ∧
      (∀ i room v stop s', parser.typed.apply input r.name i room s = (.matched v stop, s') →
        HasType A type v ∧ type ≠ .unknown) ∧
      ∀ {name i depth j t v stop t'},
        ReflTransGen (parser.typed.Leads input) (parser.typed.opening input name i s) ⟨depth, .call r.name, j, t⟩ →
        parser.typed.callWithin input depth r.name j .unlimited t = (.matched v stop, t') →
          HasType A type v ∧ type ≠ .unknown := by
  obtain ⟨rfl, accepted, _⟩ := parts_of_ofGrammar compiled
  have faithful : parser.typed.Faithful := faithful_of_ofGrammar compiled
  obtain ⟨coherent, proper⟩ := reached.coherent faithful
  have complete := Typing.complete_of_typedRules accepted
  obtain ⟨typed, known⟩ := complete.known r listed
  obtain ⟨r', found, checked⟩ := complete.checked known
  cases (Grammar.rule?_of_mem listed).symm.trans found
  have reference := checked.typeOf?_eq found known
  have belongs : ∀ {i v stop}, parser.typed.Derives input (.expr (.reference r.name)) i [v] stop →
      HasType A typed.type v ∧ typed.type ≠ .unknown := by
    intro i v stop derived
    cases derived.hasTypes accepted honest typed.type reference with
    | cons here _ => exact ⟨here, fun unknown => not_hasType_unknown (unknown ▸ here)⟩
  have within : ∀ {name i depth j t v stop t'},
      ReflTransGen (parser.typed.Leads input) (parser.typed.opening input name i s) ⟨depth, .call r.name, j, t⟩ →
      parser.typed.callWithin input depth r.name j .unlimited t = (.matched v stop, t') →
        HasType A typed.type v ∧ typed.type ≠ .unknown := by
    intro name i depth j t v stop t' leads run
    obtain ⟨stack, sound⟩ := (TypedGrammar.sound_opening coherent proper).steps faithful leads
    exact belongs (sound.derives_call faithful run)
  refine ⟨typed.type, by rw [ruleType?, TypedGrammar.typed?, known]; rfl, ?_, within⟩
  intro i room v stop s' run
  rcases TypedGrammar.steady_apply r.name i room s with ⟨s₂, cut⟩ | same
  · rw [cut] at run
    cases run
  · rw [same] at run
    exact within .refl run

def sums : Grammar where
  rules := [⟨"sums", [⟨[.repetition true (.sequence [.reference "sum", .optional (.literal ";")])], none⟩],
    none, true, none, ""⟩,
    ⟨"sum", [⟨[.bind "left" (.reference "sum"), .literal "+", .bind "right" (.reference "one")],
        some { callable := some ⟨"add", fun _ => .ok (.int 2)⟩ }⟩, ⟨[.reference "one"], none⟩], some "int",
          true, none, ""⟩,
    ⟨"one", [⟨[.literal "1"], some { name := some "count", returns := some "int" }⟩], none, true, none, ""⟩]
  tokens := []
  states := []
  name := "sums"
  distinctRules := by decide
  distinctTokens := Grammar.distinctTokens_nil
  disjoint := by decide
  distinctInStates := Grammar.distinctInStates_nil

def count : Action := ⟨"count", fun _ => .ok (.int 1)⟩

def TextOrNumber (name : String) (v : Value) : Prop :=
  (name = "str" ∧ ∃ t, v = .text t) ∨ name = "int" ∧ ∃ n, v = .int n

theorem sums_honest (chars : Array Char) : Typing.Honest ⟨sums, [("count", count)]⟩ (.text chars) TextOrNumber := by
  refine ⟨⟨rfl, fun t => .inl ⟨rfl, t, rfl⟩⟩, ?_, fun kind listed => by cases listed⟩
  intro r listed production source spec asked
  have number : ∀ {n : Int} {v : Value}, (Except.ok (.int n) : Except Fault Value) = .ok v → TextOrNumber "int" v := by
    intro n v same
    cases same
    exact .inr ⟨rfl, n, rfl⟩
  simp only [sums, List.mem_cons, List.not_mem_nil, or_false] at listed
  rcases listed with rfl | rfl | rfl
  · simp only [List.mem_cons, List.not_mem_nil, or_false] at source
    subst source
    cases asked
  · simp only [List.mem_cons, List.not_mem_nil, or_false] at source
    rcases source with rfl | rfl
    · cases asked
      exact ⟨_, "int", rfl, rfl, fun _ _ => number⟩
    · cases asked
  · simp only [List.mem_cons, List.not_mem_nil, or_false] at source
    subst source
    cases asked
    exact ⟨count, "int", rfl, rfl, fun _ _ => number⟩

theorem sums_hasType : ∃ parser v s, Reporting.Gives (ofGrammar sums [("count", count)]) parser ∧
    Completed parser.typed (.text #['1', '+', '1', ';', '1']) {} ∧
    Typing.Honest ⟨sums, [("count", count)]⟩ (.text #['1', '+', '1', ';', '1']) TextOrNumber ∧
    parser.ruleType? "sums" = some (.list (.named "int")) ∧
    parser.typed.apply (.text #['1', '+', '1', ';', '1']) "sums" 0 .unlimited {} = (.matched v 5, s) ∧
    HasType TextOrNumber (.list (.named "int")) v := by
  have runs : ∃ parser o s, Reporting.Gives (ofGrammar sums [("count", count)]) parser ∧
      parser.ruleType? "sums" = some (.list (.named "int")) ∧
      parser.typed.apply (.text #['1', '+', '1', ';', '1']) "sums" 0 .unlimited {} = (o, s) ∧ stop? o = some 5 :=
    ⟨_, _, _, ⟨[], _, rfl⟩, by decide +kernel, Prod.mk.eta.symm, by decide +kernel⟩
  obtain ⟨parser, o, s, compiled, type, run, matched⟩ := runs
  obtain ⟨v, rfl⟩ : ∃ v, o = .matched v 5 := by
    cases o <;> cases matched
    exact ⟨_, rfl⟩
  have honest := sums_honest #['1', '+', '1', ';', '1']
  have reached : Completed parser.typed (.text #['1', '+', '1', ';', '1']) {} := .fresh []
  obtain ⟨type', known, belongs, _⟩ := matched_hasType compiled honest reached (r := sums.rules[0]) List.mem_cons_self
  cases type.symm.trans known
  exact ⟨parser, v, s, compiled, reached, honest, type, run, (belongs 0 .unlimited v 5 s run).1⟩

end Parser

end Packrat
