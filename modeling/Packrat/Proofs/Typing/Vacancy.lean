import Packrat.Proofs.Safety
import Packrat.Proofs.Typing.Refinement
import Packrat.Proofs.Typing.Soundness

namespace Packrat

open Relation

namespace Expr

/-- The value of the first expression may be that of the second one. -/
inductive Passes (g : Grammar) : Expr → Expr → Prop where
  | bind {name e} : Passes g (.bind name e) e
  | optional {e} : Passes g (.optional e) e
  | choice {es e} (listed : e ∈ es) : Passes g (.choice es) e
  | sequence {es e} (single : select (contributing es) es = [e]) : Passes g (.sequence es) e
  | reference {name r production e} (found : g.rule? name = some r) (listed : production ∈ r.productions)
    (single : select (contributing (allLaidOpen production.items)) (allLaidOpen production.items) = [e]) :
    Passes g (.reference name) e

/-- What comes of an expression that has no value by its type: nothing, or the list of a repetition of such an
expression. -/
inductive Vacant (g : Grammar) : Expr → Value → Prop where
  | nothing {e} : Vacant g e .none
  | rounds {e atLeastOnce item vs} (passes : ReflTransGen (Passes g) e (.repetition atLeastOnce item))
    (each : ∀ v ∈ vs, Vacant g item v) : Vacant g e (.list vs)

theorem Vacant.up {g : Grammar} {e e' : Expr} {v : Value} (vacant : Vacant g e' v) (passes : Passes g e e') :
    Vacant g e v := by
  cases vacant with
  | nothing => exact .nothing
  | rounds further each => exact .rounds (.head passes further) each

theorem Vacant.eq_none {g : Grammar} {e : Expr} {v : Value} (vacant : Vacant g e v)
    (apart : ∀ atLeastOnce item, ¬ ReflTransGen (Passes g) e (.repetition atLeastOnce item)) : v = .none := by
  cases vacant with
  | nothing => rfl
  | rounds passes _ => exact absurd passes (apart _ _)

end Expr

namespace ValueType

variable {t : ValueType} {ts : List ValueType}

theorem eq_of_common?_unit (agreed : common? ts = some .unit) (listed : t ∈ ts) : t = .unit ∨ t = .unknown := by
  have fits : Fits false t .unit := fits_common? agreed listed
  cases t <;> simp_all [Fits]

theorem gather_eq_unit (none : gather ts = .unit) : ts = [] ∨ ts = [.unit] := by
  match ts with
  | [] => exact .inl rfl
  | [t] =>
    obtain rfl : t = .unit := none
    exact .inr rfl
  | _ :: _ :: _ => cases none

theorem optionOf_eq_unit (none : t.optionOf = .unit) : t = .unit := by
  cases t <;> simp_all [optionOf]

theorem listOf_eq_unit (none : t.listOf = .unit) : t = .unit := by
  cases t <;> simp_all [listOf]

end ValueType

namespace Expr

variable {types : String → Option ValueType} {terminal : ValueType} {es : List Expr} {ts : List ValueType}

theorem forall₂_of_typesIn (typed : typesIn types terminal es = some ts) :
    List.Forall₂ (fun e t => e.typeIn types terminal = some t) es ts := by
  induction es generalizing ts with
  | nil =>
    cases typed
    exact .nil
  | cons e es ih =>
    simp only [typesIn, Option.bind_eq_bind, Option.bind_eq_some_iff] at typed
    obtain ⟨t, here, later, others, same⟩ := typed
    cases same
    exact .cons here (ih others)

theorem vacant_gather {g : Grammar} {vs : List Value} {mask : List Bool} {e : Expr}
    (typed : typesIn types terminal es = some ts)
    (each : List.Forall₂ (fun e v => e.typeIn types terminal = some .unit → Vacant g e v) es vs)
    (passes : ∀ e', select mask es = [e'] → Passes g e e') (unit : ValueType.gather (select mask ts) = .unit) :
    Vacant g e (.gather (select mask vs)) := by
  have kinds := forall₂_select (forall₂_of_typesIn typed) mask
  have values := forall₂_select each mask
  rcases ValueType.gather_eq_unit unit with none | one
  · rw [none] at kinds
    rw [List.forall₂_nil_right_iff.mp kinds] at values
    rw [List.forall₂_nil_left_iff.mp values]
    exact .nothing
  · rw [one] at kinds
    generalize kept : select mask es = items at kinds values
    cases kinds with
    | @cons e' _ _ _ here rest =>
      cases rest
      generalize select mask vs = collected at values
      cases values with
      | cons vacant rest =>
        cases rest
        exact (vacant here).up (passes e' kept)

end Expr

def Goal.Vacates (g : Grammar) (types : String → Option ValueType) (terminal : ValueType) (vs : List Value) :
    Goal → Prop
  | .expr e => e.typeIn types terminal = some .unit → ∃ v, vs = [v] ∧ e.Vacant g v
  | .items es => List.Forall₂ (fun e v => e.typeIn types terminal = some .unit → e.Vacant g v) es vs
  | .rounds item => item.typeIn types terminal = some .unit → ∀ v ∈ vs, item.Vacant g v

namespace Grammar

/-- No value comes from outside: there are no actions, neither in productions nor in tokens. -/
structure Plain (g : Grammar) : Prop where
  productions : ∀ r ∈ g.rules, ∀ production ∈ r.productions, production.action = none
  tokens : ∀ t ∈ g.tokens, t.makesValue = false

theorem Plain.honest {g : Grammar} (plain : g.Plain) (actions : List (String × Action)) {input : Input}
    (suits : g.Suits input) : Typing.Honest ⟨g, actions⟩ input fun _ _ => True := by
  refine ⟨?_, ?_, ?_⟩
  · cases input with
    | text chars => exact ⟨suits, fun _ => trivial⟩
    | tokens ts => exact ⟨suits, fun _ _ => trivial⟩
  · intro r listed production source spec asked
    cases asked.symm.trans (plain.productions r listed production source)
  · intro kind listed given
    rcases given with makes | declared
    · cases makes.symm.trans (plain.tokens kind listed)
    · obtain ⟨name, type⟩ := Option.ne_none_iff_exists'.mp declared
      exact ⟨name, type, fun _ _ _ _ => trivial⟩

end Grammar

namespace Typing

theorem terminal_ne_unit (ctx : Context) : ctx.terminal ≠ .unit := by
  unfold Context.terminal
  split <;> simp

theorem tokenType_ne_unit (t : TokenRule) : tokenType t ≠ .unit := by
  unfold tokenType
  split
  · simp
  · split <;> simp

theorem Checked.eq_unit {ctx : Context} {rules : List (String × TypedRule)} {r : Rule} {typed : TypedRule}
    {q : TypedProduction} (checked : Checked ctx rules r typed) (none : typed.type = .unit)
    (listed : q ∈ typed.productions) : q.type = .unit ∨ q.type = .unknown := by
  obtain ⟨pending, inferred, agreed, given⟩ := checked.type
  rw [none] at given
  have member : q.type ∈ typed.productions.map (·.type) := List.mem_map_of_mem listed
  obtain ⟨u, rfl, common⟩ := productionsType_common agreed member
  cases declared : r.type with
  | some name => cases ruleType_of_declared declared given
  | none =>
    simp only [ruleType, declared, Except.ok.injEq] at given
    exact ValueType.eq_of_common?_unit (given ▸ common) member

end Typing

namespace TypedGrammar

variable {p : TypedGrammar} {actions : List (String × Action)} {input : Input} {goal : Goal} {i stop : Int}
  {vs : List Value}

theorem Derives.vacates (accepted : Typing.typedRules p.grammar actions = .ok p.typedRules) (plain : p.grammar.Plain)
    (suits : p.grammar.Suits input) (derived : p.Derives input goal i vs stop) :
    goal.Vacates p.grammar (Typing.typeOf? p.grammar p.typedRules)
      (Typing.Context.terminal ⟨p.grammar, actions⟩) vs := by
  have honest := plain.honest actions suits
  induction derived with
  | literal | oneOf =>
    intro unit
    exact absurd (Option.some.inj unit) (Typing.terminal_ne_unit _)
  | token noRule known =>
    intro unit
    simp only [Expr.typeIn, Typing.typeOf?, noRule, known] at unit
    exact absurd (Option.some.inj unit) (Typing.tokenType_ne_unit _)
  | @rule name typed q i vs v stop known listed items made ih =>
    intro unit
    obtain ⟨r, found, checked⟩ := (Typing.complete_of_typedRules accepted).checked known
    obtain rfl := Grammar.name_of_rule? found
    have none : typed.type = .unit := Option.some.inj ((checked.typeOf?_eq found known).symm.trans unit)
    obtain ⟨production, source, pending, types, kinds, made'⟩ := exists_of_forall₂ checked.productions listed
    obtain ⟨same, mask, ⟨_, silent, type⟩ | ⟨spec, asked, _⟩⟩ := Typing.typedProduction_cases made'
    · rw [same] at ih items
      rw [TypedProduction.value, silent] at made
      cases made
      rcases checked.eq_unit none listed with void | unknown
      · refine ⟨_, rfl, Expr.vacant_gather kinds ih (fun e single => ?_) (type.symm.trans void)⟩
        exact .reference found source (mask ▸ single)
      · -- A production of unknown type would have to be matched first, and nothing is of that type.
        have here : HasType (fun _ _ => True) q.type (q.gather vs) := by
          rw [type]
          exact .gather (forall₂_select (items.hasTypes accepted honest types kinds) q.mask)
        rw [unknown] at here
        exact absurd here not_hasType_unknown
    · cases asked.symm.trans (plain.productions r (Grammar.mem_of_rule? found) production source)
  | sequence _ ih =>
    intro unit
    obtain ⟨ts, items, gathered⟩ := Option.map_eq_some_iff.mp unit
    exact ⟨_, rfl, Expr.vacant_gather items ih (fun _ single => .sequence single) gathered⟩
  | @choice es e i v stop listed here ih =>
    intro unit
    obtain ⟨ts, alternatives, agreed⟩ := Option.bind_eq_some_iff.mp unit
    obtain ⟨t, member, typed⟩ := Expr.exists_typeIn_of_mem alternatives listed
    rcases ValueType.eq_of_common?_unit agreed member with rfl | rfl
    · obtain ⟨v, same, vacant⟩ := ih typed
      exact ⟨v, same, vacant.up (.choice listed)⟩
    · cases here.hasTypes accepted honest _ typed with
      | cons never _ => exact absurd never not_hasType_unknown
  | present _ ih =>
    intro unit
    obtain ⟨t, item, missing⟩ := Option.map_eq_some_iff.mp unit
    obtain ⟨v, same, vacant⟩ := ih (ValueType.optionOf_eq_unit missing ▸ item)
    exact ⟨v, same, vacant.up .optional⟩
  | absent => exact fun _ => ⟨_, rfl, .nothing⟩
  | repetition _ _ ih =>
    intro unit
    obtain ⟨t, item, repeated⟩ := Option.map_eq_some_iff.mp unit
    exact ⟨_, rfl, .rounds .refl (ih (ValueType.listOf_eq_unit repeated ▸ item))⟩
  | bind _ ih =>
    intro unit
    obtain ⟨v, same, vacant⟩ := ih unit
    exact ⟨v, same, vacant.up .bind⟩
  | ahead | notAhead => exact fun _ => ⟨_, rfl, .nothing⟩
  | nil => exact .nil
  | cons _ _ first rest =>
    refine .cons (fun unit => ?_) rest
    obtain ⟨v, same, vacant⟩ := first unit
    cases same
    exact vacant
  | done => exact fun _ _ member => by cases member
  | round _ _ first rest =>
    intro unit v member
    rcases List.mem_cons.mp member with rfl | member
    · obtain ⟨w, same, vacant⟩ := first unit
      cases same
      exact vacant
    · exact rest unit v member

end TypedGrammar

namespace Parser

open Reporting

variable {g : Grammar} {actions : List (String × Action)} {parser : Parser}

theorem startRule_eq_ok {name started : String} (starts : parser.startRule (some name) = .ok started) :
    started = name := by
  unfold startRule at starts
  obtain ⟨_, chosen, entered⟩ := ok_of_bind starts
  cases chosen
  dsimp only at entered
  split at entered
  · cases entered
  · split at entered <;> cases entered
    rfl

theorem matched_of_conclude {input : Input} {source : Source} {complete : Bool} {outcome : Outcome Value}
    {failures : Failures} {v : Value} (concluded : conclude input source complete outcome failures = .ok v) :
    ∃ stop, outcome = .matched v stop := by
  unfold conclude at concluded
  split at concluded
  · split at concluded
    · cases concluded
    · cases concluded
      exact ⟨_, rfl⟩
  all_goals cases concluded

theorem apply_of_parse {room : Room} {name : String} {subject : Subject} {complete : Bool} {v : Value}
    (parsed : Gives (parser.parse room (some name) subject complete) v) : ∃ input source events stop s,
      Gives (parser.prepare room subject) (input, source) ∧
        parser.typed.apply input name 0 room { events } = (.matched v stop, s) := by
  obtain ⟨started, starts, rest⟩ := parsed.of_bind
  obtain rfl := startRule_eq_ok (ok_of_mapError starts.of_lift)
  obtain ⟨⟨input, source⟩, prepared, called⟩ := rest.of_bind
  obtain ⟨events, _, concluding⟩ := called.of_bind
  obtain ⟨_, _, concluded⟩ := concluding.of_bind
  obtain ⟨stop, matched⟩ := matched_of_conclude concluded.of_lift
  exact ⟨input, source, events, stop, _, prepared, Prod.ext matched rfl⟩

/-- What is parsed with a rule that has no value by its type is nothing, unless the rule may hand on the list of a
repetition. -/
theorem parse_vacant (compiled : Gives (ofGrammar g actions) parser) (plain : g.Plain) {name : String}
    (unit : parser.ruleType? name = some .unit) {room : Room} {subject : Subject} {complete : Bool} {v : Value}
    (parsed : Gives (parser.parse room (some name) subject complete) v) :
    Expr.Vacant g (.reference name) v ∧
      ((∀ atLeastOnce item, ¬ ReflTransGen (Expr.Passes g) (.reference name) (.repetition atLeastOnce item)) →
        v = .none) := by
  obtain ⟨rfl, accepted, _⟩ := parts_of_ofGrammar compiled
  have faithful : parser.typed.Faithful := faithful_of_ofGrammar compiled
  obtain ⟨input, source, events, stop, s, prepared, run⟩ := apply_of_parse parsed
  have suits : parser.grammar.Suits input := suits_of_prepare (lexer_of_ofGrammar compiled).1 prepared
  have derived : parser.typed.Derives input (.expr (.reference name)) 0 [v] stop :=
    (TypedGrammar.sound_opening (.initial events) Failures.proper_none).derives_call faithful
      ((TypedGrammar.steady_apply name 0).run_unlimited run nofun)
  have typed : Expr.typeIn (Typing.typeOf? parser.grammar parser.typed.typedRules)
      (Typing.Context.terminal ⟨parser.grammar, actions⟩) (.reference name) = some .unit := by
    obtain ⟨rule, known, none⟩ := Option.map_eq_some_iff.mp unit
    obtain ⟨r, found, checked⟩ := (Typing.complete_of_typedRules accepted).checked known
    obtain rfl := Grammar.name_of_rule? found
    exact none ▸ checked.typeOf?_eq found known
  obtain ⟨w, same, vacant⟩ := derived.vacates accepted plain suits typed
  cases same
  exact ⟨vacant, vacant.eq_none⟩

def ends : Grammar where
  rules := [⟨"end", [⟨[.notAhead (.literal "x")], none⟩], none, true, none, ""⟩,
    ⟨"perhaps", [⟨[.optional (.reference "end")], none⟩], none, true, none, ""⟩,
    ⟨"ends", [⟨[.repetition false (.reference "end")], none⟩], none, true, none, ""⟩]
  tokens := []
  states := []
  name := "ends"
  distinctRules := by decide
  distinctTokens := Grammar.distinctTokens_nil
  disjoint := by decide
  distinctInStates := Grammar.distinctInStates_nil

theorem ends_plain : ends.Plain := by
  refine ⟨fun r listed production source => ?_, fun t listed => by cases listed⟩
  simp only [ends, List.mem_cons, List.not_mem_nil, or_false] at listed
  rcases listed with rfl | rfl | rfl <;> rw [List.mem_singleton.mp source]

theorem perhaps_passes {e : Expr} (passes : ReflTransGen (Expr.Passes ends) (.reference "perhaps") e) :
    e = .reference "perhaps" ∨ e = .optional (.reference "end") ∨ e = .reference "end" := by
  induction passes with
  | refl => exact .inl rfl
  | tail _ step ih =>
    rcases ih with rfl | rfl | rfl
    · cases step with
      | reference found listed single =>
        cases found
        cases List.mem_singleton.mp listed
        cases single
        exact .inr (.inl rfl)
    · cases step
      exact .inr (.inr rfl)
    · cases step with
      | reference found listed single =>
        cases found
        cases List.mem_singleton.mp listed
        cases single

theorem perhaps_vacant : ∃ parser v, Gives (ofGrammar ends []) parser ∧ ends.Plain ∧
    parser.ruleType? "perhaps" = some .unit ∧ Gives (parser.parse .unlimited (some "perhaps") (.text "x") false) v ∧
    v = .none := by
  have runs : ∃ parser result events, Gives (ofGrammar ends []) parser ∧ parser.ruleType? "perhaps" = some .unit ∧
      (parser.parse .unlimited (some "perhaps") (.text "x") false).run.run [] = (result, events) ∧ result.isOk = true :=
    ⟨_, _, _, ⟨[], _, rfl⟩, by decide +kernel, Prod.mk.eta.symm, by decide +kernel⟩
  obtain ⟨parser, result, events, compiled, unit, run, succeeds⟩ := runs
  obtain ⟨v, rfl⟩ : ∃ v, result = .ok v := by
    cases result <;> cases succeeds
    exact ⟨_, rfl⟩
  have parsed : Gives (parser.parse .unlimited (some "perhaps") (.text "x") false) v := ⟨[], events, run⟩
  refine ⟨parser, v, compiled, ends_plain, unit, parsed, (parse_vacant compiled ends_plain unit parsed).2 ?_⟩
  intro atLeastOnce item passes
  rcases perhaps_passes passes with same | same | same <;> cases same

def length? : Except Failure Value → Option Nat
  | .ok (.list vs) => some vs.length
  | _ => none

theorem ends_listed : ∃ parser, Gives (ofGrammar ends []) parser ∧ ends.Plain ∧
    parser.ruleType? "ends" = some .unit ∧
      Gives (parser.parse .unlimited (some "ends") (.text "x") false) (.list []) := by
  have runs : ∃ parser result events, Gives (ofGrammar ends []) parser ∧ parser.ruleType? "ends" = some .unit ∧
      (parser.parse .unlimited (some "ends") (.text "x") false).run.run [] = (result, events) ∧
      length? result = some 0 :=
    ⟨_, _, _, ⟨[], _, rfl⟩, by decide +kernel, Prod.mk.eta.symm, by decide +kernel⟩
  obtain ⟨parser, result, events, compiled, unit, run, empty⟩ := runs
  unfold length? at empty
  split at empty
  · next vs =>
    rw [List.length_eq_zero_iff.mp (Option.some.inj empty)] at run
    exact ⟨parser, compiled, ends_plain, unit, [], events, run⟩
  · cases empty

end Parser

end Packrat
