import Packrat.Proofs.Lexer.Refusals
import Packrat.Proofs.Parse.Lasting
import Packrat.Proofs.Parse.Record
import Packrat.Proofs.Parser
import Packrat.Proofs.Typing.Bindings
import Packrat.Proofs.Typing.Refusals

namespace Packrat

open Relation Reporting

inductive Grammar.HasAction (g : Grammar) (actions : List (String × Action)) (action : Action) : Prop where
  | token {t : TokenRule} (listed : t ∈ g.tokens ∨ ∃ state ∈ g.states, t ∈ state.2) (acts : t.action = some action)
  | production {r : Rule} {production : Production} {spec : ActionSpec} (listed : r ∈ g.rules)
      (source : production ∈ r.productions) (asked : production.action = some spec)
      (given : spec.callable = some action ∨ ∃ name, spec.name = some name ∧ actions.lookup name = some action)

def Grammar.Raises (g : Grammar) (actions : List (String × Action)) (f : Fault) : Prop :=
  ∃ action arguments, g.HasAction actions action ∧ action.run arguments = .error f

def Grammar.Suits (g : Grammar) : Input → Prop
  | .text _ => g.usesTokens = false
  | .tokens _ => g.usesTokens = true

namespace Lexer

def Failure.Excused (raises : Fault → Prop) (room : Room) : Failure → Prop
  | .lexical _ => True
  | .fault f => raises f
  | .nestedTooDeeply => room ≠ .unlimited

def Tells (lexer : Lexer) (raises : Fault → Prop) : Prop := ∀ {set}, lexer.Has set → ∀ t ∈ set.tokens, ∀ action,
  t.action = some action → ∀ arguments f, action.run arguments = .error f → raises f

variable {lexer : Lexer} {raises : Fault → Prop} {room whole : Room}

theorem returns_takeRoom (levels : Nat) (inside : room ≠ .unlimited → whole ≠ .unlimited) :
    Returns (Failure.Excused raises whole) (fun left => left ≠ .unlimited → whole ≠ .unlimited)
      (takeRoom levels room) := by
  unfold takeRoom
  cases room with
  | none => exact .pure inside
  | some limit =>
    have limited : whole ≠ .unlimited := inside nofun
    split
    · exact .pure fun _ => limited
    · exact .throw limited

theorem returns_callAction {action : Option Action}
    (tells : ∀ a, action = some a → ∀ arguments f, a.run arguments = .error f → raises f) (v otherwise : Value) :
    Returns (Failure.Excused raises whole) (fun _ => True) (callAction action v otherwise) := by
  unfold callAction
  cases action with
  | none => exact .pure trivial
  | some action =>
    refine .lift ?_
    cases run : action.run (.positional v) with
    | ok made => trivial
    | error f => exact tells action rfl _ f run

theorem returns_matchToken (tells : lexer.Tells raises) {set : TokenSet} (has : lexer.Has set)
    {run : String → Room → Nat → List Char → Reporting Failure (List Value × Nat × List Char)}
    (runs : ∀ state left pos rest, (left ≠ .unlimited → whole ≠ .unlimited) →
      Returns (Failure.Excused raises whole) (fun _ => True) (run state left pos rest))
    (inside : room ≠ .unlimited → whole ≠ .unlimited) (place : Place) (pos : Nat) (rest : List Char) :
    Returns (Failure.Excused raises whole) (fun _ => True) (matchToken run place set room pos rest) := by
  unfold matchToken
  refine (returns_takeRoom 1 inside).bind fun left inside => ?_
  refine Returns.bind (Q := fun _ => True) ((returns_takeRoom 2 inside).bind fun _ _ => .pure trivial) fun _ _ => ?_
  split
  · exact .throw trivial
  · next token length next =>
    have acts := tells has token (mem_of_next next)
    refine (Returns.report _).bind fun _ _ => ?_
    split
    · refine (returns_takeRoom 1 inside).bind fun left inside => ?_
      refine (runs _ left _ _ inside).bind fun _ _ => ?_
      exact (returns_callAction acts _ _).bind fun _ _ => .pure trivial
    · exact (returns_callAction acts _ _).bind fun _ _ => .pure trivial

theorem returns_runState (tells : lexer.Tells raises) (place : Place) (fuel : Nat) (parts : List Value) (state : String)
    (inside : room ≠ .unlimited → whole ≠ .unlimited) (pos : Nat) (rest : List Char) :
    Returns (Failure.Excused raises whole) (fun _ => True)
      (runState lexer place fuel parts state room pos rest) := by
  induction fuel generalizing parts state room pos rest with
  | zero => exact .throw trivial
  | succ fuel ih =>
    have runs : ∀ state (left : Room) pos rest, (left ≠ .unlimited → whole ≠ .unlimited) → Returns
        (Failure.Excused raises whole) (fun _ => True) (runState lexer place fuel [] state left pos rest) :=
      fun state left pos rest inside => ih [] state inside pos rest
    rw [runState]
    refine (returns_matchToken tells (has_lookup lexer state) runs inside place pos rest).bind fun m _ => ?_
    split
    · exact .pure trivial
    · exact ih _ _ inside _ _

theorem returns_tokenizeFrom (tells : lexer.Tells raises) (lines : List Nat) (fuel index : Nat) (found : List Token)
    (pos : Nat) (rest : List Char) : Returns (Failure.Excused raises room) (fun _ => True)
      (lexer.tokenizeFrom room lines fuel index found pos rest) := by
  induction fuel generalizing index found pos rest with
  | zero => exact .pure trivial
  | succ fuel ih =>
    cases rest with
    | nil => exact .pure trivial
    | cons c rest =>
      have runs : ∀ state (left : Room) pos behind, (left ≠ .unlimited → room ≠ .unlimited) → Returns
          (Failure.Excused raises room) (fun _ => True)
          (runState lexer ⟨lines, index⟩ ((c :: rest).length + 1) [] state left pos behind) :=
        fun state left pos behind inside => returns_runState tells _ _ [] state inside pos behind
      rw [tokenizeFrom]
      · refine (returns_matchToken tells (.inl rfl) runs id _ pos _).bind fun m _ => ?_
        split <;> exact ih _ _ _ _
      · simp

theorem returns_tokenize (tells : lexer.Tells raises) (room : Room) (text : String) :
    Returns (Failure.Excused raises room) (fun _ => True) (lexer.tokenize room text) :=
  returns_tokenizeFrom tells _ _ _ _ _ _

theorem tells_of_ofTokens {g : Grammar} (compiled : Gives (ofTokens g.tokens g.ruleNames g.states) lexer)
    (actions : List (String × Action)) : lexer.Tells (g.Raises actions) := by
  intro set has t listed action acts arguments f raised
  obtain ⟨declared, state, source, built, _⟩ := has.compiled compiled
  rw [(TokenSet.exists_automaton built).1] at listed
  refine ⟨action, arguments, .token ?_ acts, raised⟩
  rcases source with rfl | ⟨name, member⟩
  · exact .inl listed
  · exact .inr ⟨_, member, listed⟩

end Lexer

namespace TypedGrammar

variable {p : TypedGrammar} {actions : List (String × Action)} {input : Input}

theorem isFor_of_suits (suits : p.grammar.Suits input) : p.isFor input = true := by
  cases input with
  | text chars => rfl
  | tokens ts => exact suits

def Excuse (raises : Fault → Prop) : Halt → Prop
  | .fault f => raises f
  | .nestedTooDeeply | .exhausted => True
  | _ => False

theorem raises_of_value {ctx : Typing.Context} {rules : List (String × TypedRule)} {r : Rule} {typed : TypedRule}
    (listed : r ∈ ctx.grammar.rules) (checked : Typing.Checked ctx rules r typed) {q : TypedProduction}
    (member : q ∈ typed.productions) {vs : List Value} {f : Fault} (failed : q.value vs = .error (.fault f)) :
    ctx.grammar.Raises ctx.actions f := by
  obtain ⟨production, source, pending, types, _, built⟩ := exists_of_forall₂ checked.productions member
  unfold TypedProduction.value at failed
  split at failed
  · cases failed
  · next action acts =>
    split at failed
    · next arguments _ =>
      refine ⟨action, arguments, ?_, ?_⟩
      · obtain ⟨_, _, ⟨_, plain, _⟩ | ⟨spec, asked, found, _⟩⟩ := Typing.typedProduction_cases built
        · cases acts.symm.trans plain
        · rw [acts] at found
          exact .production listed source asked (Typing.given_of_findAction found)
      · cases run : action.run arguments with
        | ok v =>
          rw [run] at failed
          cases failed
        | error e =>
          rw [run] at failed
          cases failed
          rfl
    · cases failed

theorem complies_of_typedRules (made : p.grammar.WellMade)
    (accepted : Typing.typedRules p.grammar actions = .ok p.typedRules) (suited : p.isFor input = true) :
    p.Complies input (Excuse (p.grammar.Raises actions)) 0 where
  cut := trivial
  endless := trivial
  inside := .inr (Int.le_refl 0)
  suited := .inr suited
  resolves known q listed other mentioned noRule noToken := by
    rcases Typing.knows_of_typedRules made accepted known listed mentioned with found | found
    · exact absurd noRule found
    · exact absurd noToken found
  evaluates known q listed i vs stop derived := by
    obtain ⟨r, found, checked⟩ := (Typing.complete_of_typedRules accepted).checked known
    refine ⟨fun f failed => raises_of_value (Grammar.mem_of_rule? found) checked listed failed, fun m misfit => ?_⟩
    obtain ⟨production, _, pending, types, _, typed⟩ := exists_of_forall₂ checked.productions listed
    have finds := Typing.finds_of_typedProduction typed
    exact absurd misfit (TypedProduction.not_misfit finds derived.binds m)
  typed found unknown := by
    have same := Grammar.name_of_rule? found
    obtain ⟨typed, known⟩ := (Typing.complete_of_typedRules accepted).known _ (Grammar.mem_of_rule? found)
    rw [same] at known
    cases unknown.symm.trans known

theorem halts_of_typedRules (made : p.grammar.WellMade)
    (accepted : Typing.typedRules p.grammar actions = .ok p.typedRules) (suited : p.isFor input = true) {name : String}
    {r : Rule} (found : p.grammar.rule? name = some r) {i : Int} (behind : 0 ≤ i) (room : Room) (events : List Event)
    {h : Halt} (halted : (p.apply input name i room { events }).1 = .halted h) :
    (∃ f, h = .fault f ∧ p.grammar.Raises actions f) ∨ h = .nestedTooDeeply := by
  have complies := complies_of_typedRules made accepted suited
  have keeps := keeps_callWithin complies (p.typedRules.length * ((input.size - i).toNat + 2) + 1) name
    (complies.typed found) behind room { events } (.fresh events)
  have excused : Excuse (p.grammar.Raises actions) h := by
    have within := keeps.2
    rw [show p.callWithin input _ name i = p.apply input name i from rfl, halted] at within
    exact within
  have ends : h ≠ .exhausted := by
    have faithful : p.Faithful := faithful_of_typedRules accepted
    have coherent : Coherent p input [] { events } := .initial events
    obtain ⟨o, s', t', run, _, ends⟩ := apply_ends faithful coherent Failures.proper_none name i
    rcases steady_apply name i room { events } with ⟨s₂, cut⟩ | same
    · rw [cut] at halted
      cases halted
      nofun
    · rw [same, run] at halted
      subst halted
      cases ends with
      | halted other => exact other
  cases h with
  | fault f => exact .inl ⟨f, rfl, excused⟩
  | nestedTooDeeply => exact .inr rfl
  | exhausted => exact absurd rfl ends
  | unknownRule | beforeStart | onlyText | shapeless => exact excused.elim

end TypedGrammar

namespace Parser

variable {g : Grammar} {actions : List (String × Action)} {parser : Parser}

theorem lexer_of_ofGrammar (compiled : Gives (ofGrammar g actions) parser) : parser.lexer.isSome = g.usesTokens ∧
    ∀ lexer, parser.lexer = some lexer → Gives (Lexer.ofTokens g.tokens g.ruleNames g.states) lexer := by
  obtain ⟨lexer, lexed, compiled⟩ := compiled.of_bind
  obtain ⟨typedRules, _, compiled⟩ := compiled.of_bind
  obtain ⟨leftRecursion, _, compiled⟩ := compiled.of_bind
  obtain ⟨_, _, compiled⟩ := compiled.of_bind
  split at compiled
  · rw [compiled.of_pure]
    unfold compileLexer at lexed
    split at lexed
    · next uses =>
      rw [map_eq_pure_bind] at lexed
      obtain ⟨made, works, done⟩ := lexed.of_bind
      rw [done.of_pure]
      exact ⟨uses.symm, fun _ same => Option.some.inj same ▸ works⟩
    · next none =>
      rw [lexed.of_pure]
      exact ⟨(Bool.not_eq_true _ ▸ none).symm, nofun⟩
  · exact compiled.not_throw.elim

theorem fair_compileLexer (made : g.WellMade) : Returns Refusal.OfGrammar (fun _ => True) (compileLexer g) := by
  unfold compileLexer
  split
  · rw [map_eq_pure_bind]
    refine (Lexer.fair_ofTokens (fun _ => made.token) (fun _ listed _ => made.stateToken listed) _).bind fun _ _ => ?_
    exact .pure trivial
  · exact .pure trivial

theorem unshowable?_of_typedRules (made : g.WellMade) {typedRules : List (String × TypedRule)}
    (accepted : Typing.typedRules g actions = .ok typedRules) : unshowable? typedRules = none := by
  have complete := Typing.complete_of_typedRules accepted
  refine List.findSome?_eq_none_iff.mpr fun (name, typed) listed => List.findSome?_eq_none_iff.mpr fun q member => ?_
  obtain ⟨r, found, checked⟩ := complete.checked (lookup_of_mem complete.distinct listed)
  obtain ⟨production, source, pending, types, _, built⟩ := exists_of_forall₂ checked.productions member
  rw [(Typing.typedProduction_cases built).1]
  have items := made.items (Grammar.mem_of_rule? found) production source
  exact Expr.firstUnshowable?_of_allWellMade _ (Expr.allWellMade_allLaidOpen _ items)

theorem fair_ofGrammar (made : g.WellMade) : Returns Refusal.OfGrammar (fun _ => True) (ofGrammar g actions) := by
  unfold ofGrammar
  refine (fair_compileLexer made).bind fun lexer _ => ?_
  refine (Returns.lift (Typing.fair_typedRules made).exactly).bind fun typedRules accepted => ?_
  refine (Returns.lift (fair_mapError _)).bind fun leftRecursion _ => ?_
  have reported : Returns Refusal.OfGrammar (fun _ => True) (reportCompiled g typedRules leftRecursion) :=
    (Returns.report _).bind fun _ _ => Returns.forM fun _ _ => Returns.report _
  refine reported.bind fun _ _ => ?_
  rw [unshowable?_of_typedRules made accepted]
  exact .pure trivial

/-- What a parse may end in other than a value: an error in the input, or what an action of the grammar has
raised. Only where the room is limited may there be too little of it. -/
def Failure.Excused (raises : Fault → Prop) (room : Room) : Failure → Prop
  | .input _ => True
  | .halted (.fault f) => raises f
  | .halted .nestedTooDeeply => room ≠ .unlimited
  | _ => False

/-- A parse can be asked for: it starts at a rule where one may, and it is of text unless the grammar has tokens. -/
structure Admits (parser : Parser) (rule : Option String) (subject : Subject) : Prop where
  startable : parser.grammar.entries ≠ []
  entry : ∀ name, rule = some name → name ∈ parser.grammar.entries
  subject : ∀ ts, subject = .tokens ts → parser.grammar.usesTokens = true

theorem exists_startRule {rule : Option String} {subject : Subject} (admits : parser.Admits rule subject) :
    ∃ name r, parser.startRule rule = .ok name ∧ parser.grammar.rule? name = some r := by
  have starts : ∃ name ∈ parser.grammar.entries, ∀ r, parser.grammar.rule? name = some r → r.entry = true →
      parser.startRule rule = .ok name := by
    cases rule with
    | some name =>
      refine ⟨name, admits.entry name rfl, fun r found entry => ?_⟩
      simp [startRule, Bind.bind, Except.bind, found, entry]
    | none =>
      cases listed : parser.grammar.entries with
      | nil => exact absurd listed admits.startable
      | cons name rest =>
        refine ⟨name, List.mem_cons_self, fun r found entry => ?_⟩
        simp [startRule, listed, Bind.bind, Except.bind, found, entry]
  obtain ⟨name, listed, starts⟩ := starts
  obtain ⟨r, member, rfl⟩ := List.mem_map.mp listed
  obtain ⟨known, entry⟩ := List.mem_filter.mp member
  have found := Grammar.rule?_of_mem known
  exact ⟨r.name, r, starts r found entry, found⟩

theorem returns_mapFailure {ε δ α : Type} {E : ε → Prop} {E' : δ → Prop} {Q : α → Prop} {f : ε → δ}
    {work : Reporting ε α} (returns : Returns E Q work) (excused : ∀ e, E e → E' (f e)) :
    Returns E' Q (mapFailure f work) := by
  intro events
  have here := returns events
  have step : (mapFailure f work).run.run events =
      ((work.run.run events).1.mapError f, (work.run.run events).2) := rfl
  rw [step]
  cases result : (work.run.run events).1 with
  | ok a =>
    rw [result] at here
    exact here
  | error e =>
    rw [result] at here
    exact excused e here

variable {raises : Fault → Prop}

theorem returns_tokenize {lexer : Lexer} (known : parser.lexer = some lexer) (tells : lexer.Tells raises)
    (room : Room) (text : String) :
    Returns (Failure.Excused raises room) (fun _ => True) (parser.tokenize room text) := by
  unfold tokenize
  rw [known]
  refine returns_mapFailure (lexer.returns_tokenize tells room text) fun e excused => ?_
  cases e with
  | lexical e => trivial
  | fault f => exact excused
  | nestedTooDeeply => exact excused

theorem returns_prepare (lexed : parser.lexer.isSome = parser.grammar.usesTokens)
    (tells : ∀ lexer, parser.lexer = some lexer → lexer.Tells raises) {rule : Option String}
    {subject : Subject} (admits : parser.Admits rule subject) (room : Room) :
    Returns (Failure.Excused raises room) (fun _ => True) (parser.prepare room subject) := by
  unfold prepare
  cases known : parser.lexer with
  | some lexer =>
    cases subject with
    | text t => exact (returns_tokenize known (tells lexer known) room t).bind fun _ _ => .pure trivial
    | tokens ts => exact .pure trivial
  | none =>
    rw [known] at lexed
    cases subject with
    | text t => exact .pure trivial
    | tokens ts => cases lexed.trans (admits.subject ts rfl)

theorem suits_of_prepare (lexed : parser.lexer.isSome = parser.grammar.usesTokens) {room : Room} {subject : Subject}
    {input : Input} {source : Source} (prepared : Gives (parser.prepare room subject) (input, source)) :
    parser.grammar.Suits input := by
  unfold prepare at prepared
  cases known : parser.lexer with
  | some lexer =>
    rw [known] at lexed prepared
    cases subject with
    | text t =>
      obtain ⟨tokens, _, done⟩ := prepared.of_bind
      cases done.of_pure
      exact lexed.symm
    | tokens ts =>
      cases prepared.of_pure
      exact lexed.symm
  | none =>
    rw [known] at lexed prepared
    cases subject with
    | text t =>
      cases prepared.of_pure
      exact lexed.symm
    | tokens ts => exact prepared.not_throw.elim

theorem yields_conclude {input : Input} {source : Source} {complete : Bool} {outcome : Outcome Value}
    {failures : Failures} {room : Room}
    (halts : ∀ h, outcome = .halted h → (∃ f, h = .fault f ∧ raises f) ∨ h = .nestedTooDeeply) :
    Yields (Failure.Excused raises room) (fun _ => True) (conclude input source complete outcome failures) := by
  cases outcome with
  | matched v stop =>
    unfold conclude
    dsimp only
    split <;> trivial
  | failed => trivial
  | halted h =>
    rcases halts h rfl with ⟨f, rfl, raised⟩ | rfl
    · cases f with
      | raised message => exact raised
      | tooDeep => trivial
    · trivial

theorem returns_parse (made : g.WellMade) (compiled : Gives (ofGrammar g actions) parser) {rule : Option String}
    {subject : Subject} (admits : parser.Admits rule subject) (room : Room) (complete : Bool) :
    Returns (Failure.Excused (g.Raises actions) room) (fun _ => True)
      (parser.parse room rule subject complete) := by
  obtain ⟨lexed, works⟩ := lexer_of_ofGrammar compiled
  have tells : ∀ lexer, parser.lexer = some lexer → lexer.Tells (g.Raises actions) :=
    fun lexer known => Lexer.tells_of_ofTokens (works lexer known) actions
  obtain ⟨rfl, accepted, _⟩ := parts_of_ofGrammar compiled
  obtain ⟨name, r, starts, found⟩ := exists_startRule admits
  unfold parse
  rw [starts]
  refine (Returns.pure rfl).bind fun _ same => ?_
  obtain rfl := same
  refine (returns_prepare lexed tells admits room).exactly.bind fun (input, source) prepared events => ?_
  have suited := TypedGrammar.isFor_of_suits (suits_of_prepare lexed prepared)
  have concluded : Yields (Failure.Excused (parser.grammar.Raises actions) room) (fun _ => True)
    (conclude input source complete (parser.typed.apply input name 0 room { events }).1
      (parser.typed.apply input name 0 room { events }).2.failures) :=
    yields_conclude fun h halted =>
      TypedGrammar.halts_of_typedRules made accepted suited found (Int.le_refl 0) room events halted
  exact Returns.lift concluded (parser.typed.apply input name 0 room { events }).2.events

/-- Whatever is looked up is there: the rules and what they refer to, the types that sequences are compiled by, the
values that bindings name, the kind of input that terminals look at, the rows and states of the lexer, and the
entries of the calls that are being evaluated. -/
structure Provides (actions : List (String × Action)) (parser : Parser) : Prop where
  sources : ∀ {name typed}, parser.typed.typed? name = some typed → ∃ r, parser.grammar.rule? name = some r
  rules : ∀ {name r}, parser.grammar.rule? name = some r → ∃ typed, parser.typed.typed? name = some typed
  recursion : ∀ name ∈ parser.grammar.ruleNames, ∃ kind, parser.recursion? name = some kind
  types : ∀ {name typed}, parser.typed.typed? name = some typed → ∀ q ∈ typed.productions, ∀ e ∈ q.items,
    ∀ {part}, e.Contains part → ∃ t, Typing.recordedType? parser.grammar actions part = some t
  references : ∀ {name typed}, parser.typed.typed? name = some typed → ∀ q ∈ typed.productions,
    ∀ other ∈ Expr.allReferences q.items, parser.grammar.Knows other
  bindings : ∀ {name typed}, parser.typed.typed? name = some typed → ∀ q ∈ typed.productions, ∀ {input i vs stop},
    parser.typed.Derives input (.items q.items) i vs stop → ∃ arguments, q.arguments vs = .ok arguments
  inputs : ∀ {room subject input source}, Gives (parser.prepare room subject) (input, source) →
    parser.grammar.Suits input
  lexer : parser.lexer.isSome = parser.grammar.usesTokens ∧ ∀ lexer, parser.lexer = some lexer → lexer.Closed
  entries : ∀ {input name i s m c}, Completed parser.typed input s →
    ReflTransGen (parser.typed.Leads input) (parser.typed.opening input name i s) m → c ∈ m.state.stack →
      (∃ e, m.state.memo.get? c = some e) ∧
        ∀ {s'}, parser.typed.Finishes input m s' → ∃ e, s'.memo.get? c = some e

theorem provides_of_ofGrammar (made : g.WellMade) (compiled : Gives (ofGrammar g actions) parser) :
    parser.Provides actions := by
  obtain ⟨lexed, works⟩ := lexer_of_ofGrammar compiled
  have recursion : ∀ name ∈ g.ruleNames, ∃ kind, parser.recursion? name = some kind :=
    fun name listed => ⟨_, recursion?_of_mem compiled listed⟩
  have faithful : parser.typed.Faithful := faithful_of_ofGrammar compiled
  obtain ⟨rfl, accepted, _⟩ := parts_of_ofGrammar compiled
  have complete := Typing.complete_of_typedRules accepted
  refine ⟨?sources, ?rules, ?recursion, ?types, ?references, ?bindings, ?inputs, ?lexer, ?entries⟩
  case sources =>
    intro name typed known
    obtain ⟨r, found, _⟩ := complete.checked known
    exact ⟨r, found⟩
  case rules =>
    intro name r found
    rw [← Grammar.name_of_rule? found]
    exact complete.known r (Grammar.mem_of_rule? found)
  case recursion => exact recursion
  case types =>
    intro name typed known q listed e item part inside
    exact Typing.exists_recordedType (Typing.noted_of_typedRules made accepted known listed item inside)
  case references =>
    intro name typed known q listed other mentioned
    exact Typing.knows_of_typedRules made accepted known listed mentioned
  case bindings =>
    intro name typed known q listed input i vs stop derived
    obtain ⟨r, _, checked⟩ := complete.checked known
    obtain ⟨production, _, pending, types, _, built⟩ := exists_of_forall₂ checked.productions listed
    exact TypedProduction.exists_arguments (Typing.finds_of_typedProduction built) derived.binds
  case inputs => exact suits_of_prepare lexed
  case lexer => exact ⟨lexed, fun lexer known => Lexer.closed_of_ofTokens (works lexer known)⟩
  case entries =>
    intro input name i s m c completed leads member
    obtain ⟨coherent, proper⟩ := completed.coherent faithful
    obtain ⟨stack, sound⟩ := (TypedGrammar.sound_opening coherent proper).steps faithful leads
    rw [sound.coherent.calls] at member
    have present : ∀ {s'}, Coherent parser.typed input stack s' → ∃ e, s'.memo.get? c = some e := fun coherent' => by
      obtain ⟨e, found, _⟩ := coherent'.found_of_mem member
      exact ⟨e, found⟩
    refine ⟨present sound.coherent, fun finishes => present ?_⟩
    exact (sound.lasting_run faithful ((Invariant.top parser.typed input).lasting faithful) trivial finishes).1

def ratios : Grammar where
  rules :=
    let below : Expr := .optional (.sequence [.literal "/", .bind "bottom" (.reference "digit")])
    let digits : CharClass := ⟨[⟨48, 58⟩], false, ⟨by decide, by simp⟩⟩
    [⟨"ratio", [⟨[.bind "top" (.reference "digit"), below], some { name := some "divide" }⟩], none, true, none, ""⟩,
      ⟨"digit", [⟨[.oneOf digits], none⟩], none, false, some "digit", ""⟩]
  tokens := []
  states := []
  name := "ratios"
  distinctRules := by decide
  distinctTokens := Grammar.distinctTokens_nil
  disjoint := by decide
  distinctInStates := Grammar.distinctInStates_nil

def divide : Action := ⟨"divide", fun
  | .named [_, (_, .text "0")] => .error (.raised "division by zero")
  | arguments => .ok arguments.value⟩

end Parser

end Packrat
