import Packrat.Proofs.Parse.Room
import Packrat.Proofs.Parse.Twin
import Packrat.Proofs.Parser

namespace Packrat

open Filter Relation

namespace TypedGrammar

/-- Calls a rule, and evaluates its body every time, with at most `depth` calls inside each other. -/
def plainWithin (p : TypedGrammar) (input : Input) : (depth : Nat) → String → Int → Run Value
  | 0, _, _ => .halt .exhausted
  | depth + 1, name, i =>
    match p.typed? name with
    | some typed => p.body input (plainWithin p input depth) typed i
    | none => .halt (.unknownRule name)

def Right (p : TypedGrammar) (input : Input) (c : Call) (e : Entry) : Prop :=
  ∀ t : Parse, t.failures.Proper → ∃ t' : Parse, t'.failures = t.failures.merge e.failures ∧
    ∀ᶠ d in atTop, p.plainWithin input d c.rule c.start .unlimited t = (.ofResult e.result, t')

end TypedGrammar

structure Straight (p : TypedGrammar) (input : Input) (stack : List Call) (s : Parse) : Prop where
  coherent : Coherent p input stack s
  clean : ∀ {c e}, c ∈ stack → s.memo.get? c = some e → e.reentered = false ∧ e.provisional = false
  right : ∀ {c e}, s.memo.get? c = some e → e.settled = true → p.Right input c e

namespace Straight

variable {p : TypedGrammar} {input : Input} {stack : List Call} {s s' : Parse} {c : Call}

theorem initial (events : List Event) : Straight p input [] { events } where
  coherent := .initial events
  clean member := by cases member
  right found := by cases found

theorem congr (straight : Straight p input stack s) (memo : s'.memo = s.memo) (same : s'.stack = s.stack) :
    Straight p input stack s' :=
  ⟨straight.coherent.congr memo same, memo ▸ straight.clean, memo ▸ straight.right⟩

theorem enter (straight : Straight p input stack s) (fresh : s.memo.get? c = none) :
    Straight p input (c :: stack) (s.enter c) := by
  refine ⟨straight.coherent.enter fresh, ?_, ?_⟩
  · intro d e member found
    rw [Parse.get?_enter fresh] at found
    split at found
    · cases found
      exact ⟨rfl, rfl⟩
    · next other =>
      rcases List.mem_cons.mp member with same | member
      · exact absurd same other
      · exact straight.clean member found
  · intro d e found settled
    rw [Parse.get?_enter fresh] at found
    split at found
    · cases found
      cases settled
    · exact straight.right found settled

theorem isReentered (straight : Straight p input (c :: stack) s) : s.isReentered c = false := by
  obtain ⟨e, found, _⟩ := straight.coherent.found_of_mem List.mem_cons_self
  simp only [Parse.isReentered, found, Option.map_some, Option.getD_some]
  exact (straight.clean List.mem_cons_self found).1

theorem conclude (straight : Straight p input (c :: stack) s) (outside : c ∉ stack) (saved : Failures)
    {result : Result} (proper : s.failures.Proper)
    (derives : ∀ v stop, result = some (v, stop) →
      p.Derives input (.expr (.reference c.rule)) c.start [v] stop)
    (right : ∀ e : Entry, e.result = result → e.failures = s.failures → p.Right input c e) :
    Straight p input stack ((s.leave c saved).remember c result) := by
  obtain ⟨e, found, _⟩ := straight.coherent.found_of_mem List.mem_cons_self
  have complete := (straight.clean List.mem_cons_self found).2
  have view := Parse.get?_conclude saved result straight.coherent.ordered found
  refine ⟨(straight.coherent.conclude outside saved proper derives).1, ?_, ?_⟩
  · intro d e' member found'
    have other : d ≠ c := fun same => outside (same ▸ member)
    rw [view, if_neg other] at found'
    exact straight.clean (List.mem_cons_of_mem _ member) found'
  · intro d e' found' settled
    rw [view] at found'
    split at found'
    · next same =>
      rw [if_neg (by simp [complete])] at found'
      cases found'
      rw [same]
      exact right _ rfl rfl
    · exact straight.right found' settled

end Straight

namespace TypedGrammar

variable {p : TypedGrammar} {input : Input}

theorem plainWithin_of_known {name : String} {typed : TypedRule} (known : p.typed? name = some typed)
    (depth : Nat) (i : Int) (room : Room) (t : Parse) :
    p.plainWithin input (depth + 1) name i room t = p.body input (p.plainWithin input depth) typed i room t := by
  rw [plainWithin, known]

section Evaluated

variable {stack : List Call} {s s₁ t : Parse} {c : Call} {typed : TypedRule} {call : String → Int → Run Value}
  {o : Outcome Value}

abbrev Accompanied (p : TypedGrammar) (input : Input) (stack : List Call) (c : Call) (typed : TypedRule)
    (call : String → Int → Run Value) (s : Parse) : Prop :=
  ∀ t : Parse, t.failures.Proper → Meets (fun s _ => Straight p input (c :: stack) s) (· ≠ .exhausted)
    (fun v stop => p.Derives input (.expr (.reference c.rule)) c.start [v] stop)
    (p.body input call typed c.start) (fun d => p.body input (p.plainWithin input d) typed c.start) (s.enter c) t

theorem exists_plain (known : p.typed? c.rule = some typed) (meets : p.Accompanied input stack c typed call s)
    (run : p.body input call typed c.start .unlimited (s.enter c) = (o, s₁)) (ended : ∀ h, o ≠ .halted h)
    (proper : t.failures.Proper) : ∃ t' : Parse, t'.failures = t.failures.merge s₁.failures ∧
      ∀ᶠ d in atTop, p.plainWithin input d c.rule c.start .unlimited t = (o, t') := by
  obtain ⟨t', runs, _, _, failures⟩ := (meets t proper).own rfl run ended
  exact ⟨t', failures, eventually_of_succ
    (runs.mono fun d here => (plainWithin_of_known known d _ _ _).trans here)⟩

theorem exists_concluded (known : p.typed? c.rule = some typed) (outside : c ∉ stack)
    (meets : p.Accompanied input stack c typed call s) (result : Result)
    (run : p.body input call typed c.start .unlimited (s.enter c) = (.ofResult result, s₁))
    (proper : t.failures.Proper) (derived : ∀ v stop, result = some (v, stop) →
      p.Derives input (.expr (.reference c.rule)) c.start [v] stop) :
    ∃ t', (∀ᶠ d in atTop, p.plainWithin input d c.rule c.start .unlimited t = (.ofResult result, t')) ∧
      Agree (fun s _ => Straight p input stack s) s t ((s₁.leave c s.failures).remember c result) t' := by
  have ended : ∀ h, Outcome.ofResult result ≠ .halted h := by
    cases result <;> exact nofun
  obtain ⟨t', failures, runs⟩ := exists_plain known meets run ended proper
  obtain ⟨_, _, after, properOwn, _⟩ := (meets t proper).own rfl run ended
  refine ⟨t', runs, after.conclude outside _ properOwn derived ?_, s₁.failures, properOwn, ?_, failures⟩
  · intro e same failures t proper
    subst same
    rw [failures]
    exact exists_plain known meets run ended proper
  · exact Parse.failures_conclude

theorem meets_evaluateCall (known : p.typed? c.rule = some typed) (outside : c ∉ stack)
    (meets : p.Accompanied input stack c typed call s) (proper : t.failures.Proper) :
    Meets (fun s _ => Straight p input stack s) (· ≠ .exhausted)
      (fun v stop => p.Derives input (.expr (.reference c.rule)) c.start [v] stop)
      (evaluateCall (p.body input call typed c.start) c input.size)
      (fun d => p.plainWithin input d c.rule c.start) s t := by
  obtain ⟨o, s₁, t₁, run, runs, ends⟩ := meets t proper
  rcases ends.halted_or_result with ⟨h, rfl, allowed⟩ | ⟨result, rfl, agree, derived⟩
  · refine ⟨_, _, t₁, evaluateCall_of_halted rfl (Run.andThen_of_halted run), ?_, .halted allowed⟩
    exact eventually_of_succ (runs.mono fun d here => (plainWithin_of_known known d _ _ _).trans here)
  · obtain ⟨t', runs, agree'⟩ := exists_concluded known outside meets result run proper derived
    refine ⟨_, _, t', evaluateCall_of_result rfl ?_, runs, .ofResult agree' derived⟩
    cases result with
    | none => exact Run.andThen_of_failed run
    | some found =>
      refine (Run.andThen_of_matched run).trans ?_
      simp only [settle, agree.related.isReentered, Bool.false_eq_true, if_false]
      rfl

end Evaluated

theorem answering_plain (faithful : p.Faithful) (acyclic : ∀ name, ¬ TransGen p.grammar.LeftCalls name name)
    (input : Input) (lo : Int) :
    Answering p input lo (· ≠ .exhausted) (fun _ => True) (fun _ stack s _ => Straight p input stack s)
      (p.plainWithin input) where
  faithful := faithful
  halts _ other := other
  closed _ _ := trivial
  blind := by
    intro s₀ stack s t s' t' straight memo same _ _
    exact straight.congr memo same
  coherent := Straight.coherent
  unknown := by
    intro s₀ stack s t c _ _ _ unknown
    refine ⟨t, eventually_atTop.mpr ⟨1, fun d large => ?_⟩⟩
    obtain ⟨d, rfl⟩ := Nat.exists_eq_add_of_le' large
    rw [plainWithin, unknown]
    rfl
  recorded := by
    intro s₀ stack s t c e _ straight properLeft properRight _ chain found
    have settled : e.settled = true := by
      by_contra unsettled
      have member := straight.coherent.mem_of_unsettled found (Bool.eq_false_iff.mpr unsettled)
      exact acyclic _ (Call.reaches_of_mem chain member rfl)
    obtain ⟨t', failures, runs⟩ := straight.right found settled t properRight
    have related := straight.congr (Parse.memo_answered settled) (Parse.stack_answered e)
    have agree : Agree (fun s _ => Straight p input stack s) s t (s.answered e) t' :=
      ⟨related, e.failures, straight.coherent.proper found, Parse.failures_answered_of_settled settled, failures⟩
    exact ⟨_, _, t', reuse_eq e .unlimited s, runs,
      .ofResult agree fun v stop known => straight.coherent.derived found known⟩
  evaluated := by
    intro s₀ stack s t c typed depth _ straight _ properRight standing _ fresh known tracks
    have outside := (List.nodup_cons.mp standing.nodup).1
    refine meets_evaluateCall known outside (fun t proper => ?_) properRight
    exact tracks s₀ (s.enter c) t (straight.enter fresh) Failures.proper_none proper

end TypedGrammar

namespace Parser

/-- Where no rule is left-recursive, the memo is transparent: a call on a fresh state comes to what it comes
to without a memo, with the same failures unless it is halted. -/
theorem apply_eq_plain {g : Grammar} {actions : List (String × Action)} {parser : Parser}
    (compiled : Reporting.Gives (ofGrammar g actions) parser)
    (none : ∀ name ∈ g.ruleNames, parser.recursion? name = some .none) (input : Input) (name : String) (i : Int)
    (events : List Event) :
    ∃ outcome state plain least, parser.typed.apply input name i .unlimited { events } = (outcome, state) ∧
      (∀ depth ≥ least, parser.typed.plainWithin input depth name i .unlimited {} = (outcome, plain)) ∧
      outcome ≠ .halted .exhausted ∧ ((∀ h, outcome ≠ .halted h) → state.failures = plain.failures) ∧
      ∀ room, parser.typed.apply input name i room { events } = (outcome, state) ∨
        ∃ s, parser.typed.apply input name i room { events } = (.halted .nestedTooDeeply, s) := by
  have faithful : parser.typed.Faithful := faithful_of_ofGrammar compiled
  have acyclic := acyclic_of_ofGrammar compiled none
  have fresh : Straight parser.typed input [] ({ events } : Parse) := .initial events
  obtain ⟨o, s, t, run, runs, ends⟩ := (TypedGrammar.answering_plain faithful acyclic input i).tracks_apply {} trivial
    { events } {} fresh Failures.proper_none Failures.proper_none
  obtain ⟨least, large⟩ := eventually_atTop.mp runs
  refine ⟨o, s, t, least, run, large, ?_, ?_, fun room => ?_⟩
  · cases ends with
    | halted allowed => exact fun exhausted => allowed (Outcome.halted.inj exhausted)
    | failed => exact nofun
    | matched => exact nofun
  · intro ended
    have own : ∀ {R : Parse → Parse → Prop}, Agree R { events } {} s t → s.failures = t.failures := by
      intro R ⟨_, own, _, left, right⟩
      exact left.trans right.symm
    cases ends with
    | halted => exact absurd rfl (ended _)
    | failed agree => exact own agree
    | matched agree => exact own agree
  · rcases TypedGrammar.steady_apply name i room { events } with cut | same
    · exact .inr cut
    · exact .inl (same.trans run)

def words : Grammar where
  rules := [⟨"word", [⟨[.reference "letter", .literal "!"], none⟩, ⟨[.reference "letter"], none⟩], none, true,
    none, ""⟩,
    ⟨"letter", [⟨[.literal "a"], none⟩], none, true, none, ""⟩]
  tokens := []
  states := []
  name := "words"
  distinctRules := by decide
  distinctTokens := Grammar.distinctTokens_nil
  disjoint := by decide
  distinctInStates := Grammar.distinctInStates_nil

theorem words_eq_plain : ∃ parser, Reporting.Gives (ofGrammar words []) parser ∧
    (∀ name ∈ words.ruleNames, parser.recursion? name = some .none) ∧
    ∃ outcome state plain least,
      parser.typed.apply (.text #['a']) "word" 0 .unlimited {} = (outcome, state) ∧
      (∀ depth ≥ least, parser.typed.plainWithin (.text #['a']) depth "word" 0 .unlimited {} = (outcome, plain)) ∧
      outcome ≠ .halted .exhausted ∧ ((∀ h, outcome ≠ .halted h) → state.failures = plain.failures) ∧
      ∀ room, parser.typed.apply (.text #['a']) "word" 0 room {} = (outcome, state) ∨
        ∃ s, parser.typed.apply (.text #['a']) "word" 0 room {} = (.halted .nestedTooDeeply, s) := by
  have compiled : ∃ parser, Reporting.Gives (ofGrammar words []) parser := ⟨_, [], _, rfl⟩
  obtain ⟨parser, compiled⟩ := compiled
  have straight : ∀ name ∈ words.ruleNames, LeftRecursion.recursionOf words.leftCallees
      (LeftRecursion.cyclesOf words.leftCallees) name = .none := by decide
  have none : ∀ name ∈ words.ruleNames, parser.recursion? name = some .none := by
    intro name listed
    rw [recursion?_of_mem compiled listed, straight name listed]
  exact ⟨parser, compiled, none, apply_eq_plain compiled none (.text #['a']) "word" 0 []⟩

end Parser

end Packrat
