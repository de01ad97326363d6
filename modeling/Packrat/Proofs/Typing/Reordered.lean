import Packrat.Proofs.Typing.Iterates

namespace Packrat

open ValueType Relation

namespace Grammar

/-- A rule leads to none that leads back to itself, so no type is assumed when it is typed. -/
def Settled (g : Grammar) (name : String) : Prop :=
  (∃ r, g.rule? name = some r) ∧ ∀ other, ReflTransGen g.Mentions name other → ¬ g.Recursive other

variable {g h : Grammar} {name other : String}

theorem Settled.of_mentions (settled : g.Settled name) (mentions : g.Mentions name other) : g.Settled other := by
  refine ⟨?_, fun last leads => settled.2 last (.head mentions leads)⟩
  obtain ⟨_, _, _, r, found, _⟩ := mentions
  exact ⟨r, found⟩

theorem mentions_of_perm (perm : h.rules.Perm g.rules) : h.Mentions = g.Mentions := by
  funext name other
  simp only [Mentions, rule?_of_perm perm]

theorem settled_of_perm (perm : h.rules.Perm g.rules) : h.Settled = g.Settled := by
  funext name
  simp only [Settled, Recursive, rule?_of_perm perm, mentions_of_perm perm]

end Grammar

namespace Typing

open Classical in
noncomputable def settledTypes (g : Grammar) (final : String → ValueType) (name : String) : ValueType :=
  if g.Settled name then final name else .unknown

section

variable {ctx : Context} {outset final : String → ValueType}

theorem settledTypes_fits (g : Grammar) (final : String → ValueType) (name : String) :
    Fits false (settledTypes g final name) (final name) := by
  unfold settledTypes
  split
  · exact .refl _
  · exact unknown_fits _

theorem settledTypes_of_recursive {g : Grammar} {name : String} (recursive : g.Recursive name) :
    settledTypes g final name = .unknown := if_neg fun settled => settled.2 name .refl recursive

theorem typeWith_settledTypes {name other : String} {r : Rule} {p : Production} (settled : ctx.grammar.Settled name)
    (found : ctx.grammar.rule? name = some r) (member : p ∈ r.productions)
    (mentioned : other ∈ Expr.allReferences p.items) :
    typeWith ctx.grammar (settledTypes ctx.grammar final) other = typeWith ctx.grammar final other := by
  unfold typeWith
  split
  · next r' found' =>
    cases undeclared : r'.type with
    | some type => rfl
    | none =>
      have mentions : ctx.grammar.Mentions name other := ⟨r, found, ⟨p, member, mentioned⟩, r', found', undeclared⟩
      simp only [settledTypes, if_pos (settled.of_mentions mentions)]
  · rfl
  · rfl

theorem settledTypes_rises (solves : Solves ctx final) (name : String) :
    Fits false (settledTypes ctx.grammar final name) (step ctx (settledTypes ctx.grammar final) name) := by
  by_cases settled : ctx.grammar.Settled name
  · obtain ⟨r, found⟩ := settled.1
    have same : ruleIn ctx (settledTypes ctx.grammar final) r = ruleIn ctx final r :=
      ruleIn_congr fun p member other mentioned => typeWith_settledTypes settled found member mentioned
    rw [step_of_rule? found, same, solves r (Grammar.mem_of_rule? found), Grammar.name_of_rule? found, settledTypes,
      if_pos settled]
    exact .refl _
  · rw [settledTypes, if_neg settled]
    exact unknown_fits _

theorem guess_outcomes (s : Progress) (name : String) :
    Progress.guess { assumptions := outcomes s } name = assigned s.typedRules name := by
  rw [Progress.guess, outcomes, assigned, lookup_map]

theorem wrongAssumptions_eq_nil {s : Progress} (right : ∀ name ∈ s.assumed, s.guess name = assigned s.typedRules name) :
    wrongAssumptions s = [] := by
  have none : (s.assumed.filter fun name => (s.assumptions.lookup name).getD .unknown !=
      ((s.typedRules.lookup name).map (·.type)).getD .unknown) = [] := by
    refine List.filter_eq_nil_iff.mpr fun name listed => ?_
    simpa [Progress.guess, assigned] using right name listed
  rw [wrongAssumptions, none]
  rfl

theorem run_bind {α β : Type} {work : Infer α} {next : α → Infer β} {s s' : Progress} {a : α}
    (run : work.run.run s = (.ok a, s')) : (work >>= next).run.run s = (next a).run.run s' := by
  rw [run_bind_eq, run]
  rfl

theorem run_get {β : Type} (next : Progress → Infer β) (s : Progress) :
    ((get : Infer Progress) >>= next).run.run s = (next s).run.run s := rfl

theorem roundsUpTo_done {rounds : Nat} {s s₁ : Progress} (first : (round ctx).run.run s = (.ok (), s₁))
    (right : wrongAssumptions s₁ = []) : (roundsUpTo ctx rounds).run.run s = (.ok s₁.typedRules, s₁) := by
  cases rounds <;> rw [roundsUpTo, run_bind first, run_get, right] <;> rfl

theorem roundsUpTo_again {rounds : Nat} {s s₁ : Progress} (first : (round ctx).run.run s = (.ok (), s₁))
    (wrong : wrongAssumptions s₁ ≠ []) :
    (roundsUpTo ctx (rounds + 1)).run.run s = (roundsUpTo ctx rounds).run.run { assumptions := outcomes s₁ } := by
  rw [roundsUpTo, run_bind first, run_get]
  split
  · next right => exact absurd right wrong
  · rfl

theorem roundsUpTo_fits {rounds : Nat} {s s' : Progress} {rules : List (String × TypedRule)} (solves : Solves ctx final)
    (untyped : s.types = []) (unruled : s.typedRules = []) (guesses : ∀ name, Fits true (s.guess name) (final name))
    (run : (roundsUpTo ctx rounds).run.run s = (.ok rules, s')) (name : String) :
    Fits true (assigned rules name) (final name) := by
  have bounds : Bounds ctx true (fun _ => .unknown) final := ⟨solves, fun _ => unknown_fits _, nofun, nofun⟩
  have within : ∀ {s : Progress}, (∀ name, Fits true (s.guess name) (final name)) →
      ∀ name, ctx.grammar.Recursive name → Within true (some .unknown) (some (final name)) (s.guess name) :=
    fun below name _ => ⟨fun _ same => Option.some.inj same ▸ unknown_fits _,
      fun _ same => Option.some.inj same ▸ below name⟩
  induction rounds generalizing s with
  | zero =>
    unfold roundsUpTo at run
    obtain ⟨_, s₁, first, run⟩ := Infer.of_bind run
    obtain ⟨_, _, got, run⟩ := Infer.of_bind run
    cases got
    have keeps := round_keeps bounds untyped unruled (within guesses)
    rw [first] at keeps
    split at run
    · cases run
      exact (keeps.2.2 name).below _ rfl
    · cases run
  | succ rounds ih =>
    unfold roundsUpTo at run
    obtain ⟨_, s₁, first, run⟩ := Infer.of_bind run
    obtain ⟨_, _, got, run⟩ := Infer.of_bind run
    cases got
    have keeps := round_keeps bounds untyped unruled (within guesses)
    rw [first] at keeps
    split at run
    · cases run
      exact (keeps.2.2 name).below _ rfl
    · obtain ⟨_, _, again, run⟩ := Infer.of_bind run
      cases again
      refine ih rfl rfl (fun name => ?_) run
      rw [guess_outcomes]
      exact (keeps.2.2 name).below _ rfl

theorem firm_typesAfter (course : Course ctx outset final) (steps : Nat) :
    FirmRules ctx (typesAfter ctx outset steps) final := by
  intro r listed p member item inside typed
  have firm := course.firm r listed p member
  have deeper : Firm ctx outset final item.wrapped := firm.mono (Expr.allWrapped_subset inside)
  exact typeIn_of_void (typeIn_strand (typesAfter_below course steps).early typed deeper) (firm item inside typed)

theorem exists_round {low : String → ValueType} {s : Progress} (bounds : Bounds ctx false low final)
    (untyped : s.types = [])
    (unruled : s.typedRules = []) (guesses : ∀ name, ctx.grammar.Recursive name →
      Within false (some (low name)) (some (final name)) (s.guess name)) :
    ∃ s', (round ctx).run.run s = (.ok (), s') ∧ s'.assumptions = s.assumptions ∧
      (∀ name ∈ s'.assumed, ctx.grammar.Recursive name) ∧
      ∀ name, Within false (some (step ctx low name)) (some (final name)) (assigned s'.typedRules name) := by
  have keeps := round_keeps bounds untyped unruled guesses
  cases first : (round ctx).run.run s with
  | mk result s' =>
    rw [first] at keeps
    cases result with
    | error e => cases keeps
    | ok => exact ⟨s', rfl, keeps⟩

theorem exists_roundsUpTo (course : Course ctx outset final)
    (made : ∀ r ∈ ctx.grammar.rules, ∀ p ∈ r.productions, ∀ pending types,
      ∃ q, typedProduction ctx pending r p (Expr.allLaidOpen p.items) types = .ok q)
    (reached : typesAfter ctx outset ctx.grammar.rules.length = final) {rounds steps : Nat} {s : Progress}
    (enough : ctx.grammar.rules.length = steps + rounds) (untyped : s.types = []) (unruled : s.typedRules = [])
    (guesses : ∀ name, ctx.grammar.Recursive name →
      Within false (some (typesAfter ctx outset steps name)) (some (final name)) (s.guess name)) :
    ∃ rules s', (roundsUpTo ctx rounds).run.run s = (.ok rules, s') := by
  have bounds : ∀ steps, Bounds ctx false (typesAfter ctx outset steps) final := fun steps =>
    ⟨course.solves, (typesAfter_rise course steps).rises, fun _ => firm_typesAfter course steps, fun _ => made⟩
  induction rounds generalizing s steps with
  | zero =>
    obtain ⟨s₁, first, kept, recursive, within⟩ := exists_round (bounds steps) untyped unruled guesses
    -- The rounds have got to the solution, and the last one stays there.
    have settled : ctx.grammar.rules.length = steps := enough
    rw [settled] at reached
    have right : wrongAssumptions s₁ = [] := by
      refine wrongAssumptions_eq_nil fun name listed => ?_
      have guessed : s₁.guess name = final name := by
        have within := guesses name (recursive name listed)
        rw [Progress.guess, kept]
        exact (within.below _ rfl).antisymm (within.above _ (by rw [reached]))
      have rises := ((bounds steps).rises name).trans ((within name).above _ rfl)
      rw [reached] at rises
      rw [guessed]
      exact rises.antisymm ((within name).below _ rfl)
    exact ⟨_, _, roundsUpTo_done first right⟩
  | succ rounds ih =>
    obtain ⟨s₁, first, kept, recursive, within⟩ := exists_round (bounds steps) untyped unruled guesses
    by_cases right : wrongAssumptions s₁ = []
    · exact ⟨_, _, roundsUpTo_done first right⟩
    · rw [roundsUpTo_again first right]
      refine ih (show ctx.grammar.rules.length = steps + 1 + rounds by omega) rfl rfl fun name _ => ?_
      rw [guess_outcomes]
      exact within name

end

section

variable {g h : Grammar} {actions : List (String × Action)} {rules rules' : List (String × TypedRule)}

theorem fits_of_solves {types : String → ValueType} (accepted : typedRules g actions = .ok rules)
    (solves : Solves ⟨g, actions⟩ types) (name : String) : Fits true (assigned rules name) (types name) := by
  have run : ((roundsUpTo ⟨g, actions⟩ g.rules.length).run.run {}).1 = .ok rules := accepted
  exact roundsUpTo_fits solves rfl rfl (fun _ => unknown_fits _) (Prod.ext run rfl) name

theorem Complete.made {ctx' : Context} {ctx : Context} (complete : Complete ctx rules)
    (same : ctx'.actions = ctx.actions)
    {r : Rule} (listed : r ∈ ctx.grammar.rules) {p : Production} (member : p ∈ r.productions) (pending : List String)
    (types : List ValueType) : ∃ q, typedProduction ctx' pending r p (Expr.allLaidOpen p.items) types = .ok q := by
  obtain ⟨typed, here⟩ := complete.known r listed
  obtain ⟨r', found, checked⟩ := complete.checked here
  cases (Grammar.rule?_of_mem listed).symm.trans found
  obtain ⟨q, _, pending', types', _, made⟩ := exists_of_forall₂ checked.productions.flip member
  exact ⟨_, typedProduction_again same made⟩

namespace Reordered

theorem firm {final : String → ValueType} (reordered : Reordered g h)
    (firm : FirmRules ⟨g, actions⟩ (settledTypes g final) final) :
    FirmRules ⟨h, actions⟩ (settledTypes h final) final := by
  intro r listed p member item inside
  have here := firm r (reordered.rules.mem_iff.mp listed) p member item inside
  have same : settledTypes h final = settledTypes g final := by
    unfold settledTypes
    rw [Grammar.settled_of_perm reordered.rules]
  rwa [same, reordered.typeWith, reordered.typeWith, reordered.terminal]

theorem assigned (reordered : Reordered g h) (accepted : typedRules g actions = .ok rules)
    (accepted' : typedRules h actions = .ok rules') : assigned rules' = Typing.assigned rules := by
  have solves := (complete_of_typedRules accepted).solves
  have solves' := (complete_of_typedRules accepted').solves
  funext name
  exact (fits_of_solves accepted' (reordered.solves solves) name).antisymm
    (fits_of_solves accepted (reordered.symm.solves solves') name)

theorem typedProduction_eq {r : Rule} {p : Production} {q q' : TypedProduction} {pending pending' : List String}
    {types : List ValueType} (made : typedProduction ⟨g, actions⟩ pending r p (Expr.allLaidOpen p.items) types = .ok q)
    (made' : typedProduction ⟨h, actions⟩ pending' r p (Expr.allLaidOpen p.items) types = .ok q') : q' = q := by
  have again : typedProduction ⟨h, actions⟩ pending' r p (Expr.allLaidOpen p.items) types =
    .ok { q with type := productionType r p types } := typedProduction_again rfl made
  rw [made', Except.ok.injEq, ← type_of_typedProduction made] at again
  exact again

theorem typedRule_eq {r : Rule} {typed typed' : TypedRule} (reordered : Reordered g h)
    (accepted : typedRules g actions = .ok rules) (accepted' : typedRules h actions = .ok rules')
    (checked : Checked ⟨g, actions⟩ rules r typed)
    (checked' : Checked ⟨h, actions⟩ rules' r typed') : typed' = typed := by
  have complete := complete_of_typedRules accepted
  have complete' := complete_of_typedRules accepted'
  have references : typeOf? h rules' = typeOf? g rules := by
    rw [typeOf?_eq complete', typeOf?_eq complete, reordered.assigned accepted accepted', reordered.typeWith]
  have type : typed'.type = typed.type := by
    have here := ruleIn_of_checked complete checked
    have here' := ruleIn_of_checked complete' checked'
    rw [reordered.assigned accepted accepted', reordered.ruleIn, here, Option.some.injEq] at here'
    exact here'.symm
  have productions : List.Forall₂ Eq typed'.productions typed.productions := by
    refine forall₂_across checked'.productions.flip checked.productions.flip fun p q' q here' here => ?_
    obtain ⟨pending', types', read', made'⟩ := here'
    obtain ⟨pending, types, read, made⟩ := here
    rw [references, reordered.terminal] at read'
    cases read.symm.trans read'
    exact typedProduction_eq made made'
  rw [List.forall₂_eq_eq_eq] at productions
  cases typed
  cases typed'
  rw [TypedRule.mk.injEq]
  exact ⟨checked'.name.trans checked.name.symm, type, productions, checked'.errorName.trans checked.errorName.symm⟩

theorem lookup_eq (reordered : Reordered g h) (accepted : typedRules g actions = .ok rules)
    (accepted' : typedRules h actions = .ok rules') (name : String) : rules'.lookup name = rules.lookup name := by
  have complete := complete_of_typedRules accepted
  have complete' := complete_of_typedRules accepted'
  have same := Grammar.rule?_of_perm reordered.rules name
  cases here : rules.lookup name with
  | some typed =>
    obtain ⟨r, found, checked⟩ := complete.checked here
    obtain ⟨typed', here'⟩ := complete'.known r (Grammar.mem_of_rule? (same.trans found))
    rw [Grammar.name_of_rule? found] at here'
    obtain ⟨r', found', checked'⟩ := complete'.checked here'
    cases (same.trans found).symm.trans found'
    rw [here', reordered.typedRule_eq accepted accepted' checked checked']
  | none =>
    cases here' : rules'.lookup name with
    | none => rfl
    | some typed' =>
      obtain ⟨r, found', _⟩ := complete'.checked here'
      obtain ⟨typed, known⟩ := complete.known r (Grammar.mem_of_rule? (same.symm.trans found'))
      rw [Grammar.name_of_rule? found', here] at known
      cases known

theorem exists_typedRules (reordered : Reordered g h) (accepted : typedRules g actions = .ok rules)
    (firm : FirmRules ⟨g, actions⟩ (settledTypes g (Typing.assigned rules)) (Typing.assigned rules)) :
    ∃ rules', typedRules h actions = .ok rules' := by
  have complete := complete_of_typedRules accepted
  have solves := reordered.solves complete.solves
  have course : Course ⟨h, actions⟩ (settledTypes h (Typing.assigned rules)) (Typing.assigned rules) :=
    ⟨solves, reordered.firm firm, settledTypes_rises solves, settledTypes_fits h _⟩
  have reached := typesAfter_eq course fun types other => fits_of_solves accepted (reordered.symm.solves other)
  have made : ∀ r ∈ h.rules, ∀ p ∈ r.productions, ∀ pending types,
      ∃ q, typedProduction ⟨h, actions⟩ pending r p (Expr.allLaidOpen p.items) types = .ok q :=
    fun r listed p member => complete.made rfl (reordered.rules.mem_iff.mp listed) member
  have guesses : ∀ name, h.Recursive name →
      Within false (some (settledTypes h (Typing.assigned rules) name)) (some (Typing.assigned rules name))
        (Progress.guess {} name) := by
    intro name recursive
    refine ⟨fun _ same => ?_, fun _ _ => unknown_fits _⟩
    rw [← Option.some.inj same, settledTypes_of_recursive recursive]
    exact unknown_fits _
  obtain ⟨rules', s', run⟩ := exists_roundsUpTo course made reached (Nat.zero_add _).symm rfl rfl guesses
  exact ⟨rules', congrArg Prod.fst run⟩

end Reordered

/-- A grammar that can be typed, where whatever may be missing or is repeated has no value only if that is known of it
without assuming anything. -/
def FirmlyTyped (g : Grammar) (actions : List (String × Action)) : Prop :=
  ∃ rules, typedRules g actions = .ok rules ∧ FirmRules ⟨g, actions⟩ (settledTypes g (assigned rules)) (assigned rules)

/-- The order of the rules has no part in what type inference comes to. It has none either in whether it comes to anything,
where nothing that may be missing or is repeated turns out to have no value after something has been assumed for it. -/
theorem typedRules_reordered (reordered : Reordered g h) :
    (∀ rules rules', typedRules g actions = .ok rules → typedRules h actions = .ok rules' →
      ∀ name, rules'.lookup name = rules.lookup name) ∧ (FirmlyTyped g actions ↔ FirmlyTyped h actions) := by
  have turn : ∀ {g h : Grammar}, Reordered g h → FirmlyTyped g actions → FirmlyTyped h actions := by
    rintro g h reordered ⟨rules, accepted, firm⟩
    obtain ⟨rules', accepted'⟩ := reordered.exists_typedRules accepted firm
    refine ⟨rules', accepted', ?_⟩
    rw [reordered.assigned accepted accepted']
    exact reordered.firm firm
  refine ⟨fun rules rules' accepted accepted' name => ?_, turn reordered, turn reordered.symm⟩
  exact reordered.lookup_eq accepted accepted' name

end

def parens : Grammar where
  rules :=
    [⟨"Expr", [⟨[.literal "(", .reference "Paren", .literal ")"], none⟩, ⟨[.reference "Digit"], none⟩], none,
      true, none, ""⟩,
      ⟨"Paren", [⟨[.reference "Expr", .optional (.literal ",")], none⟩], none, true, none, ""⟩,
      ⟨"Digit", [⟨[.literal "0"], none⟩], none, true, none, ""⟩]
  tokens := []
  states := []
  name := "parens"
  distinctRules := by decide
  distinctTokens := Grammar.distinctTokens_nil
  disjoint := by decide
  distinctInStates := Grammar.distinctInStates_nil

def digitFirst : Grammar where
  rules := parens.rules.reverse
  tokens := []
  states := []
  name := "parens"
  distinctRules := by decide
  distinctTokens := Grammar.distinctTokens_nil
  disjoint := by decide
  distinctInStates := Grammar.distinctInStates_nil

theorem parens_firmlyTyped : FirmlyTyped parens [] := by
  refine ⟨_, rfl, fun r listed p member item inside typed => ?_⟩
  have only : ∀ r ∈ parens.rules, ∀ p ∈ r.productions, ∀ item ∈ Expr.allWrapped p.items, item = .literal "," := by
    simp [parens, Expr.allWrapped, Expr.wrapped]
  rw [only r listed p member item inside] at typed
  cases typed

theorem digitFirst_firmlyTyped : Reordered parens digitFirst ∧ FirmlyTyped digitFirst [] :=
  have reordered : Reordered parens digitFirst := ⟨List.reverse_perm _, rfl⟩
  ⟨reordered, (typedRules_reordered reordered).2.mp parens_firmlyTyped⟩

def voidFirst : Grammar where
  rules :=
    [⟨"V", [⟨[.ahead (.literal "y")], none⟩, ⟨[.reference "W"], none⟩], none, true, none, ""⟩,
      ⟨"W", [⟨[.optional (.reference "V")], none⟩], none, true, none, ""⟩]
  tokens := []
  states := []
  name := "void"
  distinctRules := by decide
  distinctTokens := Grammar.distinctTokens_nil
  disjoint := by decide
  distinctInStates := Grammar.distinctInStates_nil

def voidLast : Grammar where
  rules := voidFirst.rules.reverse
  tokens := []
  states := []
  name := "void"
  distinctRules := by decide
  distinctTokens := Grammar.distinctTokens_nil
  disjoint := by decide
  distinctInStates := Grammar.distinctInStates_nil

/-- Where the type of `V` is assumed to be unknown, `W` seems to have a value that may be missing, and the productions of
`V` do not agree. Where that of `W` is assumed, `V` has no value, and neither has `W`. -/
theorem voidFirst_refused : Reordered voidLast voidFirst ∧ (∃ rules, typedRules voidLast [] = .ok rules) ∧
    ∃ e, typedRules voidFirst [] = .error (.grammar e) ∧ e.kind = .typeMismatch :=
  ⟨⟨(List.reverse_perm _).symm, rfl⟩, ⟨_, rfl⟩, _, rfl, rfl⟩

end Typing

end Packrat
