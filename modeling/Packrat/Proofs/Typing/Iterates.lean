import Packrat.Proofs.Typing.Strands

namespace Packrat.Typing

open ValueType

/-- From the outset the types of rules rise to a solution, and it does not turn out on the way that something has no
value. -/
structure Course (ctx : Context) (outset final : String → ValueType) : Prop where
  solves : Solves ctx final
  firm : FirmRules ctx outset final
  rises : ∀ name, Fits false (outset name) (step ctx outset name)
  below : ∀ name, Fits false (outset name) (final name)

def typesAfter (ctx : Context) (outset : String → ValueType) : (steps : Nat) → String → ValueType
  | 0 => outset
  | steps + 1 => step ctx (typesAfter ctx outset steps)

/-- What is known about a rule at a place takes one more step than this. -/
def Late (ctx : Context) (outset : String → ValueType) (steps : Nat) (name : String) (place : List Nat) : Prop :=
  News (typesAfter ctx outset steps name) (typesAfter ctx outset (steps + 1) name) place

/-- Before so many steps something was found out about the other rule, at the end of a place in a rule around whose rest
the type of the other one stands. -/
def Inside (ctx : Context) (outset final : String → ValueType) (bound : Nat) (name : String) (place : List Nat)
    (other : String) : Prop :=
  ∃ outer inner steps x, steps < bound ∧ place = outer ++ inner ∧ Late ctx outset steps other inner ∧
    (final name).part outer = some x ∧ Fits false (final other) x

variable {ctx : Context} {outset final : String → ValueType} {steps bound : Nat} {name other : String}
    {place : List Nat}

theorem typesAfter_rise (course : Course ctx outset final) (steps : Nat) :
    Rise outset (typesAfter ctx outset steps) (typesAfter ctx outset (steps + 1)) final := by
  induction steps with
  | zero =>
    have still : Rise outset outset outset final := ⟨fun _ => .refl _, fun _ => .refl _, course.below⟩
    exact ⟨fun _ => .refl _, course.rises, fun name => (step_strand course.solves course.firm still name).second⟩
  | succ steps ih =>
    have strand := step_strand course.solves course.firm ih
    have starts : ∀ name, Fits false (outset name) (typesAfter ctx outset (steps + 1) name) :=
      fun name => (ih.starts name).trans (ih.rises name)
    exact ⟨starts, fun name => (strand name).first, fun name => (strand name).second⟩

theorem typesAfter_below (course : Course ctx outset final) (steps : Nat) :
    Rise outset (typesAfter ctx outset steps) (typesAfter ctx outset steps) final := by
  have rise := typesAfter_rise course steps
  exact ⟨rise.starts, fun _ => .refl _, fun name => (rise.rises name).trans (rise.below name)⟩

theorem typesAfter_mono (course : Course ctx outset final) {more : Nat} (order : steps ≤ more) :
    Fits false (typesAfter ctx outset steps name) (typesAfter ctx outset more name) := by
  induction order with
  | refl => exact .refl _
  | step _ ih => exact ih.trans ((typesAfter_rise course _).rises name)

namespace Late

theorem listed (late : Late ctx outset steps name place) : name ∈ ctx.grammar.ruleNames := by
  cases found : ctx.grammar.rule? name with
  | some r => exact Grammar.mem_ruleNames_of_rule? found
  | none =>
    have known := late.1
    rw [typesAfter, step, found] at known
    exact absurd known not_known_unknown

theorem not_before (course : Course ctx outset final) (late : Late ctx outset steps name place)
    {less : Nat} (earlier : less < steps) : ¬ Late ctx outset less name place :=
  fun late' => late.2 (late'.1.mono (typesAfter_mono course earlier))

theorem inside (late : Late ctx outset steps name place) : Inside ctx outset final (steps + 1) name place name :=
  ⟨[], place, steps, final name, Nat.lt_succ_self _, rfl, late, rfl, .refl _⟩

theorem not_inside (course : Course ctx outset final) (late : Late ctx outset steps name place) :
    ¬ Inside ctx outset final steps name place name := by
  rintro ⟨outer, inner, less, x, earlier, rfl, late', here, fits⟩
  cases outer with
  | nil => exact late.not_before course earlier late'
  | cons i outer => exact not_fits_part here fits

end Late

theorem Inside.mono (inside : Inside ctx outset final steps name place other) (more : steps ≤ bound) :
    Inside ctx outset final bound name place other := by
  obtain ⟨outer, inner, less, x, earlier, rest⟩ := inside
  exact ⟨outer, inner, less, x, Nat.lt_of_lt_of_le earlier more, rest⟩

theorem Inside.outward {around : String} {outer : List Nat} {x : ValueType}
    (inside : Inside ctx outset final steps name place other) (here : (final around).part outer = some x)
    (fits : Fits false (final name) x) :
    Inside ctx outset final steps around (outer ++ place) other := by
  obtain ⟨outer', inner, less, y, earlier, rfl, late, there, below⟩ := inside
  obtain ⟨z, there, fits⟩ := part_fits fits there
  refine ⟨outer ++ outer', inner, less, z, earlier, (List.append_assoc _ _ _).symm, late, ?_, below.trans fits⟩
  rw [part_append, here, Option.bind_some, there]

theorem exists_chain (course : Course ctx outset final) (late : Late ctx outset steps name place) :
    ∃ chain : List String, chain.length = steps + 1 ∧ chain.Nodup ∧ chain ⊆ ctx.grammar.ruleNames ∧
      ∀ other ∈ chain, Inside ctx outset final (steps + 1) name place other := by
  -- What is found out late about a rule is news about another one a step before.
  induction steps generalizing name place with
  | zero =>
    have listed : [name] ⊆ ctx.grammar.ruleNames := List.cons_subset.mpr ⟨late.listed, List.nil_subset _⟩
    refine ⟨[name], rfl, List.nodup_singleton name, listed, fun other listed => ?_⟩
    rw [List.mem_singleton.mp listed]
    exact late.inside
  | succ steps ih =>
    have strand := step_strand course.solves course.firm (typesAfter_rise course steps) name
    obtain ⟨earlier, outer, inner, x, _, rfl, news, here, fits⟩ := strand.traced place late
    obtain ⟨chain, long, distinct, listed, each⟩ := ih (show Late ctx outset steps earlier inner from news)
    have each : ∀ other ∈ chain, Inside ctx outset final (steps + 1) name (outer ++ inner) other :=
      fun other member => (each other member).outward here fits
    refine ⟨name :: chain, by rw [List.length_cons, long], ?_, List.cons_subset.mpr ⟨late.listed, listed⟩, ?_⟩
    · exact List.nodup_cons.mpr ⟨fun member => late.not_inside course (each name member), distinct⟩
    · exact List.forall_mem_cons.mpr ⟨late.inside, fun other member => (each other member).mono (Nat.le_succ _)⟩

theorem typesAfter_stable (course : Course ctx outset final) (name : String) :
    typesAfter ctx outset (ctx.grammar.rules.length + 1) name =
      typesAfter ctx outset ctx.grammar.rules.length name := by
  refine (eq_of_known ((typesAfter_rise course _).rises name) fun place known => ?_).symm
  by_contra unknown
  obtain ⟨chain, long, distinct, listed, _⟩ :=
    exists_chain course (show Late ctx outset _ name place from ⟨known, unknown⟩)
  -- A chain of more steps than there are rules would list some rule twice.
  have few := distinct.length_le_of_subset listed
  have same := Grammar.length_ruleNames ctx.grammar
  omega

theorem solves_typesAfter (course : Course ctx outset final) :
    Solves ctx (typesAfter ctx outset ctx.grammar.rules.length) := by
  intro r listed
  obtain ⟨a, _, here, _⟩ := ruleIn_strand course.solves course.firm (typesAfter_below course _) listed
  have stable := typesAfter_stable course r.name
  rw [typesAfter, step_of_rule? (Grammar.rule?_of_mem listed), here] at stable
  rw [here, ← stable]
  rfl

theorem typesAfter_eq (course : Course ctx outset final)
    (least : ∀ types, Solves ctx types → ∀ name, Fits true (final name) (types name)) :
    typesAfter ctx outset ctx.grammar.rules.length = final := by
  funext name
  exact ((typesAfter_below course _).below name).loosen.antisymm (least _ (solves_typesAfter course) name)

end Packrat.Typing
