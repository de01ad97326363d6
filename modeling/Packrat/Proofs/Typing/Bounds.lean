import Packrat.Proofs.Typing.Solutions

namespace Packrat

open ValueType Relation

namespace Expr

mutual
/-- What may be missing or is repeated inside an expression, however deep. -/
def wrapped : Expr → List Expr
  | .literal _ | .oneOf _ | .reference _ | .unknown _ => []
  | .sequence items | .choice items => allWrapped items
  | .optional item | .repetition _ item => item :: wrapped item
  | .bind _ item | .ahead item | .notAhead item => wrapped item

def allWrapped : List Expr → List Expr
  | [] => []
  | e :: es => wrapped e ++ allWrapped es
end

theorem allWrapped_append (first second : List Expr) :
    allWrapped (first ++ second) = allWrapped first ++ allWrapped second := by
  induction first with
  | nil => rfl
  | cons e es ih => rw [List.cons_append, allWrapped, allWrapped, ih, List.append_assoc]

mutual
theorem allWrapped_laidOpen : ∀ e : Expr, allWrapped (laidOpen e) = wrapped e
  | .sequence items => by
    simp only [laidOpen, wrapped]
    exact allWrapped_allLaidOpen items
  | .literal _ | .oneOf _ | .reference _ | .choice _ | .optional _ | .repetition _ _ | .bind _ _
  | .ahead _ | .notAhead _ | .unknown _ => by
    simp [laidOpen, allWrapped]

theorem allWrapped_allLaidOpen : ∀ es : List Expr, allWrapped (allLaidOpen es) = allWrapped es
  | [] => rfl
  | e :: es => by
    rw [allLaidOpen, allWrapped_append, allWrapped_laidOpen e, allWrapped_allLaidOpen es, allWrapped]
end

mutual
theorem wrapped_subset : ∀ {e item : Expr}, item ∈ e.wrapped → item.wrapped ⊆ e.wrapped
  | .sequence items, _, inside | .choice items, _, inside => allWrapped_subset (show _ ∈ allWrapped items from inside)
  | .optional item, _, inside | .repetition _ item, _, inside => by
    rcases List.mem_cons.mp inside with rfl | inside
    · exact List.subset_cons_self _ _
    · exact List.subset_cons_of_subset _ (wrapped_subset (e := item) inside)
  | .bind _ item, _, inside | .ahead item, _, inside | .notAhead item, _, inside => wrapped_subset (e := item) inside

theorem allWrapped_subset : ∀ {es : List Expr} {item : Expr}, item ∈ allWrapped es → item.wrapped ⊆ allWrapped es
  | e :: es, _, inside => by
    rcases List.mem_append.mp inside with here | later
    · exact List.subset_append_of_subset_left _ (wrapped_subset here)
    · exact List.subset_append_of_subset_right _ (allWrapped_subset later)
end

end Expr

namespace Grammar

/-- A rule refers to another one that is not declared to have a type. -/
def Mentions (g : Grammar) (name other : String) : Prop :=
  ∃ r, g.rule? name = some r ∧ (∃ p ∈ r.productions, other ∈ Expr.allReferences p.items) ∧
    ∃ r', g.rule? other = some r' ∧ r'.type = none

def Recursive (g : Grammar) (name : String) : Prop := Relation.TransGen g.Mentions name name

end Grammar

namespace Typing

def step (ctx : Context) (types : String → ValueType) (name : String) : ValueType :=
  ((ctx.grammar.rule? name).bind (ruleIn ctx types)).getD .unknown

/-- The type says all that the one below does and no more than the one above, where there are such. -/
structure Within (lenient : Bool) (low high : Option ValueType) (t : ValueType) : Prop where
  above : ∀ a, low = some a → Fits lenient a t
  below : ∀ c, high = some c → Fits lenient t c

structure AllWithin (lenient : Bool) (low high : Option (List ValueType)) (ts : List ValueType) : Prop where
  above : ∀ as, low = some as → List.Forall₂ (Fits lenient) as ts
  below : ∀ cs, high = some cs → List.Forall₂ (Fits lenient) ts cs

abbrev OfExpr (ctx : Context) (lenient : Bool) (low high : String → ValueType) (e : Expr) : ValueType → Prop :=
  Within lenient (e.typeIn (typeWith ctx.grammar low) ctx.terminal) (e.typeIn (typeWith ctx.grammar high) ctx.terminal)

abbrev OfExprs (ctx : Context) (lenient : Bool) (low high : String → ValueType) (es : List Expr) :
    List ValueType → Prop :=
  AllWithin lenient (Expr.typesIn (typeWith ctx.grammar low) ctx.terminal es)
    (Expr.typesIn (typeWith ctx.grammar high) ctx.terminal es)

/-- Each of these expressions has no value from the outset, if it has none in the end. -/
def Firm (ctx : Context) (low high : String → ValueType) (items : List Expr) : Prop :=
  ∀ item ∈ items, item.typeIn (typeWith ctx.grammar high) ctx.terminal = some .unit →
    item.typeIn (typeWith ctx.grammar low) ctx.terminal = some .unit

def FirmRules (ctx : Context) (low high : String → ValueType) : Prop :=
  ∀ r ∈ ctx.grammar.rules, ∀ p ∈ r.productions, Firm ctx low high (Expr.allWrapped p.items)

structure Bounds (ctx : Context) (lenient : Bool) (low high : String → ValueType) : Prop where
  solves : Solves ctx high
  rises : ∀ name, Fits lenient (low name) (step ctx low name)
  firm : lenient = false → FirmRules ctx low high
  made : lenient = false → ∀ r ∈ ctx.grammar.rules, ∀ p ∈ r.productions, ∀ pending types,
    ∃ q, typedProduction ctx pending r p (Expr.allLaidOpen p.items) types = .ok q

namespace Progress

def guess (s : Progress) (name : String) : ValueType := (s.assumptions.lookup name).getD .unknown

structure Bounded (ctx : Context) (lenient : Bool) (low high : String → ValueType) (s : Progress) : Prop where
  types : ∀ x ∈ s.types, OfExpr ctx lenient low high x.1 x.2
  typed : ∀ x ∈ s.typedRules, Within lenient (some (step ctx low x.1)) (some (high x.1)) x.2.type
  guesses : ∀ name, ctx.grammar.Recursive name → Within lenient (some (low name)) (some (high name)) (s.guess name)
  assumed : ∀ name ∈ s.assumed, ctx.grammar.Recursive name

end Progress

/-- Work that keeps something about the progress and comes to what has `Q`, or else refuses, where that may be. -/
def Infer.Keeps {α : Type} (I : Progress → Prop) (E : Prop) (Q : α → Prop) (work : Infer α) : Prop :=
  ∀ s, I s → match work.run.run s with
    | (.ok a, s') => I s' ∧ Q a
    | (.error _, _) => E

namespace Infer.Keeps

variable {α β : Type} {I : Progress → Prop} {E : Prop} {Q : α → Prop} {P : β → Prop}

theorem pure {a : α} (holds : Q a) : Keeps I E Q (Pure.pure a) := fun _ here => ⟨here, holds⟩

theorem lift {result : Except Refusal α} (yields : Yields (fun _ => E) Q result) :
    Keeps I E Q (liftM result : Infer α) := by
  intro s here
  cases result with
  | ok a => exact ⟨here, yields⟩
  | error e => exact yields

theorem bind {work : Infer α} {next : α → Infer β} (first : Keeps I E Q work)
    (second : ∀ a, Q a → Keeps I E P (next a)) : Keeps I E P (work >>= next) := by
  intro s here
  have done := first s here
  rw [run_bind_eq]
  cases run : work.run.run s with
  | mk result s₁ =>
    rw [run] at done
    cases result with
    | ok a => exact second a done.2 s₁ done.1
    | error e => exact done

theorem read {next : Progress → Infer β} (each : ∀ s, I s → Keeps I E P (next s)) :
    Keeps I E P ((get : Infer Progress) >>= next) := fun s here => each s here s here

theorem change {f : Progress → Progress} (kept : ∀ s, I s → I (f s)) :
    Keeps I E (fun _ => True) (modify f : Infer Unit) := fun s here => ⟨kept s here, trivial⟩

theorem mapM {R : α → β → Prop} {work : α → Infer β} {xs : List α} (each : ∀ x ∈ xs, Keeps I E (R x) (work x)) :
    Keeps I E (fun ys => List.Forall₂ R xs ys) (xs.mapM work) := by
  induction xs with
  | nil => exact pure .nil
  | cons x xs ih =>
    rw [List.mapM_cons]
    refine (each x List.mem_cons_self).bind fun y here => ?_
    refine (ih fun z listed => each z (List.mem_cons_of_mem _ listed)).bind fun ys all => ?_
    exact pure (.cons here all)

theorem forM {work : α → Infer Unit} {xs : List α} (each : ∀ x ∈ xs, Keeps I E (fun _ => True) (work x)) :
    Keeps I E (fun _ => True) (xs.forM work) := by
  induction xs with
  | nil => exact pure trivial
  | cons x xs ih =>
    refine (each x List.mem_cons_self).bind fun _ _ => ?_
    exact ih fun z listed => each z (List.mem_cons_of_mem _ listed)

end Infer.Keeps

def Refers (ctx : Context) (lenient : Bool) (low high : String → ValueType) (names : List String)
    (typeOfName : String → Infer ValueType) : Prop :=
  ∀ {name c}, name ∈ names → typeWith ctx.grammar high name = some c →
    (typeOfName name).Keeps (Progress.Bounded ctx lenient low high) (lenient = true)
      (Within lenient (typeWith ctx.grammar low name) (typeWith ctx.grammar high name))

section Expressions

variable {ctx : Context} {lenient : Bool} {low high : String → ValueType}

theorem Firm.mono {items fewer : List Expr} (firm : Firm ctx low high items) (subset : fewer ⊆ items) :
    Firm ctx low high fewer := fun item listed => firm item (subset listed)

theorem Within.exactly (t : ValueType) : Within lenient (some t) (some t) t :=
  ⟨fun _ same => (Option.some.inj same) ▸ .refl t, fun _ same => (Option.some.inj same) ▸ .refl t⟩

theorem Within.const {low high : Option ValueType} (t : ValueType) :
    Within lenient (low.map fun _ => t) (high.map fun _ => t) t := by
  constructor
  · intro a here
    obtain ⟨_, _, rfl⟩ := Option.map_eq_some_iff.mp here
    exact .refl _
  · intro c here
    obtain ⟨_, _, rfl⟩ := Option.map_eq_some_iff.mp here
    exact .refl _

theorem AllWithin.map {low high : Option (List ValueType)} {ts : List ValueType} {f : List ValueType → ValueType}
    (mono : ∀ {as bs}, List.Forall₂ (Fits lenient) as bs → Fits lenient (f as) (f bs))
    (within : AllWithin lenient low high ts) : Within lenient (low.map f) (high.map f) (f ts) := by
  constructor
  · intro a here
    obtain ⟨as, first, rfl⟩ := Option.map_eq_some_iff.mp here
    exact mono (within.above as first)
  · intro c here
    obtain ⟨cs, last, rfl⟩ := Option.map_eq_some_iff.mp here
    exact mono (within.below cs last)

theorem AllWithin.common {low high : Option (List ValueType)} {ts : List ValueType} {t : ValueType}
    (within : AllWithin lenient low high ts) (agreed : common? ts = some t) :
    Within lenient (low.bind common?) (high.bind common?) t := by
  constructor
  · intro a here
    obtain ⟨as, first, agreed'⟩ := Option.bind_eq_some_iff.mp here
    exact common?_mono (within.above as first) agreed' agreed
  · intro c here
    obtain ⟨cs, last, agreed'⟩ := Option.bind_eq_some_iff.mp here
    exact common?_mono (within.below cs last) agreed agreed'

theorem Within.wrap {low : Option ValueType} {c t : ValueType} {wrap : ValueType → ValueType}
    (mono : ∀ {a b}, Fits lenient a b → (lenient = false → b = .unit → a = .unit) → Fits lenient (wrap a) (wrap b))
    (within : Within lenient low (some c) t) (firm : lenient = false → c = .unit → low = some .unit) :
    Within lenient (low.map wrap) ((some c).map wrap) (wrap t) := by
  have below := within.below c rfl
  constructor
  · intro w here
    obtain ⟨a, first, rfl⟩ := Option.map_eq_some_iff.mp here
    refine mono (within.above a first) fun strict nothing => ?_
    have void := firm strict (unit_fits (nothing ▸ below))
    exact Option.some.inj (first.symm.trans void)
  · intro w here
    cases here
    exact mono below fun strict nothing => unit_fits (within.above .unit (firm strict nothing))

theorem yields_of_exists {ε α : Type} {result : Except ε α} (found : lenient = false → ∃ a, result = .ok a) :
    Yields (fun _ => lenient = true) (fun a => result = .ok a) result := by
  cases result with
  | ok a => rfl
  | error e =>
    cases lenient with
    | true => rfl
    | false =>
      obtain ⟨a, same⟩ := found rfl
      cases same

theorem AllWithin.choiceType {alternatives : List Expr} {cs ts : List ValueType} {c : ValueType} {whole : Expr}
    {pending : List String} (within : OfExprs ctx lenient low high alternatives ts)
    (typed : Expr.typesIn (typeWith ctx.grammar high) ctx.terminal alternatives = some cs)
    (common : common? cs = some c) :
    Yields (fun _ => lenient = true) (fun t => common? ts = some t)
      (choiceType whole pending (alternatives.zip ts)) := by
  have fit := within.below cs typed
  have same : alternatives.length = ts.length := (length_of_typesIn typed).trans fit.length_eq.symm
  refine (yields_of_exists fun strict => ?_).weaken fun t => (choiceType_eq_ok same).mp
  obtain ⟨t, agreed⟩ := exists_common? (strict ▸ fit) common
  exact ⟨t, (choiceType_eq_ok same).mpr agreed⟩

theorem remember_keeps {e : Expr} {work : Infer ValueType} {E : Prop}
    (keeps : work.Keeps (Progress.Bounded ctx lenient low high) E (OfExpr ctx lenient low high e)) :
    (remember e work).Keeps (Progress.Bounded ctx lenient low high) E (OfExpr ctx lenient low high e) := by
  unfold remember
  refine .read fun s bounded => ?_
  split
  · next known t found =>
    have alike : known.same e = true := by simpa using List.find?_some found
    have within := bounded.types _ (List.mem_of_find?_eq_some found)
    simp only [OfExpr, Expr.typeIn_of_same alike] at within
    exact .pure within
  · refine keeps.bind fun t within => (Infer.Keeps.change fun s bounded => ?_).bind fun _ _ => .pure within
    exact ⟨List.forall_mem_cons.mpr ⟨within, bounded.types⟩, bounded.typed, bounded.guesses, bounded.assumed⟩

variable {pending names : List String} {typeOfName : String → Infer ValueType}

mutual
theorem typeOf_keeps (references : Refers ctx lenient low high names typeOfName) :
    ∀ (e : Expr) {c : ValueType}, e.references ⊆ names → e.typeIn (typeWith ctx.grammar high) ctx.terminal = some c →
      (lenient = false → Firm ctx low high e.wrapped) →
      (typeOf ctx.terminal typeOfName pending e).Keeps (Progress.Bounded ctx lenient low high) (lenient = true)
        (OfExpr ctx lenient low high e)
  | .literal _, _, _, _, _ | .oneOf _, _, _, _, _ => by
    rw [typeOf]
    exact remember_keeps (.pure (.exactly _))
  | .reference name, _, within, typed, _ => by
    rw [typeOf]
    exact remember_keeps (references (within List.mem_cons_self) typed)
  | .bind _ item, _, mentioned, typed, firm => by
    rw [typeOf]
    refine remember_keeps ?_
    simp only [OfExpr, Expr.typeIn] at typed ⊢
    exact typeOf_keeps references item mentioned typed firm
  | .sequence items, _, mentioned, typed, firm => by
    rw [typeOf]
    simp only [Expr.typeIn, Option.map_eq_some_iff] at typed
    obtain ⟨cs, typed, _⟩ := typed
    have each := typesOf_keeps references items mentioned typed firm
    refine remember_keeps (each.bind fun ts within => .pure ?_)
    simp only [OfExpr, Expr.typeIn]
    exact within.map fun fit => gather_mono (forall₂_select fit _)
  | .choice alternatives, _, mentioned, typed, firm => by
    rw [typeOf]
    simp only [Expr.typeIn, Option.bind_eq_some_iff] at typed
    obtain ⟨cs, typed, common⟩ := typed
    have each := typesOf_keeps references alternatives mentioned typed firm
    refine remember_keeps (each.bind fun ts within => .lift ?_)
    simp only [OfExpr, Expr.typeIn]
    exact (within.choiceType typed common).weaken fun t agreed => within.common agreed
  | .optional item, _, mentioned, typed, firm => by
    rw [typeOf]
    simp only [Expr.typeIn, Option.map_eq_some_iff] at typed
    obtain ⟨c, typed, _⟩ := typed
    have inside := typeOf_keeps references item mentioned typed fun strict =>
      (firm strict).mono (List.subset_cons_self _ _)
    refine remember_keeps (inside.bind fun t within => .pure ?_)
    simp only [OfExpr, Expr.typeIn, typed] at within ⊢
    exact within.wrap optionOf_mono fun strict nothing => firm strict item List.mem_cons_self (nothing ▸ typed)
  | .repetition _ item, _, mentioned, typed, firm => by
    rw [typeOf]
    simp only [Expr.typeIn, Option.map_eq_some_iff] at typed
    obtain ⟨c, typed, _⟩ := typed
    have inside := typeOf_keeps references item mentioned typed fun strict =>
      (firm strict).mono (List.subset_cons_self _ _)
    refine remember_keeps (inside.bind fun t within => .pure ?_)
    simp only [OfExpr, Expr.typeIn, typed] at within ⊢
    exact within.wrap listOf_mono fun strict nothing => firm strict item List.mem_cons_self (nothing ▸ typed)
  | .ahead item, _, mentioned, typed, firm | .notAhead item, _, mentioned, typed, firm => by
    rw [typeOf]
    simp only [Expr.typeIn, Option.map_eq_some_iff] at typed
    obtain ⟨c, typed, _⟩ := typed
    have inside := typeOf_keeps references item mentioned typed firm
    refine remember_keeps (inside.bind fun t within => .pure ?_)
    simp only [OfExpr, Expr.typeIn]
    exact .const .unit
  | .unknown _, _, _, typed, _ => by cases typed

theorem typesOf_keeps (references : Refers ctx lenient low high names typeOfName) :
    ∀ (es : List Expr) {cs : List ValueType}, Expr.allReferences es ⊆ names →
      Expr.typesIn (typeWith ctx.grammar high) ctx.terminal es = some cs →
      (lenient = false → Firm ctx low high (Expr.allWrapped es)) →
      (typesOf ctx.terminal typeOfName pending es).Keeps (Progress.Bounded ctx lenient low high) (lenient = true)
        (OfExprs ctx lenient low high es)
  | [], _, _, _, _ => by
    rw [typesOf]
    refine .pure ⟨fun as same => ?_, fun cs same => ?_⟩
    · cases same
      exact .nil
    · cases same
      exact .nil
  | e :: es, _, mentioned, typed, firm => by
    rw [typesOf]
    simp only [Expr.typesIn, Option.bind_eq_bind, Option.bind_eq_some_iff] at typed
    obtain ⟨c, first, cs, rest, _⟩ := typed
    obtain ⟨mentioned, others⟩ := List.append_subset.mp mentioned
    have here := typeOf_keeps references e mentioned first fun strict =>
      (firm strict).mono (List.subset_append_left _ _)
    have later := typesOf_keeps references es others rest fun strict =>
      (firm strict).mono (List.subset_append_right _ _)
    refine here.bind fun t within => later.bind fun ts all => .pure ⟨fun as typed => ?_, fun cs typed => ?_⟩
    · simp only [Expr.typesIn, Option.bind_eq_bind, Option.bind_eq_some_iff] at typed
      obtain ⟨a, first, as, rest, same⟩ := typed
      cases same
      exact .cons (within.above a first) (all.above as rest)
    · simp only [Expr.typesIn, Option.bind_eq_bind, Option.bind_eq_some_iff] at typed
      obtain ⟨c, first, cs, rest, same⟩ := typed
      cases same
      exact .cons (within.below c first) (all.below cs rest)
end

end Expressions

section Rules

variable {ctx : Context} {lenient : Bool} {low high : String → ValueType} {pending : List String} {r : Rule}

theorem step_of_rule? {name : String} {types : String → ValueType} (found : ctx.grammar.rule? name = some r) :
    step ctx types name = (ruleIn ctx types r).getD .unknown := by
  rw [step, found]
  rfl

theorem typeProduction_keeps {typeOfName : String → Infer ValueType} {p : Production} {c : ValueType}
    (bounds : Bounds ctx lenient low high)
    (references : Refers ctx lenient low high (Expr.allReferences p.items) typeOfName)
    (listed : r ∈ ctx.grammar.rules) (member : p ∈ r.productions) (typed : productionIn ctx high r p = some c) :
    (typeProduction ctx typeOfName pending r p).Keeps (Progress.Bounded ctx lenient low high) (lenient = true)
      fun q => Within lenient (productionIn ctx low r p) (productionIn ctx high r p) q.type := by
  obtain ⟨cs, typed, _⟩ := Option.map_eq_some_iff.mp typed
  have firm : lenient = false → Firm ctx low high (Expr.allWrapped (Expr.allLaidOpen p.items)) := by
    rw [Expr.allWrapped_allLaidOpen]
    exact fun strict => bounds.firm strict r listed p member
  unfold typeProduction
  have mentioned : Expr.allReferences (Expr.allLaidOpen p.items) ⊆ Expr.allReferences p.items := by
    rw [Expr.allReferences_allLaidOpen]
    exact List.Subset.refl _
  refine (typesOf_keeps references _ mentioned typed firm).bind fun ts within => .lift ?_
  refine (yields_of_exists fun strict => bounds.made strict r listed p member pending ts).weaken fun q made => ?_
  rw [type_of_typedProduction made]
  exact within.map productionType_mono

theorem agreed_within {ts : List ValueType} {c : ValueType} (solved : ruleIn ctx high r = some c)
    (found : ctx.grammar.rule? r.name = some r)
    (within : List.Forall₂ (fun p t => Within lenient (productionIn ctx low r p) (productionIn ctx high r p) t)
      r.productions ts) :
    (lenient = false → ∃ t, agreed r ts = some t) ∧
      ∀ t, agreed r ts = some t → Within lenient (some (step ctx low r.name)) (some c) t := by
  obtain ⟨cs, known, common⟩ := ruleIn_eq_some.mp solved
  have fit : List.Forall₂ (Fits lenient) ts cs := forall₂_across within known fun _ _ _ here typed => here.below _ typed
  refine ⟨fun strict => exists_agreed (strict ▸ fit) common, fun t here => ⟨fun a same => ?_, fun b same => ?_⟩⟩
  · rw [step_of_rule? found, Option.some.injEq] at same
    subst same
    cases first : ruleIn ctx low r with
    | none => exact unknown_fits t
    | some a =>
      obtain ⟨as, known', common'⟩ := ruleIn_eq_some.mp first
      exact agreed_mono (forall₂_across known' within fun _ _ _ typed here => here.above _ typed) common' here
  · cases same
    exact agreed_mono fit here common

theorem typeRule_keeps {typeOfName : List String → String → Infer ValueType} (bounds : Bounds ctx lenient low high)
    (references : ∀ p ∈ r.productions,
      Refers ctx lenient low high (Expr.allReferences p.items) (typeOfName (r.name :: pending)))
    (listed : r ∈ ctx.grammar.rules) :
    (typeRule ctx typeOfName pending r).Keeps (Progress.Bounded ctx lenient low high) (lenient = true)
      fun typed => Within lenient (some (step ctx low r.name)) (some (high r.name)) typed.type := by
  have solved := bounds.solves r listed
  have each : ∀ p ∈ r.productions, (typeProduction ctx (typeOfName (r.name :: pending)) (r.name :: pending) r p).Keeps
      (Progress.Bounded ctx lenient low high) (lenient = true)
      fun q => Within lenient (productionIn ctx low r p) (productionIn ctx high r p) q.type := by
    intro p member
    obtain ⟨cs, known, _⟩ := ruleIn_eq_some.mp solved
    obtain ⟨c, _, typed⟩ := exists_of_forall₂ known member
    exact typeProduction_keeps bounds (references p member) listed member typed
  unfold typeRule
  refine .read fun s bounded => ?_
  split
  · next typed found => exact .pure (bounded.typed _ (mem_of_lookup found))
  · refine (Infer.Keeps.mapM each).bind fun qs within => ?_
    obtain ⟨exist, all⟩ := agreed_within solved (Grammar.rule?_of_mem listed) (List.forall₂_map_right_iff.mpr within)
    refine (Infer.Keeps.lift (yields_of_exists fun strict => ?_)).bind fun inferred common => ?_
    · obtain ⟨t, agreed⟩ := exist strict
      obtain ⟨inferred, common, _⟩ := agreed_eq_some.mp agreed
      exact ⟨inferred, common⟩
    refine (Infer.Keeps.lift (yields_of_exists fun strict => ?_)).bind fun t made => ?_
    · obtain ⟨t, agreed⟩ := exist strict
      obtain ⟨inferred', common', made⟩ := agreed_eq_some.mp agreed
      cases common.symm.trans common'
      exact ⟨t, made⟩
    have within := all t (agreed_eq_some.mpr ⟨inferred, common, made⟩)
    refine (Infer.Keeps.change fun s bounded => ?_).bind fun _ _ => .pure within
    refine ⟨bounded.types, fun x member => ?_, bounded.guesses, bounded.assumed⟩
    rcases List.mem_append.mp member with old | new
    · exact bounded.typed x old
    · rw [List.mem_singleton.mp new]
      exact within

theorem typeOfName_keeps {depth : Nat} {p : Production} (bounds : Bounds ctx lenient low high)
    (found : ctx.grammar.rule? r.name = some r) (member : p ∈ r.productions) (distinct : (r.name :: pending).Nodup)
    (leads : ∀ name ∈ r.name :: pending, name ∈ ctx.grammar.ruleNames ∧ ReflTransGen ctx.grammar.Mentions name r.name)
    (enough : ctx.grammar.rules.length + 1 ≤ depth + pending.length) :
    Refers ctx lenient low high (Expr.allReferences p.items) (Typing.typeOfName ctx depth (r.name :: pending)) := by
  -- The rules being typed are distinct rules of the grammar, so the depth cannot run out.
  induction depth generalizing r p pending with
  | zero =>
    have few := distinct.length_le_of_subset fun name inside => (leads name inside).1
    have same := Grammar.length_ruleNames ctx.grammar
    rw [List.length_cons] at few
    omega
  | succ depth ih =>
    intro name c mentioned known
    unfold Typing.typeOfName
    split
    · next q found' =>
      have same := Grammar.name_of_rule? found'
      subst same
      split
      · next type declared =>
        refine .pure ?_
        simp only [typeWith, found', declared]
        exact .exactly _
      · next undeclared =>
        have onward : ctx.grammar.Mentions r.name q.name := ⟨r, found, ⟨p, member, mentioned⟩, q, found', undeclared⟩
        simp only [typeWith, found', undeclared]
        split
        · next inside =>
          intro s bounded
          -- Its type is assumed, and it leads back to itself by way of this reference.
          have recursive : ctx.grammar.Recursive q.name := .tail' (leads q.name inside).2 onward
          refine ⟨⟨bounded.types, bounded.typed, bounded.guesses, ?_⟩, bounded.guesses q.name recursive⟩
          exact List.forall_mem_cons.mpr ⟨recursive, bounded.assumed⟩
        · next outside =>
          have leads' : ∀ name ∈ q.name :: r.name :: pending,
              name ∈ ctx.grammar.ruleNames ∧ ReflTransGen ctx.grammar.Mentions name q.name := by
            refine List.forall_mem_cons.mpr ⟨⟨Grammar.mem_ruleNames_of_rule? found', .refl⟩, fun name inside => ?_⟩
            exact ⟨(leads name inside).1, (leads name inside).2.tail onward⟩
          have references : ∀ p ∈ q.productions, Refers ctx lenient low high (Expr.allReferences p.items)
              (Typing.typeOfName ctx depth (q.name :: r.name :: pending)) := fun p member =>
            ih found' member (List.nodup_cons.mpr ⟨outside, distinct⟩) leads' (by rw [List.length_cons]; omega)
          refine (typeRule_keeps bounds references (Grammar.mem_of_rule? found')).bind fun typed within =>
            .pure ⟨fun a same => ?_, within.below⟩
          cases same
          exact (bounds.rises q.name).trans (within.above _ rfl)
    · next t absent here =>
      refine .pure ?_
      simp only [typeWith, absent, here]
      exact .exactly _
    · next absent unknown => simp [typeWith, absent, unknown] at known

theorem round_keeps {s : Progress} (bounds : Bounds ctx lenient low high) (untyped : s.types = [])
    (unruled : s.typedRules = [])
    (guesses : ∀ name, ctx.grammar.Recursive name →
      Within lenient (some (low name)) (some (high name)) (s.guess name)) :
    match (round ctx).run.run s with
    | (.ok _, s') => s'.assumptions = s.assumptions ∧ (∀ name ∈ s'.assumed, ctx.grammar.Recursive name) ∧
        ∀ name, Within lenient (some (step ctx low name)) (some (high name)) (assigned s'.typedRules name)
    | (.error _, _) => lenient = true := by
  have bounded : Progress.Bounded ctx lenient low high { s with assumed := [] } :=
    ⟨by simp [untyped], by simp [unruled], guesses, by simp⟩
  have each : ∀ r ∈ ctx.grammar.rules, (discard (typeRule ctx ctx.typeOfName [] r) : Infer Unit).Keeps
      (Progress.Bounded ctx lenient low high) (lenient = true) fun _ => True := by
    intro r listed
    have found := Grammar.rule?_of_mem listed
    have leads : ∀ name ∈ [r.name], name ∈ ctx.grammar.ruleNames ∧ ReflTransGen ctx.grammar.Mentions name r.name := by
      intro name here
      cases List.mem_singleton.mp here
      exact ⟨Grammar.mem_ruleNames_of_rule? found, .refl⟩
    have references : ∀ p ∈ r.productions,
        Refers ctx lenient low high (Expr.allReferences p.items) (ctx.typeOfName [r.name]) :=
      fun p member => typeOfName_keeps bounds found member (List.nodup_singleton _) leads (Nat.le_refl _)
    exact (typeRule_keeps bounds references listed).bind fun _ _ => .pure trivial
  have keeps := Infer.Keeps.forM each _ bounded
  cases run : (round ctx).run.run s with
  | mk result s' =>
    have run : (ctx.grammar.rules.forM fun r => discard (typeRule ctx ctx.typeOfName [] r) : Infer Unit).run.run
      { s with assumed := [] } = (result, s') := run
    rw [run] at keeps
    cases result with
    | error e => exact keeps
    | ok =>
      obtain ⟨onward, _, all⟩ := @eachRule_sees ctx [] _ _ _ (List.Subset.refl _) run
      refine ⟨onward.assumptions, keeps.1.assumed, fun name => ?_⟩
      cases here : s'.typedRules.lookup name with
      | some typed =>
        rw [assigned_of_lookup here]
        exact keeps.1.typed _ (mem_of_lookup here)
      | none =>
        -- Each rule of the grammar is typed by now, so this is the name of none.
        have absent : ctx.grammar.rule? name = none := by
          by_contra some
          obtain ⟨r, found⟩ := Option.ne_none_iff_exists'.mp some
          obtain ⟨typed, member⟩ := all r (Grammar.mem_of_rule? found)
          obtain ⟨_, here'⟩ := exists_lookup (List.mem_map_of_mem member)
          rw [Grammar.name_of_rule? found, here] at here'
          cases here'
        rw [assigned, here, step, absent]
        exact ⟨fun _ same => Option.some.inj same ▸ .refl _, fun _ _ => unknown_fits _⟩

end Rules

end Typing

end Packrat
