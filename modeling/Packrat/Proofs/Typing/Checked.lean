import Packrat.Proofs.Grammar
import Packrat.Proofs.Lists
import Packrat.Proofs.Reporting
import Packrat.Proofs.Typing.HasType
import Packrat.Typing.Inference

namespace Packrat

namespace Expr

section

variable (types : String → Option ValueType) (terminal : ValueType)

mutual
/-- The type of an expression, where names have these types. -/
def typeIn : Expr → Option ValueType
  | .literal _ | .oneOf _ => some terminal
  | .reference name => types name
  | .bind _ item => typeIn item
  | .sequence items => (typesIn items).map fun ts => .gather (select (contributing items) ts)
  | .choice alternatives => (typesIn alternatives).bind ValueType.common?
  | .optional item => (typeIn item).map .optionOf
  | .repetition _ item => (typeIn item).map .listOf
  | .ahead item | .notAhead item => (typeIn item).map fun _ => .unit
  | .unknown _ => none

def typesIn : List Expr → Option (List ValueType)
  | [] => some []
  | e :: es => do
    let type ← typeIn e
    let types ← typesIn es
    return type :: types
end

end

theorem anySignificant_eq (es : List Expr) : anySignificant es = (es.map isSignificant).any id := by
  induction es with
  | nil => rfl
  | cons e es ih => simp [anySignificant, ih]

theorem allVoid_eq (es : List Expr) : allVoid es = (es.map isVoid).all id := by
  induction es with
  | nil => rfl
  | cons e es ih => simp [allVoid, ih]

theorem firstVoid_eq (es : List Expr) : firstVoid es = (es.map isVoid).head?.getD false := by
  cases es <;> rfl

mutual
theorem marks_of_same : ∀ {a b : Expr}, same a b = true → isSignificant a = isSignificant b ∧ isVoid a = isVoid b
  | .literal _, b, alike | .oneOf _, b, alike | .reference _, b, alike | .unknown _, b, alike
  | .bind _ _, b, alike | .ahead _, b, alike | .notAhead _, b, alike => by
    cases b <;> simp_all [same, isSignificant, isVoid]
  | .optional a, b, alike => by
    cases b with
    | optional b => exact marks_of_same (a := a) (b := b) alike
    | _ => cases alike
  | .repetition _ a, b, alike => by
    cases b with
    | repetition _ b => exact marks_of_same (a := a) (b := b) (Bool.and_eq_true_iff.mp alike).2
    | _ => cases alike
  | .sequence as, b, alike => by
    cases b with
    | sequence bs =>
      obtain ⟨significant, void⟩ := marks_of_sameAll alike
      simp only [isSignificant, isVoid, anySignificant_eq, allVoid_eq, significant, void, and_self]
    | _ => cases alike
  | .choice as, b, alike => by
    cases b with
    | choice bs =>
      obtain ⟨significant, void⟩ := marks_of_sameAll alike
      simp only [isSignificant, isVoid, anySignificant_eq, firstVoid_eq, significant, void, and_self]
    | _ => cases alike

theorem marks_of_sameAll : ∀ {as bs : List Expr}, sameAll as bs = true →
    as.map isSignificant = bs.map isSignificant ∧ as.map isVoid = bs.map isVoid
  | [], bs, alike => by cases bs <;> simp_all [sameAll]
  | a :: as, bs, alike => by
    cases bs with
    | nil => cases alike
    | cons b bs =>
      simp only [sameAll, Bool.and_eq_true] at alike
      have first := marks_of_same alike.1
      have rest := marks_of_sameAll alike.2
      simp [first, rest]
end

theorem contributing_of_sameAll {as bs : List Expr} (alike : sameAll as bs = true) :
    contributing as = contributing bs := by
  obtain ⟨significant, void⟩ := marks_of_sameAll alike
  have negated : ∀ es : List Expr, es.map (!isVoid ·) = (es.map isVoid).map (!·) := by simp
  simp only [contributing, anySignificant_eq, negated, significant, void]

section

variable {types : String → Option ValueType} {terminal : ValueType}

mutual
theorem typeIn_of_same : ∀ {a b : Expr}, same a b = true → typeIn types terminal a = typeIn types terminal b
  | .literal _, b, alike | .oneOf _, b, alike | .reference _, b, alike | .unknown _, b, alike => by
    cases b <;> simp_all [same, typeIn]
  | .ahead a, b, alike => by
    cases b with
    | ahead b => rw [typeIn, typeIn, typeIn_of_same (a := a) (b := b) alike]
    | _ => cases alike
  | .notAhead a, b, alike => by
    cases b with
    | notAhead b => rw [typeIn, typeIn, typeIn_of_same (a := a) (b := b) alike]
    | _ => cases alike
  | .bind _ a, b, alike => by
    cases b with
    | bind _ b =>
      rw [typeIn, typeIn]
      exact typeIn_of_same (Bool.and_eq_true_iff.mp alike).2
    | _ => cases alike
  | .optional a, b, alike => by
    cases b with
    | optional b => rw [typeIn, typeIn, typeIn_of_same (a := a) (b := b) alike]
    | _ => cases alike
  | .repetition _ a, b, alike => by
    cases b with
    | repetition _ b => rw [typeIn, typeIn, typeIn_of_same (Bool.and_eq_true_iff.mp alike).2]
    | _ => cases alike
  | .sequence as, b, alike => by
    cases b with
    | sequence bs => rw [typeIn, typeIn, typesIn_of_sameAll alike, contributing_of_sameAll alike]
    | _ => cases alike
  | .choice as, b, alike => by
    cases b with
    | choice bs => rw [typeIn, typeIn, typesIn_of_sameAll alike]
    | _ => cases alike

theorem typesIn_of_sameAll : ∀ {as bs : List Expr}, sameAll as bs = true →
    typesIn types terminal as = typesIn types terminal bs
  | [], bs, alike => by
    cases bs with
    | nil => rfl
    | cons => cases alike
  | a :: as, bs, alike => by
    cases bs with
    | nil => cases alike
    | cons b bs =>
      obtain ⟨first, rest⟩ := Bool.and_eq_true_iff.mp alike
      rw [typesIn, typesIn, typeIn_of_same first, typesIn_of_sameAll rest]
end

end

end Expr

namespace Typing

def typeOf? (g : Grammar) (rules : List (String × TypedRule)) (name : String) : Option ValueType :=
  match g.rule? name, g.token? name with
  | some r, _ => match r.type with
    | some type => some (.named type)
    | none => (rules.lookup name).map (·.type)
  | none, some t => some (tokenType t)
  | none, none => none

/-- A typed rule that has the type which its productions have where rules are typed so. -/
structure Checked (ctx : Context) (rules : List (String × TypedRule)) (r : Rule) (typed : TypedRule) : Prop where
  name : typed.name = r.name
  errorName : typed.errorName = r.errorName
  productions : List.Forall₂ (fun q production => ∃ pending types,
    Expr.typesIn (typeOf? ctx.grammar rules) ctx.terminal (Expr.allLaidOpen production.items) = some types ∧
      typedProduction ctx pending r production (Expr.allLaidOpen production.items) types = .ok q)
    typed.productions r.productions
  type : ∃ pending inferred, productionsType r pending (typed.productions.map (·.type)) = .ok inferred ∧
    ruleType r pending inferred = .ok typed.type

structure Complete (ctx : Context) (rules : List (String × TypedRule)) : Prop where
  known : ∀ r ∈ ctx.grammar.rules, ∃ typed, rules.lookup r.name = some typed
  checked : ∀ {name typed}, rules.lookup name = some typed →
    ∃ r, ctx.grammar.rule? name = some r ∧ Checked ctx rules r typed
  distinct : (rules.map Prod.fst).Nodup

namespace Progress

structure Agrees (g : Grammar) (rules : List (String × TypedRule)) (s : Progress) : Prop where
  typed : ∀ x ∈ s.typedRules, rules.lookup x.1 = some x.2
  assumed : ∀ name ∈ s.assumed, typeOf? g rules name = some ((s.assumptions.lookup name).getD .unknown)

structure Right (ctx : Context) (rules : List (String × TypedRule)) (s : Progress) : Prop where
  types : ∀ x ∈ s.types, x.1.typeIn (typeOf? ctx.grammar rules) ctx.terminal = some x.2
  typed : ∀ x ∈ s.typedRules, ∃ r, ctx.grammar.rule? x.1 = some r ∧ Checked ctx rules r x.2

structure Onward (g : Grammar) (pending : List String) (s s' : Progress) : Prop where
  typed : ∃ added, s'.typedRules = s.typedRules ++ added ∧ ∀ x ∈ added, x.1 ∉ pending
  distinct : (s.typedRules.map Prod.fst).Nodup → (s'.typedRules.map Prod.fst).Nodup
  assumed : s.assumed ⊆ s'.assumed
  guessed : ∀ name ∈ s'.assumed, name ∈ s.assumed ∨ ∃ r, g.rule? name = some r ∧ r.type = none
  assumptions : s'.assumptions = s.assumptions

namespace Onward

variable {g : Grammar} {rules : List (String × TypedRule)} {pending : List String} {s s₁ s₂ : Progress}

theorem of_same (typed : s₁.typedRules = s.typedRules) (assumed : s₁.assumed = s.assumed)
    (assumptions : s₁.assumptions = s.assumptions) : Onward g pending s s₁ := by
  refine ⟨⟨[], by simp [typed], by simp⟩, ?_, ?_, ?_, assumptions⟩
  · rw [typed]
    exact id
  · rw [assumed]
    exact List.Subset.refl _
  · rw [assumed]
    exact fun _ => .inl

theorem refl (s : Progress) : Onward g pending s s := of_same rfl rfl rfl

theorem trans (first : Onward g pending s s₁) (second : Onward g pending s₁ s₂) : Onward g pending s s₂ := by
  obtain ⟨added, same, apart⟩ := first.typed
  obtain ⟨added', same', apart'⟩ := second.typed
  refine ⟨⟨added ++ added', by rw [same', same, List.append_assoc], ?_⟩, ?_, ?_, ?_, ?_⟩
  · intro x member
    exact (List.mem_append.mp member).elim (apart x) (apart' x)
  · exact fun distinct => second.distinct (first.distinct distinct)
  · exact List.Subset.trans first.assumed second.assumed
  · intro name member
    exact (second.guessed name member).elim (first.guessed name) .inr
  · exact second.assumptions.trans first.assumptions

theorem append {name : String} {typed : TypedRule} (outside : name ∉ pending)
    (fresh : name ∉ s.typedRules.map Prod.fst) :
    Onward g pending s { s with typedRules := s.typedRules ++ [(name, typed)] } := by
  refine ⟨⟨[(name, typed)], rfl, by simpa using outside⟩, fun distinct => ?_, List.Subset.refl _, fun _ => .inl, rfl⟩
  rw [List.map_append]
  refine List.nodup_append.mpr ⟨distinct, by simp, fun first listed second here same => ?_⟩
  rw [List.map_singleton, List.mem_singleton] at here
  have found : first = name := same.trans here
  exact fresh (found ▸ listed)

theorem mono {more : List String} (onward : Onward g more s s₁) (fewer : pending ⊆ more) : Onward g pending s s₁ := by
  obtain ⟨⟨added, same, apart⟩, distinct, assumed, guessed, assumptions⟩ := onward
  exact ⟨⟨added, same, fun x member pending => apart x member (fewer pending)⟩, distinct, assumed, guessed, assumptions⟩

theorem agrees (onward : Onward g pending s s₁) (agrees : s₁.Agrees g rules) : s.Agrees g rules := by
  obtain ⟨added, same, _⟩ := onward.typed
  refine ⟨fun x member => agrees.typed x (same ▸ List.mem_append_left _ member), fun name member => ?_⟩
  rw [← onward.assumptions]
  exact agrees.assumed name (onward.assumed member)

end Onward

end Progress

namespace Infer

variable {α β : Type} {s s' : Progress}

theorem of_bind {work : Infer α} {next : α → Infer β} {b : β}
    (run : (work >>= next).run.run s = (.ok b, s')) :
    ∃ a s₁, work.run.run s = (.ok a, s₁) ∧ (next a).run.run s₁ = (.ok b, s') := by
  cases done : work.run.run s with
  | mk result s₁ =>
    rw [run_bind_eq, done] at run
    cases result with
    | error e => cases run
    | ok a => exact ⟨a, s₁, rfl, run⟩

theorem of_lift {result : Except Refusal α} {a : α} (run : (liftM result : Infer α).run.run s = (.ok a, s')) :
    result = .ok a ∧ s' = s := by
  cases result with
  | error e => cases run
  | ok b =>
    cases run
    exact ⟨rfl, rfl⟩

end Infer

/-- Work that makes progress, and that comes to what `Q` says if what was typed and assumed is so in the end. -/
def Infer.Sees {α : Type} (ctx : Context) (rules : List (String × TypedRule)) (pending : List String) (Q : α → Prop)
    (work : Infer α) : Prop :=
  ∀ (s : Progress) (a : α) (s' : Progress), work.run.run s = (.ok a, s') → s.Onward ctx.grammar pending s' ∧
    (s'.Agrees ctx.grammar rules → s.Right ctx rules → s'.Right ctx rules ∧ Q a)

namespace Infer

variable {ctx : Context} {rules : List (String × TypedRule)} {pending : List String} {α β : Type} {Q : α → Prop}
  {P : β → Prop} {s s' : Progress}

namespace Sees

theorem pure {a : α} (holds : Q a) : Infer.Sees ctx rules pending Q (Pure.pure a) := by
  intro s a' s' run
  cases run
  exact ⟨.refl s, fun _ right => ⟨right, holds⟩⟩

theorem throw (e : Refusal) : Infer.Sees ctx rules pending Q (throw e : Infer α) := by
  intro s a s' run
  cases run

theorem bind {work : Infer α} {next : α → Infer β} (first : Infer.Sees ctx rules pending Q work)
    (second : ∀ a, Infer.Sees ctx rules pending (fun b => Q a → P b) (next a)) :
    Infer.Sees ctx rules pending P (work >>= next) := by
  intro s b s' run
  obtain ⟨a, s₁, run, run'⟩ := of_bind run
  obtain ⟨onward, holds⟩ := first s a s₁ run
  obtain ⟨onward', holds'⟩ := second a s₁ b s' run'
  refine ⟨onward.trans onward', fun agrees right => ?_⟩
  obtain ⟨right, here⟩ := holds (onward'.agrees agrees) right
  obtain ⟨right, there⟩ := holds' agrees right
  exact ⟨right, there here⟩

theorem lift {result : Except Refusal α} (holds : ∀ a, result = .ok a → Q a) :
    Infer.Sees ctx rules pending Q (liftM result : Infer α) := by
  intro s a s' run
  obtain ⟨done, rfl⟩ := of_lift run
  exact ⟨.refl s', fun _ right => ⟨right, holds a done⟩⟩

theorem mapM {R : α → β → Prop} {work : α → Infer β} {xs : List α}
    (each : ∀ x ∈ xs, Infer.Sees ctx rules pending (R x) (work x)) :
    Infer.Sees ctx rules pending (fun ys => List.Forall₂ R xs ys) (xs.mapM work) := by
  induction xs with
  | nil => exact pure .nil
  | cons x xs ih =>
    rw [List.mapM_cons]
    refine bind (each x List.mem_cons_self) fun y => ?_
    refine bind (ih fun z member => each z (List.mem_cons_of_mem _ member)) fun ys => ?_
    exact pure fun all here => .cons here all

end Sees

theorem remember_cases {e : Expr} {work : Infer ValueType} {t : ValueType}
    (run : (remember e work).run.run s = (.ok t, s')) :
    ((∃ known, (known, t) ∈ s.types ∧ known.same e = true) ∧ s' = s) ∨
      ∃ s₁, work.run.run s = (.ok t, s₁) ∧ s' = { s₁ with types := (e, t) :: s₁.types } := by
  unfold remember at run
  obtain ⟨_, _, got, run⟩ := of_bind run
  cases got
  split at run
  · next known _ found =>
    cases run
    have alike : known.same e = true := by simpa using List.find?_some found
    exact .inl ⟨⟨known, List.mem_of_find?_eq_some found, alike⟩, rfl⟩
  · obtain ⟨_, s₁, first, run⟩ := of_bind run
    obtain ⟨_, _, noted, run⟩ := of_bind run
    cases noted
    cases run
    exact .inr ⟨s₁, first, rfl⟩

theorem assume_eq {name : String} {t : ValueType} (run : (assume name).run.run s = (.ok t, s')) :
    t = (s.assumptions.lookup name).getD .unknown ∧ s' = { s with assumed := name :: s.assumed } := by
  cases run
  exact ⟨rfl, rfl⟩

theorem typeRule_cases {typeOfName : List String → String → Infer ValueType} {r : Rule} {typed : TypedRule}
    (run : (typeRule ctx typeOfName pending r).run.run s = (.ok typed, s')) :
    (s.typedRules.lookup r.name = some typed ∧ s' = s) ∨
      ∃ productions s₁ inferred, s.typedRules.lookup r.name = none ∧
        (r.productions.mapM (typeProduction ctx (typeOfName (r.name :: pending)) (r.name :: pending) r)).run.run s =
          (.ok productions, s₁) ∧ productionsType r (r.name :: pending) (productions.map (·.type)) = .ok inferred ∧
        ruleType r (r.name :: pending) inferred = .ok typed.type ∧
        typed = ⟨r.name, typed.type, productions, r.errorName⟩ ∧
          s' = { s₁ with typedRules := s₁.typedRules ++ [(r.name, typed)] } := by
  unfold typeRule at run
  obtain ⟨_, _, got, run⟩ := of_bind run
  cases got
  split at run
  · next known found =>
    cases run
    exact .inl ⟨found, rfl⟩
  · next unknown =>
    obtain ⟨productions, s₁, first, run⟩ := of_bind run
    obtain ⟨inferred, s₂, second, run⟩ := of_bind run
    obtain ⟨type, s₃, third, run⟩ := of_bind run
    obtain ⟨_, _, noted, run⟩ := of_bind run
    obtain ⟨agreed, rfl⟩ := of_lift second
    obtain ⟨declared, rfl⟩ := of_lift third
    cases noted
    cases run
    exact .inr ⟨productions, _, inferred, unknown, first, agreed, declared, rfl, rfl⟩

end Infer

section

variable {ctx : Context} {rules : List (String × TypedRule)} {pending : List String} {s s' : Progress}
  {typeOfName : String → Infer ValueType}

theorem remember_sees {e : Expr} {work : Infer ValueType}
    (sees : work.Sees ctx rules pending fun t => e.typeIn (typeOf? ctx.grammar rules) ctx.terminal = some t) :
    (remember e work).Sees ctx rules pending fun t => e.typeIn (typeOf? ctx.grammar rules) ctx.terminal = some t := by
  intro s t s' run
  rcases Infer.remember_cases run with ⟨⟨known, listed, alike⟩, rfl⟩ | ⟨s₁, first, rfl⟩
  · refine ⟨.refl s', fun _ right => ⟨right, ?_⟩⟩
    rw [← Expr.typeIn_of_same alike]
    exact right.types _ listed
  · obtain ⟨onward, holds⟩ := sees s t s₁ first
    refine ⟨onward.trans (.of_same rfl rfl rfl), fun agrees right => ?_⟩
    obtain ⟨right, here⟩ := holds ⟨agrees.typed, agrees.assumed⟩ right
    refine ⟨⟨fun x member => ?_, right.typed⟩, here⟩
    rcases List.mem_cons.mp member with rfl | member
    · exact here
    · exact right.types x member

theorem addBindings_cons {p : Production} {index : Nat} {bound all : List Binding} {first : String × Path}
    {rest : List (String × Path)} (added : addBindings p pending index bound (first :: rest) = .ok all) :
    ¬ (bound.any (·.name == first.1)) = true ∧
      addBindings p pending index (bound ++ [⟨index, first.1, first.2⟩]) rest = .ok all := by
  rw [addBindings] at added
  split at added
  · obtain ⟨_, _, refused⟩ := ok_of_bind added
    cases refused
  · next fresh => exact ⟨fresh, added⟩

theorem unifyAlternatives_eq_ok {whole : Expr} {t u : ValueType} {alternatives : List (Expr × ValueType)} :
    unifyAlternatives whole pending t alternatives = .ok u ↔
      (alternatives.map Prod.snd).foldlM ValueType.unify t = some u := by
  induction alternatives generalizing t with
  | nil => simp [unifyAlternatives]
  | cons first rest ih =>
    obtain ⟨e, t'⟩ := first
    simp only [unifyAlternatives, List.map_cons, List.foldlM_cons]
    cases t.unify t' with
    | some w => simpa using ih
    | none => cases whole.describe <;> cases e.describe <;> simp [refuse, Bind.bind, Except.bind]

theorem choiceType_eq_ok {whole : Expr} {alternatives : List Expr} {ts : List ValueType} {u : ValueType}
    (same : alternatives.length = ts.length) :
    choiceType whole pending (alternatives.zip ts) = .ok u ↔ ValueType.common? ts = some u := by
  have snd : (alternatives.zip ts).map Prod.snd = ts := List.map_snd_zip (by omega)
  cases alternatives with
  | nil =>
    cases ts with
    | nil => simp [choiceType, ValueType.common?]
    | cons => cases same
  | cons e es =>
    cases ts with
    | nil => cases same
    | cons t ts =>
      rw [List.zip_cons_cons, List.map_cons, List.cons.injEq] at snd
      rw [List.zip_cons_cons, choiceType, unifyAlternatives_eq_ok, snd.2, ValueType.common?]

theorem length_of_typesIn {types : String → Option ValueType} {terminal : ValueType} {es : List Expr}
    {ts : List ValueType} (typed : Expr.typesIn types terminal es = some ts) : es.length = ts.length := by
  induction es generalizing ts with
  | nil =>
    cases typed
    rfl
  | cons e es ih =>
    simp only [Expr.typesIn, Option.bind_eq_bind, Option.bind_eq_some_iff] at typed
    obtain ⟨t, _, ts, rest, same⟩ := typed
    cases same
    rw [List.length_cons, List.length_cons, ih rest]

mutual
theorem typeOf_sees (references : ∀ name, (typeOfName name).Sees ctx rules pending
      fun t => typeOf? ctx.grammar rules name = some t) : ∀ e : Expr,
    (typeOf ctx.terminal typeOfName pending e).Sees ctx rules pending
      fun t => e.typeIn (typeOf? ctx.grammar rules) ctx.terminal = some t
  | .literal _ | .oneOf _ => by
    rw [typeOf]
    exact remember_sees (.pure rfl)
  | .reference name => by
    rw [typeOf]
    exact remember_sees (references name)
  | .bind _ item => by
    rw [typeOf]
    refine remember_sees ?_
    simp only [Expr.typeIn]
    exact typeOf_sees references item
  | .sequence items => by
    rw [typeOf]
    refine remember_sees (.bind (typesOf_sees references items) fun ts => .pure fun typed => ?_)
    rw [Expr.typeIn, typed]
    rfl
  | .choice alternatives => by
    rw [typeOf]
    refine remember_sees (.bind (typesOf_sees references alternatives) fun ts => .lift fun t agreed typed => ?_)
    rw [Expr.typeIn, typed]
    exact (choiceType_eq_ok (length_of_typesIn typed)).mp agreed
  | .optional item | .repetition _ item => by
    rw [typeOf]
    refine remember_sees (.bind (typeOf_sees references item) fun t => .pure fun typed => ?_)
    rw [Expr.typeIn, typed]
    rfl
  | .ahead item | .notAhead item => by
    rw [typeOf]
    refine remember_sees (.bind (typeOf_sees references item) fun t => .pure fun typed => ?_)
    rw [Expr.typeIn, typed]
    rfl
  | .unknown _ => by
    rw [typeOf]
    exact remember_sees (.throw _)

theorem typesOf_sees (references : ∀ name, (typeOfName name).Sees ctx rules pending
      fun t => typeOf? ctx.grammar rules name = some t) : ∀ es : List Expr,
    (typesOf ctx.terminal typeOfName pending es).Sees ctx rules pending
      fun ts => Expr.typesIn (typeOf? ctx.grammar rules) ctx.terminal es = some ts
  | [] => by
    rw [typesOf]
    exact .pure rfl
  | e :: es => by
    rw [typesOf]
    refine .bind (typeOf_sees references e) fun t => .bind (typesOf_sees references es) fun ts =>
      .pure fun rest first => ?_
    rw [Expr.typesIn, first, rest]
    rfl
end

theorem typeProduction_sees {r : Rule} {production : Production}
    (references : ∀ name, (typeOfName name).Sees ctx rules pending
      fun t => typeOf? ctx.grammar rules name = some t) :
    (typeProduction ctx typeOfName pending r production).Sees ctx rules pending fun q => ∃ pending types,
      Expr.typesIn (typeOf? ctx.grammar rules) ctx.terminal (Expr.allLaidOpen production.items) = some types ∧
        typedProduction ctx pending r production (Expr.allLaidOpen production.items) types = .ok q := by
  unfold typeProduction
  exact .bind (typesOf_sees references _) fun types => .lift fun q made typed => ⟨pending, types, typed, made⟩

end

section

variable {ctx : Context} {rules : List (String × TypedRule)} {pending : List String} {s s' : Progress}

theorem typeRule_mem {typeOfName : List String → String → Infer ValueType} {r : Rule} {typed : TypedRule}
    (run : (typeRule ctx typeOfName pending r).run.run s = (.ok typed, s')) : (r.name, typed) ∈ s'.typedRules := by
  rcases Infer.typeRule_cases run with ⟨found, rfl⟩ | ⟨productions, s₁, inferred, _, _, _, _, _, rfl⟩
  · exact mem_of_lookup found
  · exact List.mem_append_right _ List.mem_cons_self

theorem typeRule_sees {typeOfName : List String → String → Infer ValueType} {r : Rule}
    (found : ctx.grammar.rule? r.name = some r) (outside : r.name ∉ pending)
    (references : ∀ name, (typeOfName (r.name :: pending) name).Sees ctx rules (r.name :: pending)
      fun t => typeOf? ctx.grammar rules name = some t) :
    (typeRule ctx typeOfName pending r).Sees ctx rules pending fun typed => rules.lookup r.name = some typed := by
  intro s typed s' run
  have member := typeRule_mem run
  rcases Infer.typeRule_cases run with ⟨_, rfl⟩ | ⟨productions, s₁, inferred, unknown, first, agreed, declared,
    made, rfl⟩
  · exact ⟨.refl s', fun agrees right => ⟨right, agrees.typed _ member⟩⟩
  · have each := Infer.Sees.mapM fun production (_ : production ∈ r.productions) =>
      (typeProduction_sees references : Infer.Sees ctx rules _ _ (typeProduction ctx _ _ r production))
    obtain ⟨onward, holds⟩ := each s _ s₁ first
    have fresh : r.name ∉ s₁.typedRules.map Prod.fst := by
      obtain ⟨added, same, apart⟩ := onward.typed
      rw [same]
      intro listed
      obtain ⟨x, member, here⟩ := List.mem_map.mp listed
      rcases List.mem_append.mp member with before | after
      · have other := List.lookup_eq_none_iff.mp unknown x before
        simp [here] at other
      · exact apart x after (here ▸ List.mem_cons_self)
    have noted : s₁.Onward ctx.grammar pending { s₁ with typedRules := s₁.typedRules ++ [(r.name, typed)] } :=
      .append outside fresh
    refine ⟨(onward.mono (List.subset_cons_self _ _)).trans noted, fun agrees right => ?_⟩
    obtain ⟨right, read⟩ := holds (noted.agrees agrees) right
    refine ⟨⟨right.types, fun x listed => ?_⟩, agrees.typed _ member⟩
    rcases List.mem_append.mp listed with old | new
    · exact right.typed x old
    · rw [List.mem_singleton.mp new]
      rw [made]
      exact ⟨r, found, rfl, rfl, read.flip, _, inferred, agreed, declared⟩

theorem typeOfName_sees {depth : Nat} (distinct : pending.Nodup) (listed : pending ⊆ ctx.grammar.ruleNames)
    (enough : ctx.grammar.rules.length + 2 ≤ depth + pending.length) (name : String) :
    (Typing.typeOfName ctx depth pending name).Sees ctx rules pending
      fun t => typeOf? ctx.grammar rules name = some t := by
  -- There is depth enough, as the rules being typed are distinct rules of the grammar.
  induction depth generalizing pending name with
  | zero =>
    have few := distinct.length_le_of_subset listed
    have same := Grammar.length_ruleNames ctx.grammar
    omega
  | succ depth ih =>
    unfold Typing.typeOfName
    split
    · next r found =>
      split
      · next type declared => exact .pure (by simp [typeOf?, found, declared])
      · next undeclared =>
        split
        · next inside =>
          intro s t s' run
          obtain ⟨rfl, rfl⟩ := Infer.assume_eq run
          refine ⟨⟨⟨[], by simp, by simp⟩, id, List.subset_cons_self _ _, fun other member => ?_, rfl⟩,
            fun agrees right => ?_⟩
          · rcases List.mem_cons.mp member with rfl | member
            · exact .inr ⟨r, found, undeclared⟩
            · exact .inl member
          · exact ⟨⟨right.types, right.typed⟩, agrees.assumed name List.mem_cons_self⟩
        · next outside =>
          have same := Grammar.name_of_rule? found
          subst same
          have references : ∀ name, (Typing.typeOfName ctx depth (r.name :: pending) name).Sees ctx rules
              (r.name :: pending) fun t => typeOf? ctx.grammar rules name = some t := by
            refine ih (List.nodup_cons.mpr ⟨outside, distinct⟩) ?_ (by rw [List.length_cons]; omega)
            exact List.cons_subset.mpr ⟨Grammar.mem_ruleNames_of_rule? found, listed⟩
          refine .bind (typeRule_sees found outside references) fun typed => .pure fun here => ?_
          simp [typeOf?, found, undeclared, here]
    · next t absent known => exact .pure (by simp [typeOf?, absent, known])
    · exact .lift fun _ same => by cases same

theorem eachRule_sees {todo : List Rule} (listed : todo ⊆ ctx.grammar.rules)
    (run : (todo.forM fun r => discard (typeRule ctx ctx.typeOfName [] r) : Infer Unit).run.run s = (.ok (), s')) :
    s.Onward ctx.grammar [] s' ∧ (s'.Agrees ctx.grammar rules → s.Right ctx rules → s'.Right ctx rules) ∧
      ∀ r ∈ todo, ∃ typed, (r.name, typed) ∈ s'.typedRules := by
  induction todo generalizing s with
  | nil =>
    cases run
    exact ⟨.refl s', fun _ => id, by simp⟩
  | cons r rest ih =>
    obtain ⟨_, s₁, first, run⟩ := Infer.of_bind run
    obtain ⟨typed, s₂, first, done⟩ := Infer.of_bind first
    cases done
    have found := Grammar.rule?_of_mem (listed List.mem_cons_self)
    have references : ∀ name, (ctx.typeOfName [r.name] name).Sees ctx rules [r.name]
        fun t => typeOf? ctx.grammar rules name = some t :=
      typeOfName_sees (by simp) (List.cons_subset.mpr ⟨Grammar.mem_ruleNames_of_rule? found, List.nil_subset _⟩)
        (Nat.le_refl _)
    obtain ⟨onward, holds⟩ := typeRule_sees found List.not_mem_nil references s typed s₁ first
    obtain ⟨onward', holds', all⟩ := ih (fun q member => listed (List.mem_cons_of_mem _ member)) run
    refine ⟨onward.trans onward', fun agrees right => ?_, fun q member => ?_⟩
    · exact holds' agrees (holds (onward'.agrees agrees) right).1
    · rcases List.mem_cons.mp member with rfl | member
      · obtain ⟨added, same, _⟩ := onward'.typed
        exact ⟨typed, same ▸ List.mem_append_left _ (typeRule_mem first)⟩
      · exact all q member

theorem assumption_of_right {name : String} (right : wrongAssumptions s = []) (member : name ∈ s.assumed) :
    (s.assumptions.lookup name).getD .unknown = ((s.typedRules.lookup name).map (·.type)).getD .unknown := by
  have none := List.eq_nil_iff_forall_not_mem.mp right name
  unfold wrongAssumptions at none
  rw [← TextSet.mem_def, TextSet.mem_ofList, List.mem_filter] at none
  simpa [member] using none

theorem round_complete (untyped : s.types = []) (unruled : s.typedRules = [])
    (run : (round ctx).run.run s = (.ok (), s')) (right : wrongAssumptions s' = []) : Complete ctx s'.typedRules := by
  unfold round at run
  obtain ⟨_, _, start, run⟩ := Infer.of_bind run
  cases start
  obtain ⟨onward, holds, all⟩ : ({ s with assumed := [] } : Progress).Onward ctx.grammar [] s' ∧
      (s'.Agrees ctx.grammar s'.typedRules → ({ s with assumed := [] } : Progress).Right ctx s'.typedRules →
        s'.Right ctx s'.typedRules) ∧ ∀ r ∈ ctx.grammar.rules, ∃ typed, (r.name, typed) ∈ s'.typedRules :=
    eachRule_sees (List.Subset.refl _) run
  have distinct := onward.distinct (by simp [unruled])
  have known : ∀ r ∈ ctx.grammar.rules, ∃ typed, s'.typedRules.lookup r.name = some typed := by
    intro r listed
    obtain ⟨typed, member⟩ := all r listed
    exact ⟨typed, lookup_of_mem distinct member⟩
  have agrees : s'.Agrees ctx.grammar s'.typedRules := by
    refine ⟨fun x member => lookup_of_mem distinct member, fun name member => ?_⟩
    rcases onward.guessed name member with early | ⟨r, found, undeclared⟩
    · cases early
    · have same := Grammar.name_of_rule? found
      obtain ⟨typed, here⟩ := known r (Grammar.mem_of_rule? found)
      rw [same] at here
      rw [assumption_of_right right member]
      simp [typeOf?, found, undeclared, here]
  have right : s'.Right ctx s'.typedRules := holds agrees ⟨by simp [untyped], by simp [unruled]⟩
  exact ⟨known, fun here => right.typed _ (mem_of_lookup here), distinct⟩

theorem roundsUpTo_complete {rounds : Nat} {rules : List (String × TypedRule)} (untyped : s.types = [])
    (unruled : s.typedRules = []) (run : (roundsUpTo ctx rounds).run.run s = (.ok rules, s')) : Complete ctx rules := by
  induction rounds generalizing s with
  | zero =>
    unfold roundsUpTo at run
    obtain ⟨_, s₁, first, run⟩ := Infer.of_bind run
    obtain ⟨_, _, got, run⟩ := Infer.of_bind run
    cases got
    split at run
    · next right =>
      cases run
      exact round_complete untyped unruled first right
    · cases run
  | succ rounds ih =>
    unfold roundsUpTo at run
    obtain ⟨_, s₁, first, run⟩ := Infer.of_bind run
    obtain ⟨_, _, got, run⟩ := Infer.of_bind run
    cases got
    split at run
    · next right =>
      cases run
      exact round_complete untyped unruled first right
    · obtain ⟨_, _, again, run⟩ := Infer.of_bind run
      cases again
      exact ih rfl rfl run

end

theorem complete_of_typedRules {g : Grammar} {actions : List (String × Action)} {rules : List (String × TypedRule)}
    (typed : typedRules g actions = .ok rules) : Complete ⟨g, actions⟩ rules := by
  have run : ((roundsUpTo ⟨g, actions⟩ g.rules.length).run.run {}).1 = .ok rules := typed
  exact roundsUpTo_complete rfl rfl (Prod.ext run rfl)

end Typing

end Packrat
