import Packrat.Proofs.Typing.Bounds
import Packrat.Proofs.Typing.Places

namespace Packrat.Typing

open ValueType

/-- The place is one where something is known of the second type, but not of the first one. -/
def News (a b : ValueType) (place : List Nat) : Prop := b.Known place ∧ ¬ a.Known place

theorem not_news (t : ValueType) (place : List Nat) : ¬ News t t place := fun news => news.2 news.1

theorem not_news_nil {a b : ValueType} (some : a ≠ .unknown) : ¬ News a b [] := fun news => news.2 (known_nil some)

theorem News.child {a b x y : ValueType} {i : Nat} {place : List Nat} (news : News a b (i :: place))
    (here : a.child i = some x) (there : b.child i = some y) : News x y place := by
  obtain ⟨item, same, known⟩ := known_cons.mp news.1
  cases there.symm.trans same
  exact ⟨known, fun known => news.2 (known_cons.mpr ⟨x, here, known⟩)⟩

section

variable (g : Grammar) (before now final : String → ValueType)

/-- What there is at a place of a type is news about a rule whose final type is there or around the place. -/
def Traced (t : ValueType) (place : List Nat) : Prop :=
  ∃ name outer inner x, name ∈ g.ruleNames ∧ place = outer ++ inner ∧ News (before name) (now name) inner ∧
    t.part outer = some x ∧ Fits false (final name) x

/-- Types that say more and more, in which everything new is news about some rule. -/
structure Strand (a b c : ValueType) : Prop where
  first : Fits false a b
  second : Fits false b c
  traced : ∀ place, News a b place → Traced g before now final c place

inductive Strands : List ValueType → List ValueType → List ValueType → Prop
  | nil : Strands [] [] []
  | cons {a b c as bs cs} (here : Strand g before now final a b c) (rest : Strands as bs cs) :
    Strands (a :: as) (b :: bs) (c :: cs)

end

section

variable {g : Grammar} {before now final : String → ValueType} {a b c t : ValueType} {as bs cs : List ValueType}

theorem Traced.outward {x : ValueType} {i : Nat} {place : List Nat} (here : t.child i = some x)
    (traced : Traced g before now final x place) : Traced g before now final t (i :: place) := by
  obtain ⟨name, outer, inner, y, listed, rfl, news, there, fits⟩ := traced
  exact ⟨name, i :: outer, inner, y, listed, rfl, news, by rw [part, here, Option.bind_some, there], fits⟩

theorem Traced.mono {place : List Nat} (traced : Traced g before now final t place) (fits : Fits false t c) :
    Traced g before now final c place := by
  obtain ⟨name, outer, inner, x, listed, same, news, here, below⟩ := traced
  obtain ⟨y, there, fits⟩ := part_fits fits here
  exact ⟨name, outer, inner, y, listed, same, news, there, below.trans fits⟩

namespace Strand

theorem const (t : ValueType) : Strand g before now final t t t :=
  ⟨.refl t, .refl t, fun place news => absurd news (not_news t place)⟩

theorem wrap (wrap : ValueType → ValueType) (inside : ∀ {a b}, Fits false a b → Fits false (wrap a) (wrap b))
    (known : ∀ t, wrap t ≠ .unknown) (child : ∀ t i, (wrap t).child i = if i = 0 then some t else none)
    (strand : Strand g before now final a b c) : Strand g before now final (wrap a) (wrap b) (wrap c) := by
  refine ⟨inside strand.first, inside strand.second, fun place news => ?_⟩
  cases place with
  | nil => exact absurd news (not_news_nil (known a))
  | cons i place =>
    cases i with
    | zero => exact (strand.traced place (news.child (child a 0) (child b 0))).outward (child c 0)
    | succ i =>
      obtain ⟨_, here, _⟩ := known_cons.mp news.1
      rw [child, if_neg (Nat.succ_ne_zero i)] at here
      cases here

theorem eq_unit (strand : Strand g before now final .unit b c) : b = .unit ∧ c = .unit := by
  cases unit_fits strand.first
  exact ⟨rfl, unit_fits strand.second⟩

theorem wrapUnless {wrap : ValueType → ValueType} (wrapped : Strand g before now final (wrap a) (wrap b) (wrap c))
    (strand : Strand g before now final a b c) (firm : c = .unit → a = .unit) :
    Strand g before now final (if a = .unit then .unit else wrap a) (if b = .unit then .unit else wrap b)
      (if c = .unit then .unit else wrap c) := by
  -- Wrapped up or not is decided from the outset, so all three are so alike.
  by_cases nothing : c = .unit
  · have first := firm nothing
    subst first
    rw [if_pos rfl, if_pos strand.eq_unit.1, if_pos nothing]
    exact const .unit
  · have here : b ≠ .unit := fun void => nothing (unit_fits (void ▸ strand.second))
    have first : a ≠ .unit := fun void => here (unit_fits (void ▸ strand.first))
    rwa [if_neg first, if_neg here, if_neg nothing]

theorem optionOf (strand : Strand g before now final a b c) (firm : c = .unit → a = .unit) :
    Strand g before now final (ValueType.optionOf a) (ValueType.optionOf b) (ValueType.optionOf c) := by
  simp only [optionOf_eq]
  refine (strand.wrap .option (fun fits => ?_) (by simp) fun t i => ?_).wrapUnless strand firm
  · rwa [Fits]
  · cases i <;> rfl

theorem listOf (strand : Strand g before now final a b c) (firm : c = .unit → a = .unit) :
    Strand g before now final (ValueType.listOf a) (ValueType.listOf b) (ValueType.listOf c) := by
  simp only [listOf_eq]
  refine (strand.wrap .list (fun fits => ?_) (by simp) fun t i => ?_).wrapUnless strand firm
  · rwa [Fits]
  · cases i <;> rfl

end Strand

namespace Strands

theorem first (strands : Strands g before now final as bs cs) : List.Forall₂ (Fits false) as bs := by
  induction strands with
  | nil => exact .nil
  | cons here _ ih => exact .cons here.first ih

theorem second (strands : Strands g before now final as bs cs) : List.Forall₂ (Fits false) bs cs := by
  induction strands with
  | nil => exact .nil
  | cons here _ ih => exact .cons here.second ih

theorem get (strands : Strands g before now final as bs cs) {i : Nat} (here : bs[i]? = some b) :
    ∃ a c, as[i]? = some a ∧ cs[i]? = some c ∧ Strand g before now final a b c := by
  induction strands generalizing i with
  | nil => cases here
  | @cons a _ c _ _ _ strand _ ih =>
    cases i with
    | zero =>
      cases here
      exact ⟨a, c, rfl, rfl, strand⟩
    | succ i => exact ih here

theorem select (mask : List Bool) (strands : Strands g before now final as bs cs) :
    Strands g before now final (Packrat.select mask as) (Packrat.select mask bs) (Packrat.select mask cs) := by
  induction strands generalizing mask with
  | nil => cases mask with
    | nil => exact .nil
    | cons keep mask => cases keep <;> exact .nil
  | cons here _ ih => cases mask with
    | nil => exact .nil
    | cons keep mask => cases keep with
      | true => exact .cons here (ih mask)
      | false => exact ih mask

theorem tuple (strands : Strands g before now final as bs cs) :
    Strand g before now final (.tuple as) (.tuple bs) (.tuple cs) := by
  refine ⟨?_, ?_, fun place news => ?_⟩
  · rw [Fits, fitsAll_iff]
    exact strands.first
  · rw [Fits, fitsAll_iff]
    exact strands.second
  · cases place with
    | nil => exact absurd news (not_news_nil nofun)
    | cons i place =>
      obtain ⟨b, here, _⟩ := known_cons.mp news.1
      obtain ⟨a, c, first, last, strand⟩ := strands.get here
      exact (strand.traced place (news.child first here)).outward last

theorem gather (strands : Strands g before now final as bs cs) :
    Strand g before now final (.gather as) (.gather bs) (.gather cs) := by
  match strands with
  | .nil => exact .const .unit
  | .cons here .nil => exact here
  | .cons here (.cons next rest) => exact tuple (.cons here (.cons next rest))

theorem common (strands : Strands g before now final as bs cs) (agreed : common? cs = some c) :
    ∃ a b, common? as = some a ∧ common? bs = some b ∧ Strand g before now final a b c := by
  obtain ⟨b, agreed'⟩ := exists_common? strands.second agreed
  obtain ⟨a, agreed''⟩ := exists_common? strands.first agreed'
  have first := common?_mono strands.first agreed'' agreed'
  have second := common?_mono strands.second agreed' agreed
  refine ⟨a, b, agreed'', agreed', first, second, fun place news => ?_⟩
  obtain ⟨y, listed, known⟩ := known_common? agreed' news.1
  obtain ⟨i, here⟩ := List.mem_iff_getElem?.mp listed
  obtain ⟨x, z, first, last, strand⟩ := strands.get here
  have unknown : ¬ x.Known place := fun known =>
    news.2 (known.mono (fits_common? agreed'' (List.mem_of_getElem? first)))
  exact (strand.traced place ⟨known, unknown⟩).mono (fits_common? agreed (List.mem_of_getElem? last))

end Strands

end

structure Rise (outset before now final : String → ValueType) : Prop where
  starts : ∀ name, Fits false (outset name) (before name)
  rises : ∀ name, Fits false (before name) (now name)
  below : ∀ name, Fits false (now name) (final name)

section

variable {ctx : Context} {outset before now final : String → ValueType}

theorem Rise.early (rise : Rise outset before now final) : Rise outset outset before final :=
  ⟨fun _ => .refl _, rise.starts, fun name => (rise.rises name).trans (rise.below name)⟩

theorem typeWith_strand {name : String} {c : ValueType} (rise : Rise outset before now final)
    (known : typeWith ctx.grammar final name = some c) :
    ∃ a b, typeWith ctx.grammar before name = some a ∧ typeWith ctx.grammar now name = some b ∧
      Strand ctx.grammar before now final a b c := by
  simp only [typeWith] at known ⊢
  cases found : ctx.grammar.rule? name with
  | some r =>
    simp only [found] at known ⊢
    cases declared : r.type with
    | some type =>
      simp only [declared, Option.some.injEq] at known ⊢
      exact ⟨_, _, rfl, rfl, known ▸ .const _⟩
    | none =>
      simp only [declared, Option.some.injEq] at known ⊢
      refine ⟨_, _, rfl, rfl, rise.rises name, known ▸ rise.below name, fun place news => ?_⟩
      exact ⟨name, [], place, c, Grammar.mem_ruleNames_of_rule? found, rfl, news, rfl, known ▸ .refl _⟩
  | none =>
    simp only [found] at known ⊢
    cases here : ctx.grammar.token? name with
    | some t =>
      simp only [here, Option.some.injEq] at known ⊢
      exact ⟨_, _, rfl, rfl, known ▸ .const _⟩
    | none => simp [here] at known

theorem typeIn_of_void {e : Expr} {c : ValueType}
    (later : ∃ a b, e.typeIn (typeWith ctx.grammar before) ctx.terminal = some a ∧
      e.typeIn (typeWith ctx.grammar now) ctx.terminal = some b ∧ Strand ctx.grammar before now final a b c)
    (void : e.typeIn (typeWith ctx.grammar before) ctx.terminal = some .unit) :
    e.typeIn (typeWith ctx.grammar now) ctx.terminal = some .unit := by
  obtain ⟨a, b, start, here, strand⟩ := later
  cases start.symm.trans void
  rw [here, strand.eq_unit.1]

mutual
theorem typeIn_strand {before now : String → ValueType} (rise : Rise outset before now final) :
    ∀ {e : Expr} {c : ValueType}, e.typeIn (typeWith ctx.grammar final) ctx.terminal = some c →
      Firm ctx outset final e.wrapped →
    ∃ a b, e.typeIn (typeWith ctx.grammar before) ctx.terminal = some a ∧
      e.typeIn (typeWith ctx.grammar now) ctx.terminal = some b ∧ Strand ctx.grammar before now final a b c
  | .literal _, _, typed, _ | .oneOf _, _, typed, _ => by
    cases typed
    exact ⟨_, _, rfl, rfl, .const _⟩
  | .reference _, _, typed, _ => typeWith_strand rise typed
  | .bind _ item, _, typed, firm => by
    simp only [Expr.typeIn] at typed ⊢
    exact typeIn_strand rise typed firm
  | .sequence items, _, typed, firm => by
    simp only [Expr.typeIn, Option.map_eq_some_iff] at typed ⊢
    obtain ⟨cs, typed, rfl⟩ := typed
    obtain ⟨as, bs, first, here, strands⟩ := typesIn_strands rise typed firm
    exact ⟨_, _, ⟨as, first, rfl⟩, ⟨bs, here, rfl⟩, (strands.select _).gather⟩
  | .choice alternatives, _, typed, firm => by
    simp only [Expr.typeIn, Option.bind_eq_some_iff] at typed ⊢
    obtain ⟨cs, typed, agreed⟩ := typed
    obtain ⟨as, bs, first, here, strands⟩ := typesIn_strands rise typed firm
    obtain ⟨a, b, agreed', agreed'', strand⟩ := strands.common agreed
    exact ⟨a, b, ⟨as, first, agreed'⟩, ⟨bs, here, agreed''⟩, strand⟩
  | .optional item, _, typed, firm => by
    simp only [Expr.typeIn, Option.map_eq_some_iff] at typed ⊢
    obtain ⟨c, typed, rfl⟩ := typed
    have inside := firm.mono (List.subset_cons_self _ _)
    obtain ⟨a, b, first, here, strand⟩ := typeIn_strand rise typed inside
    have early := typeIn_strand rise.early typed inside
    refine ⟨_, _, ⟨a, first, rfl⟩, ⟨b, here, rfl⟩, strand.optionOf fun nothing => ?_⟩
    have void := typeIn_of_void early (firm item List.mem_cons_self (nothing ▸ typed))
    exact Option.some.inj (first.symm.trans void)
  | .repetition _ item, _, typed, firm => by
    simp only [Expr.typeIn, Option.map_eq_some_iff] at typed ⊢
    obtain ⟨c, typed, rfl⟩ := typed
    have inside := firm.mono (List.subset_cons_self _ _)
    obtain ⟨a, b, first, here, strand⟩ := typeIn_strand rise typed inside
    have early := typeIn_strand rise.early typed inside
    refine ⟨_, _, ⟨a, first, rfl⟩, ⟨b, here, rfl⟩, strand.listOf fun nothing => ?_⟩
    have void := typeIn_of_void early (firm item List.mem_cons_self (nothing ▸ typed))
    exact Option.some.inj (first.symm.trans void)
  | .ahead item, _, typed, firm | .notAhead item, _, typed, firm => by
    simp only [Expr.typeIn, Option.map_eq_some_iff] at typed ⊢
    obtain ⟨c, typed, rfl⟩ := typed
    obtain ⟨a, b, first, here, _⟩ := typeIn_strand rise typed firm
    exact ⟨_, _, ⟨a, first, rfl⟩, ⟨b, here, rfl⟩, .const .unit⟩
  | .unknown _, _, typed, _ => by cases typed

theorem typesIn_strands {before now : String → ValueType} (rise : Rise outset before now final) :
    ∀ {es : List Expr} {cs : List ValueType},
    Expr.typesIn (typeWith ctx.grammar final) ctx.terminal es = some cs →
    Firm ctx outset final (Expr.allWrapped es) →
    ∃ as bs, Expr.typesIn (typeWith ctx.grammar before) ctx.terminal es = some as ∧
      Expr.typesIn (typeWith ctx.grammar now) ctx.terminal es = some bs ∧ Strands ctx.grammar before now final as bs cs
  | [], _, typed, _ => by
    cases typed
    exact ⟨[], [], rfl, rfl, .nil⟩
  | e :: es, _, typed, firm => by
    simp only [Expr.typesIn, Option.bind_eq_bind, Option.bind_eq_some_iff] at typed ⊢
    obtain ⟨c, last, cs, rest, same⟩ := typed
    cases same
    obtain ⟨a, b, first, here, strand⟩ := typeIn_strand rise last (firm.mono (List.subset_append_left _ _))
    obtain ⟨as, bs, first', here', strands⟩ :=
      typesIn_strands rise rest (firm.mono (List.subset_append_right _ _))
    exact ⟨a :: as, b :: bs, ⟨a, first, as, first', rfl⟩, ⟨b, here, bs, here', rfl⟩, .cons strand strands⟩
end

section

variable {r : Rule}

theorem productionIn_strand {p : Production} {c : ValueType} (rise : Rise outset before now final)
    (firm : Firm ctx outset final (Expr.allWrapped p.items))
    (known : productionIn ctx final r p = some c) :
    ∃ a b, productionIn ctx before r p = some a ∧ productionIn ctx now r p = some b ∧
      Strand ctx.grammar before now final a b c := by
  simp only [productionIn, Option.map_eq_some_iff] at known ⊢
  obtain ⟨cs, typed, rfl⟩ := known
  obtain ⟨as, bs, first, here, strands⟩ := typesIn_strands rise typed (Expr.allWrapped_allLaidOpen p.items ▸ firm)
  refine ⟨_, _, ⟨as, first, rfl⟩, ⟨bs, here, rfl⟩, ?_⟩
  unfold productionType
  split
  · exact .const _
  · exact (strands.select _).gather

theorem productionsIn_strands {productions : List Production} {cs : List ValueType}
    (rise : Rise outset before now final) (firm : ∀ p ∈ productions, Firm ctx outset final (Expr.allWrapped p.items))
    (known : List.Forall₂ (fun p c => productionIn ctx final r p = some c) productions cs) :
    ∃ as bs, List.Forall₂ (fun p a => productionIn ctx before r p = some a) productions as ∧
      List.Forall₂ (fun p b => productionIn ctx now r p = some b) productions bs ∧
      Strands ctx.grammar before now final as bs cs := by
  induction known with
  | nil => exact ⟨[], [], .nil, .nil, .nil⟩
  | cons last _ ih =>
    obtain ⟨first, firm⟩ := List.forall_mem_cons.mp firm
    obtain ⟨a, b, start, here, strand⟩ := productionIn_strand rise first last
    obtain ⟨as, bs, starts, heres, strands⟩ := ih firm
    exact ⟨a :: as, b :: bs, .cons start starts, .cons here heres, .cons strand strands⟩

theorem agreed_strand {as bs cs : List ValueType} {c : ValueType}
    (strands : Strands ctx.grammar before now final as bs cs) (known : agreed r cs = some c) :
    ∃ a b, agreed r as = some a ∧ agreed r bs = some b ∧ Strand ctx.grammar before now final a b c := by
  cases declared : r.type with
  | some name =>
    obtain ⟨b, here⟩ := exists_agreed strands.second known
    obtain ⟨a, start⟩ := exists_agreed strands.first here
    refine ⟨a, b, start, here, ?_⟩
    rw [agreed_declared declared start, agreed_declared declared here, agreed_declared declared known]
    exact .const _
  | none =>
    cases strands with
    | nil => exact ⟨c, c, known, known, .const c⟩
    | cons first rest =>
      rw [agreed_undeclared declared (List.cons_ne_nil _ _)] at known ⊢
      rw [agreed_undeclared declared (List.cons_ne_nil _ _)]
      exact Strands.common (.cons first rest) known

theorem ruleIn_strand (solves : Solves ctx final) (firm : FirmRules ctx outset final)
    (rise : Rise outset before now final) (listed : r ∈ ctx.grammar.rules) :
    ∃ a b, ruleIn ctx before r = some a ∧ ruleIn ctx now r = some b ∧
      Strand ctx.grammar before now final a b (final r.name) := by
  obtain ⟨cs, known, common⟩ := ruleIn_eq_some.mp (solves r listed)
  obtain ⟨as, bs, starts, heres, strands⟩ := productionsIn_strands rise (firm r listed) known
  obtain ⟨a, b, start, here, strand⟩ := agreed_strand strands common
  exact ⟨a, b, ruleIn_eq_some.mpr ⟨as, starts, start⟩, ruleIn_eq_some.mpr ⟨bs, heres, here⟩, strand⟩

theorem step_strand (solves : Solves ctx final) (firm : FirmRules ctx outset final)
    (rise : Rise outset before now final) (name : String) :
    Strand ctx.grammar before now final (step ctx before name) (step ctx now name) (final name) := by
  cases found : ctx.grammar.rule? name with
  | none =>
    rw [step, step, found]
    exact ⟨.refl _, unknown_fits _, fun place news => absurd news (not_news _ place)⟩
  | some r =>
    obtain ⟨a, b, start, here, strand⟩ := ruleIn_strand solves firm rise (Grammar.mem_of_rule? found)
    rw [step_of_rule? found, step_of_rule? found, start, here]
    rwa [Grammar.name_of_rule? found] at strand

end

end

end Packrat.Typing
