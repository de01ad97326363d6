import Mathlib.Order.Bounds.Basic
import Mathlib.Order.BoundedOrder.Basic
import Packrat.Proofs.Typing.Places
import Packrat.Proofs.Typing.Solutions

namespace Packrat

namespace ValueType

mutual
/-- A type with each unknown replaced by what is given for its place. -/
def fill : (given : List Nat → ValueType) → ValueType → ValueType
  | given, .unknown => given []
  | _, .unit => .unit
  | _, .named name => .named name
  | given, .tuple items => .tuple (fillFrom given 0 items)
  | given, .list item => .list (fill (fun place => given (0 :: place)) item)
  | given, .option item => .option (fill (fun place => given (0 :: place)) item)

def fillFrom : (given : List Nat → ValueType) → (i : Nat) → List ValueType → List ValueType
  | _, _, [] => []
  | given, i, item :: items => fill (fun place => given (i :: place)) item :: fillFrom given (i + 1) items
end

mutual
theorem fits_fill : ∀ (given : List Nat → ValueType) (t : ValueType), Fits false t (fill given t)
  | given, .unknown => unknown_fits _
  | _, .unit | _, .named _ => .refl _
  | given, .tuple items => by
    rw [fill, Fits]
    exact fitsAll_fillFrom given 0 items
  | given, .list item | given, .option item => by
    rw [fill, Fits]
    exact fits_fill _ item

theorem fitsAll_fillFrom : ∀ (given : List Nat → ValueType) (i : Nat) (ts : List ValueType),
    FitsAll false ts (fillFrom given i ts)
  | _, _, [] => .refl _
  | given, i, t :: ts => by
    rw [fillFrom, FitsAll]
    exact ⟨fits_fill _ t, fitsAll_fillFrom given (i + 1) ts⟩
end

def atPlace (t : ValueType) (place : List Nat) : ValueType := (t.part place).getD .unknown

theorem atPlace_cons {t item : ValueType} {i : Nat} (here : t.child i = some item) :
    (fun place => t.atPlace (i :: place)) = item.atPlace := by
  funext place
  rw [atPlace, part, here, Option.bind_some, atPlace]

mutual
theorem fill_atPlace : ∀ {a b : ValueType}, Fits false a b → fill b.atPlace a = b
  | .unknown, b, _ => rfl
  | .unit, b, fits => (unit_fits fits).symm
  | .named _, b, fits => by
    cases b <;> simp only [Fits] at fits
    rw [fill, fits]
  | .tuple as, b, fits => by
    cases b <;> simp only [Fits] at fits
    next bs => rw [fill, fillFrom_atPlace fits fun i => by rw [Nat.zero_add]]
  | .list a, b, fits | .option a, b, fits => by
    cases b <;> simp only [Fits, Bool.false_eq_true, false_and] at fits
    rw [fill, atPlace_cons rfl, fill_atPlace fits]

theorem fillFrom_atPlace : ∀ {as bs all : List ValueType} {n : Nat}, FitsAll false as bs →
    (∀ i, bs[i]? = all[n + i]?) → fillFrom (tuple all).atPlace n as = bs
  | [], bs, _, _, fit, _ => by
    cases bs <;> simp only [FitsAll] at fit
    rfl
  | a :: as, bs, all, n, fit, suffix => by
    cases bs <;> simp only [FitsAll] at fit
    next b bs =>
    have here : (tuple all).child n = some b := (suffix 0).symm
    rw [fillFrom, atPlace_cons here, fill_atPlace fit.1, fillFrom_atPlace fit.2 fun i => ?_]
    rw [Nat.add_right_comm]
    exact suffix (i + 1)
end

/-- Less is known of the lower type: the higher one has something, maybe the unknown again, in place of each of its
unknowns. -/
instance : LE ValueType := ⟨fun a b => ∃ given, a.fill given = b⟩

variable {a b c u : ValueType} {ts as bs : List ValueType}

theorem le_iff_fits : a ≤ b ↔ Fits false a b := by
  constructor
  · rintro ⟨given, rfl⟩
    exact fits_fill given a
  · exact fun fits => ⟨b.atPlace, fill_atPlace fits⟩

instance : PartialOrder ValueType where
  le_refl t := le_iff_fits.mpr (.refl t)
  le_trans _ _ _ first second := le_iff_fits.mpr ((le_iff_fits.mp first).trans (le_iff_fits.mp second))
  le_antisymm _ _ there back := (le_iff_fits.mp there).antisymm (le_iff_fits.mp back)

instance : OrderBot ValueType where
  bot := .unknown
  bot_le t := le_iff_fits.mpr (unknown_fits t)

theorem common?_eq_some_iff : common? ts = some u ↔ ts ≠ [] ∧ IsLUB {t | t ∈ ts} u := by
  have join {w : ValueType} (agreed : common? ts = some w) : IsLUB {t | t ∈ ts} w :=
    ⟨fun t listed => le_iff_fits.mpr (fits_common? agreed listed),
      fun c above => le_iff_fits.mpr (common?_fits (fun t listed => le_iff_fits.mp (above listed)) agreed)⟩
  refine ⟨fun agreed => ⟨fun none => ?_, join agreed⟩, fun ⟨nonempty, least⟩ => ?_⟩
  · rw [none] at agreed
    cases agreed
  · obtain ⟨w, agreed⟩ : ∃ w, common? ts = some w := by
      cases ts with
      | nil => exact absurd rfl nonempty
      | cons first rest =>
        have fits (t : ValueType) (listed : t ∈ first :: rest) : Fits false t u := le_iff_fits.mp (least.1 listed)
        exact exists_foldlM (fits first List.mem_cons_self) fun t listed => fits t (List.mem_cons_of_mem _ listed)
    rw [agreed, (join agreed).unique least]

theorem common?_perm (perm : as.Perm bs) : common? as = common? bs := by
  have same : {t | t ∈ as} = {t | t ∈ bs} := Set.ext fun _ => perm.mem_iff
  have empty : as = [] ↔ bs = [] := ⟨fun none => (none ▸ perm).nil_eq.symm, fun none => (none ▸ perm).eq_nil⟩
  refine Option.ext fun u => ?_
  rw [common?_eq_some_iff, common?_eq_some_iff, same, ne_eq, ne_eq, empty]

theorem unify_eq_common? (a b : ValueType) : a.unify b = common? [a, b] := by
  simp [common?]

theorem unify_eq_some_iff : a.unify b = some c ↔ IsLUB {a, b} c := by
  have same : {t | t ∈ [a, b]} = ({a, b} : Set ValueType) := by
    ext t
    simp
  rw [unify_eq_common?, common?_eq_some_iff, same]
  simp

theorem unify_eq_none_iff : a.unify b = none ↔ ¬ BddAbove {a, b} := by
  constructor
  · rintro none ⟨c, above⟩
    have first := le_iff_fits.mp (above (Set.mem_insert a _))
    have second := le_iff_fits.mp (above (Set.mem_insert_of_mem a rfl))
    obtain ⟨u, agreed⟩ := exists_unify first second
    rw [none] at agreed
    cases agreed
  · intro unbounded
    cases agreed : a.unify b with
    | none => rfl
    | some u => exact absurd ⟨u, (unify_eq_some_iff.mp agreed).1⟩ unbounded

theorem unify_self (a : ValueType) : a.unify a = some a := by
  rw [unify_eq_some_iff, Set.pair_eq_singleton]
  exact isLUB_singleton

theorem unify_assoc (a b c : ValueType) : (a.unify b).bind (·.unify c) = (b.unify c).bind a.unify := by
  have first : (a.unify b).bind (·.unify c) = common? [a, b, c] := by simp [common?]
  have second : (b.unify c).bind a.unify = common? [b, c, a] := by simp [common?, unify_comm a]
  rw [first, second]
  exact common?_perm ((List.Perm.swap b a [c]).trans ((List.Perm.swap c a []).cons b))

end ValueType

namespace Typing

open ValueType

theorem choiceType_eq_ok_common {whole : Expr} {pending : List String} {alternatives : List (Expr × ValueType)}
    {t : ValueType} :
    choiceType whole pending alternatives = .ok t ↔ common? (alternatives.map Prod.snd) = some t := by
  have zipped := List.zip_of_prod (rfl : alternatives.map Prod.fst = _) (rfl : alternatives.map Prod.snd = _)
  have same : (alternatives.map Prod.fst).length = (alternatives.map Prod.snd).length := by simp
  rw [← @choiceType_eq_ok pending whole _ _ t same, ← zipped]

theorem agreed_perm {r r' : Rule} {as bs : List ValueType} (declared : r'.type = r.type) (perm : as.Perm bs) :
    agreed r' bs = agreed r as := by
  unfold agreed
  rw [declared]
  cases as with
  | nil => rw [perm.nil_eq]
  | cons a as =>
    cases bs with
    | nil => exact absurd perm.eq_nil (List.cons_ne_nil a as)
    | cons b bs => cases r.type <;> simp only [common?_perm perm]

/-- Types unify to their join, and do so just when there is a type above both. So unification is idempotent,
commutative and associative, where a failure on the way fails the whole, and the order of their types makes no difference to
the type that alternatives have, or productions, nor to whether they have one. -/
theorem unify_join :
    (∀ a b c : ValueType, a.unify b = some c ↔ IsLUB {a, b} c) ∧
    (∀ a b : ValueType, a.unify b = none ↔ ¬ BddAbove {a, b}) ∧
    (∀ a : ValueType, a.unify a = some a) ∧
    (∀ a b : ValueType, a.unify b = b.unify a) ∧
    (∀ a b c : ValueType, (a.unify b).bind (·.unify c) = (b.unify c).bind a.unify) ∧
    (∀ (as bs : List (Expr × ValueType)), as.Perm bs →
      ∀ (whole whole' : Expr) (pending pending' : List String) (t : ValueType),
      choiceType whole pending as = .ok t ↔ choiceType whole' pending' bs = .ok t) ∧
    ∀ (as bs : List ValueType), as.Perm bs → ∀ (r r' : Rule) (pending pending' : List String) (t : ValueType),
      r'.type = r.type → ((∃ inferred, productionsType r pending as = .ok inferred ∧
        ruleType r pending inferred = .ok t) ↔
        ∃ inferred, productionsType r' pending' bs = .ok inferred ∧ ruleType r' pending' inferred = .ok t) := by
  refine ⟨fun _ _ _ => unify_eq_some_iff, fun _ _ => unify_eq_none_iff, unify_self, unify_comm, unify_assoc, ?_, ?_⟩
  · intro as bs perm whole whole' pending pending' t
    rw [choiceType_eq_ok_common, choiceType_eq_ok_common, common?_perm (perm.map Prod.snd)]
  · intro as bs perm r r' pending pending' t declared
    rw [← agreed_eq_some, ← agreed_eq_some, agreed_perm declared perm]

def halves : List (Expr × ValueType) := [
  (.literal "x", .tuple [.unknown, .list (.named "b")]),
  (.literal "y", .tuple [.option (.named "a"), .unknown]),
  (.reference "z", .tuple [.unknown, .list .unknown])]

theorem halves_join : halves.reverse.Perm halves ∧
    choiceType (.choice []) [] halves.reverse = .ok (.tuple [.option (.named "a"), .list (.named "b")]) ∧
    ∃ inferred, productionsType ⟨"pair", [], none, true, none, ""⟩ [] (halves.reverse.map Prod.snd) = .ok inferred ∧
      ruleType ⟨"pair", [], none, true, none, ""⟩ [] inferred =
        .ok (.tuple [.option (.named "a"), .list (.named "b")]) := by
  have perm : halves.reverse.Perm halves := List.reverse_perm halves
  obtain ⟨_, _, _, _, _, choices, rules⟩ := unify_join
  refine ⟨perm, (choices _ _ perm _ (.choice []) _ [] _).mpr rfl, ?_⟩
  exact (rules _ _ (perm.map Prod.snd) _ ⟨"pair", [], none, true, none, ""⟩ _ [] _ rfl).mpr ⟨_, rfl, rfl⟩

end Typing

end Packrat
