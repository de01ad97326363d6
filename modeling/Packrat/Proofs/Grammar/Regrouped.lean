import Mathlib.Logic.Relation
import Packrat.Grammar.Basic
import Packrat.Proofs.Lists

namespace Packrat

open Relation

namespace Expr

/-- Some of the items, which stand in a row, become one sequence. There may be none of them. -/
inductive Groups : List Expr → List Expr → Prop where
  | group (before inner after : List Expr) : Groups (before ++ inner ++ after) (before ++ .sequence inner :: after)

def Regrouped : List Expr → List Expr → Prop := EqvGen Groups

variable {as bs cs ds : List Expr}

theorem Groups.within (groups : Groups as bs) (before after : List Expr) :
    Groups (before ++ as ++ after) (before ++ bs ++ after) := by
  obtain ⟨front, inner, back⟩ := groups
  simpa using Groups.group (before ++ front) inner (back ++ after)

theorem Regrouped.within (regrouped : Regrouped as bs) (before after : List Expr) :
    Regrouped (before ++ as ++ after) (before ++ bs ++ after) := by
  induction regrouped with
  | rel as bs groups => exact .rel _ _ (groups.within before after)
  | refl as => exact .refl _
  | symm as bs _ ih => exact .symm _ _ ih
  | trans as bs cs _ _ first second => exact .trans _ _ _ first second

theorem Regrouped.append (front : Regrouped as bs) (back : Regrouped cs ds) : Regrouped (as ++ cs) (bs ++ ds) := by
  have first : Regrouped (as ++ cs) (bs ++ cs) := front.within [] cs
  have second : Regrouped (bs ++ cs) (bs ++ ds) := by simpa using back.within bs []
  exact .trans _ _ _ first second

theorem allLaidOpen_append (as bs : List Expr) : allLaidOpen (as ++ bs) = allLaidOpen as ++ allLaidOpen bs := by
  induction as with
  | nil => rfl
  | cons e es ih => rw [List.cons_append, allLaidOpen, ih, allLaidOpen, List.append_assoc]

mutual
theorem regrouped_laidOpen : ∀ e : Expr, Regrouped (laidOpen e) [e]
  | .sequence items => by
    have groups : Groups items [.sequence items] := by simpa using Groups.group [] items []
    exact .trans _ _ _ (regrouped_allLaidOpen items) (.rel _ _ groups)
  | .literal _ | .oneOf _ | .reference _ | .choice _ | .optional _ | .repetition _ _ | .bind _ _
  | .ahead _ | .notAhead _ | .unknown _ => .refl _

theorem regrouped_allLaidOpen : ∀ es : List Expr, Regrouped (allLaidOpen es) es
  | [] => .refl _
  | e :: es => (regrouped_laidOpen e).append (regrouped_allLaidOpen es)
end

theorem Regrouped.congr {α : Type} {f : List Expr → α} (regrouped : Regrouped as bs)
    (same : ∀ before inner after, f (before ++ .sequence inner :: after) = f (before ++ inner ++ after)) :
    f bs = f as := by
  induction regrouped with
  | rel as bs groups =>
    obtain ⟨before, inner, after⟩ := groups
    exact same before inner after
  | refl as => rfl
  | symm as bs _ ih => exact ih.symm
  | trans as bs cs _ _ first second => exact second.trans first

theorem Regrouped.allLaidOpen_eq (regrouped : Regrouped as bs) : allLaidOpen bs = allLaidOpen as := by
  refine regrouped.congr fun before inner after => ?_
  simp only [allLaidOpen_append, allLaidOpen, laidOpen, List.append_assoc]

theorem regrouped_iff : Regrouped as bs ↔ allLaidOpen as = allLaidOpen bs := by
  refine ⟨fun regrouped => regrouped.allLaidOpen_eq.symm, fun same => ?_⟩
  have open₁ : Regrouped as (allLaidOpen as) := .symm _ _ (regrouped_allLaidOpen as)
  have open₂ : Regrouped (allLaidOpen as) bs := same ▸ regrouped_allLaidOpen bs
  exact .trans _ _ _ open₁ open₂

theorem firstUnshowable?_append (as bs : List Expr) :
    firstUnshowable? (as ++ bs) = (firstUnshowable? as).or (firstUnshowable? bs) := by
  induction as with
  | nil => rfl
  | cons e es ih => rw [List.cons_append, firstUnshowable?, ih, firstUnshowable?, Option.or_assoc]

theorem Regrouped.firstUnshowable?_eq (regrouped : Regrouped as bs) : firstUnshowable? bs = firstUnshowable? as := by
  refine regrouped.congr fun before inner after => ?_
  simp only [firstUnshowable?_append, firstUnshowable?, unshowable?, Option.or_assoc]

end Expr

def Production.Regrouped (p p' : Production) : Prop := ∃ items, p' = { p with items } ∧ Expr.Regrouped p.items items

def Rule.Regrouped (r r' : Rule) : Prop :=
  ∃ productions, r' = { r with productions } ∧ List.Forall₂ Production.Regrouped r.productions productions

namespace Grammar

/-- The same grammar but for how the items of its productions are grouped into sequences. -/
structure Regrouped (g h : Grammar) : Prop where
  rules : List.Forall₂ Rule.Regrouped g.rules h.rules
  tokens : h.tokens = g.tokens
  states : h.states = g.states
  name : h.name = g.name

namespace Regrouped

variable {g h : Grammar}

theorem ruleNames (regrouped : g.Regrouped h) : h.ruleNames = g.ruleNames := by
  refine map_eq_of_forall₂ regrouped.rules fun r r' rules => ?_
  obtain ⟨_, rfl, _⟩ := rules
  rfl

theorem entries (regrouped : g.Regrouped h) : h.entries = g.entries := by
  have each := regrouped.rules
  unfold Grammar.entries Rule.names
  generalize g.rules = rules, h.rules = rules' at each
  induction each with
  | nil => rfl
  | cons here _ ih =>
    obtain ⟨_, rfl, _⟩ := here
    simp only [List.filter_cons]
    split
    · rw [List.map_cons, List.map_cons, ih]
    · exact ih

theorem rule? (regrouped : g.Regrouped h) (name : String) :
    Option.Rel Rule.Regrouped (g.rule? name) (h.rule? name) := by
  have each := regrouped.rules
  unfold Grammar.rule?
  generalize g.rules = rules, h.rules = rules' at each
  induction each with
  | nil => exact .none
  | cons here _ ih =>
    obtain ⟨productions, rfl, groups⟩ := here
    simp only [List.find?_cons]
    split
    · exact .some ⟨productions, rfl, groups⟩
    · exact ih

theorem token? (regrouped : g.Regrouped h) (name : String) : h.token? name = g.token? name := by
  rw [Grammar.token?, Grammar.token?, regrouped.tokens]

theorem usesTokens (regrouped : g.Regrouped h) : h.usesTokens = g.usesTokens := by
  rw [Grammar.usesTokens, Grammar.usesTokens, regrouped.tokens]

end Regrouped

end Grammar

end Packrat
