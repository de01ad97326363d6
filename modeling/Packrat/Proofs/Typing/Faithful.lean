import Packrat.Parse.Evaluate
import Packrat.Proofs.Reporting
import Packrat.Proofs.Typing.Checked

namespace Packrat

namespace Typing

def Reads (typed : TypedProduction) (production : Production) : Prop :=
  typed.items = Expr.allLaidOpen production.items ∧ typed.mask = Expr.contributing typed.items

structure Describes (r : Rule) (typed : TypedRule) : Prop where
  name : typed.name = r.name
  errorName : typed.errorName = r.errorName
  productions : List.Forall₂ Reads typed.productions r.productions

theorem Describes.production {r : Rule} {typed : TypedRule} {q : TypedProduction}
    (describes : Describes r typed) (listed : q ∈ typed.productions) :
    ∃ production ∈ r.productions, Reads q production :=
  exists_of_forall₂ describes.productions listed

section

variable {ctx : Context} {pending : List String} {r : Rule} {production : Production} {q : TypedProduction}

theorem findAction_eq {spec : ActionSpec} {action : Option Action} (found : findAction ctx pending spec = .ok action) :
    findAction ctx [] spec = .ok action := by
  unfold findAction at found ⊢
  split at found
  · exact found
  · exact found
  · split at found
    · exact found
    · cases found

theorem given_of_findAction {spec : ActionSpec} {action : Action}
    (found : findAction ctx pending spec = .ok (some action)) :
    spec.callable = some action ∨ ∃ name, spec.name = some name ∧ ctx.actions.lookup name = some action := by
  unfold findAction at found
  split at found
  · next given =>
    cases found
    exact .inl given
  · cases found
  · next name _ asked =>
    split at found
    · next known =>
      cases found
      exact .inr ⟨name, asked, known⟩
    · cases found

theorem typedProduction_cases {items : List Expr} {types : List ValueType}
    (made : typedProduction ctx pending r production items types = .ok q) :
    q.items = items ∧ q.mask = Expr.contributing items ∧
      ((production.action = none ∧ q.action = none ∧ q.type = .gather (select q.mask types)) ∨
        ∃ spec, production.action = some spec ∧ findAction ctx [] spec = .ok q.action ∧
          q.type = actionType r spec) := by
  obtain ⟨bindings, _, made⟩ := ok_of_bind made
  split at made
  · next spec asked =>
    obtain ⟨action, found, made⟩ := ok_of_bind made
    cases made
    exact ⟨rfl, rfl, .inr ⟨spec, asked, findAction_eq found, rfl⟩⟩
  · next plain =>
    cases made
    exact ⟨rfl, rfl, .inl ⟨plain, rfl, rfl⟩⟩

end

theorem Checked.describes {ctx : Context} {rules : List (String × TypedRule)} {r : Rule} {typed : TypedRule}
    (checked : Checked ctx rules r typed) : Describes r typed := by
  refine ⟨checked.name, checked.errorName, checked.productions.imp fun q production made => ?_⟩
  obtain ⟨_, _, _, made⟩ := made
  obtain ⟨items, mask, _⟩ := typedProduction_cases made
  exact ⟨items, items ▸ mask⟩

end Typing

namespace TypedGrammar

def Faithful (p : TypedGrammar) : Prop :=
  ∀ {name : String} {typed : TypedRule}, p.typed? name = some typed →
    ∃ r, p.grammar.rule? name = some r ∧ Typing.Describes r typed

theorem faithful_of_typedRules {g : Grammar} {actions : List (String × Action)}
    {typedRules : List (String × TypedRule)} (typed : Typing.typedRules g actions = .ok typedRules) :
    Faithful ⟨g, typedRules⟩ := by
  intro name rule known
  obtain ⟨r, found, checked⟩ := (Typing.complete_of_typedRules typed).checked known
  exact ⟨r, found, checked.describes⟩

end TypedGrammar

end Packrat
