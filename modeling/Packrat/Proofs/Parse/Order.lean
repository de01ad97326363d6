import Packrat.Proofs.Parse.Accord
import Packrat.Proofs.Parse.Lasting
import Packrat.Proofs.Parser

namespace Packrat

open Filter Relation

section

variable {p : TypedGrammar} {input : Input} {tangled : String → Prop} [DecidablePred tangled] {lo : Int}
  {stack : List Call} {s s' : Parse} {c : Call}

namespace Regular

theorem exists_accords (regular : Regular p input tangled s) (tangles : Tangles p.grammar tangled)
    (coherent : Coherent p input stack s) (chain : stack.IsChain (Call.Follows p.grammar)) :
    ∃ t, t.failures.Proper ∧ Accords p input tangled (fun _ => True) [] s stack s t := by
  let knotty : Parse := { memo := s.memo.filter fun e => tangled e.call.rule, stack }
  have view : Shown (fun _ => True) (fun d => tangled d.rule) 0 s knotty := by
    refine ⟨List.Pairwise.filter _ coherent.ordered, ?_, ?_⟩
    · intro d _ shown
      have filtered := Memo.get?_filter coherent.ordered (fun d => decide (tangled d.rule)) (c := d)
      rw [filtered, if_pos (decide_eq_true shown)]
      cases s.memo.get? d <;> rfl
    · intro d _ hidden
      have filtered := Memo.get?_filter coherent.ordered (fun d => decide (tangled d.rule)) (c := d)
      have other : ¬ decide (tangled d.rule) = true := fun shown => hidden (of_decide_eq_true shown)
      rw [filtered, if_neg other]
  cases stack with
  | nil => exact ⟨knotty, Failures.proper_none, coherent, regular, .among (List.append_nil []).symm (by simp) rfl view⟩
  | cons c below =>
    by_cases top : tangled c.rule
    · refine ⟨knotty, Failures.proper_none, coherent, regular, .among (List.append_nil _).symm ?_ rfl view⟩
      intro d member
      rcases List.mem_cons.mp member with rfl | member
      · exact top
      · exact tangles.tangled_of_mem chain top member
    · obtain ⟨e, found, _⟩ := coherent.found_of_mem List.mem_cons_self
      have call : e.call = c := Memo.call_of_get? found
      refine ⟨{ memo := [e.raised below.length], stack := [c] }, Failures.proper_none, coherent, regular,
        .alone rfl top rfl ⟨?_, ?_, ?_⟩ fun _ _ => rfl⟩
      · exact Memo.Ordered.insert .nil rfl
      · intro d _ here
        subst here
        simp [Memo.get?, Entry.raised, call, found]
      · intro d _ other
        have apart : (e.raised below.length).call ≠ d := fun same => other (same.symm.trans call)
        unfold Memo.get?
        rw [if_neg apart]
        exact ite_self none

theorem lasting (faithful : p.Faithful) (tangles : Tangles p.grammar tangled) :
    Lasting p input (Regular p input tangled) where
  congr := congr
  enter _ regular fresh := regular.enter fresh
  plantSeed coherent regular := regular.plantSeed coherent _ _
  answers lo {_ _} coherent chain _ regular := by
    obtain ⟨t, proper, accords⟩ := regular.exists_accords tangles coherent chain
    exact ⟨_, _, t, TypedGrammar.answering_apart faithful tangles input lo (fun _ => True) [] (fun _ _ => trivial)
      (by simp), proper, accords, fun accords => accords.regular⟩

end Regular

theorem Sound.call_fresh {name : String} {i : Int} {depth : Nat} (faithful : p.Faithful)
    (tangles : Tangles p.grammar tangled) (sound : Sound p input lo stack ⟨depth, .call name, i, s⟩)
    (regular : Regular p input tangled s) (clear : ∀ c e, s.memo.get? c = some e →
      ReflTransGen p.grammar.Refers name c.rule → i ≤ c.start → ¬ tangled c.rule ∧ c ∉ stack) :
    ∃ outcome state fresh, p.callWithin input depth name i .unlimited s = (outcome, state) ∧
      p.apply input name i .unlimited {} = (outcome, fresh) ∧
      ((∀ h, outcome ≠ .halted h) → state.failures = s.failures.merge fresh.failures) := by
  let V : Call → Prop := fun c => ReflTransGen p.grammar.Refers name c.rule ∧ i ≤ c.start
  have closed : ∀ {inner outer}, V outer → inner.Follows p.grammar outer → V inner :=
    fun concerned follows => ⟨concerned.1.tail follows.refers, Int.le_trans concerned.2 follows.behind⟩
  have concerned : V ⟨i, name⟩ := ⟨.refl, Int.le_refl i⟩
  have outside : ∀ c ∈ stack, ¬ V c := by
    intro c member ⟨reaches, behind⟩
    obtain ⟨e, found, _⟩ := sound.coherent.found_of_mem member
    exact (clear c e found reaches behind).2 member
  have apart : Accords p input tangled V stack s stack s {} := by
    refine ⟨sound.coherent, regular, .among (List.nil_append stack).symm (by simp) rfl ⟨.nil, ?_, fun _ _ => rfl⟩⟩
    intro c ⟨reaches, behind⟩ knotty
    cases found : s.memo.get? c with
    | none => rfl
    | some e => exact absurd knotty (clear c e found reaches behind).1
  have fresh : Accords p input tangled V [] {} [] {} {} := by
    refine ⟨.initial [], ⟨fun _ found => by cases found⟩, ?_⟩
    exact .among (List.append_nil []).symm (by simp) rfl ⟨.nil, fun _ _ => rfl, fun _ _ => rfl⟩
  obtain ⟨chain, within⟩ := sound.placed
  obtain ⟨o, s₁, t₁, run, runs, ends⟩ := (TypedGrammar.answering_apart faithful tangles input lo V stack closed
    outside).tracks concerned sound.standing chain within sound.enough s {} apart sound.proper Failures.proper_none
  obtain ⟨o', s₂, t₂, run', runs', ends'⟩ := (TypedGrammar.answering_apart faithful tangles input i V [] closed
    (by simp)).tracks_apply {} concerned {} {} fresh Failures.proper_none Failures.proper_none
  obtain ⟨d, here, there⟩ := (runs.and runs').exists
  rw [here] at there
  cases there
  refine ⟨o, s₁, s₂, run, run', fun ended => ?_⟩
  have agreed : ∀ {R R' : Parse → Parse → Prop}, Agree R s {} s₁ t₁ → Agree R' {} {} s₂ t₁ →
      s₁.failures = s.failures.merge s₂.failures := by
    intro R R' ⟨_, own, proper, left, right⟩ ⟨_, own', _, left', right'⟩
    rw [left, left', ← right', right, Failures.none_merge proper]
  cases ends with
  | halted => exact absurd rfl (ended _)
  | failed agree =>
    cases ends' with
    | failed agree' => exact agreed agree agree'
  | matched agree =>
    cases ends' with
    | matched agree' => exact agreed agree agree'

end

namespace Parser

/-- From the rule one can get to a cycle of several rules. -/
def Tangled (parser : Parser) (name : String) : Prop :=
  ∃ other cycle, ReflTransGen parser.grammar.Refers name other ∧ cycle ∈ parser.leftRecursion.cycles ∧
    other ∈ cycle ∧ 1 < cycle.length

/-- No rule that is tangled or being evaluated is on record where a call begins or behind, if the call can
get to the rule. -/
def Clear (parser : Parser) (s : Parse) (name : String) (i : Int) : Prop :=
  ∀ c e, s.memo.get? c = some e → ReflTransGen parser.grammar.Refers name c.rule → i ≤ c.start →
    ¬ parser.Tangled c.rule ∧ c ∉ s.stack

variable {g : Grammar} {actions : List (String × Action)} {parser : Parser} {input : Input} {s : Parse}

theorem tangles_tangled (compiled : Reporting.Gives (ofGrammar g actions) parser) :
    Tangles parser.typed.grammar parser.Tangled where
  closed := by
    intro name other untangled refers ⟨last, cycle, reaches, rest⟩
    exact untangled ⟨last, cycle, .head refers reaches, rest⟩
  alone := by
    intro name other untangled there back
    by_contra apart
    obtain ⟨cycle, listed, within⟩ := exists_cycle compiled (there.trans back)
    have first := within name .refl .refl
    have second := within other there.to_reflTransGen back.to_reflTransGen
    refine untangled ⟨name, cycle, .refl, listed, first, ?_⟩
    cases cycle with
    | nil => cases first
    | cons a rest =>
      cases rest with
      | nil => simp_all
      | cons b rest => simp

def stop? {α : Type} : Outcome α → Option Int
  | .matched _ stop => some stop
  | _ => none

theorem ended_of_stop? {α : Type} {o : Outcome α} {stop : Int} (matched : stop? o = some stop) (h : Halt) :
    o ≠ .halted h := by
  intro same
  subst same
  cases matched

def crossed : Grammar where
  rules := [⟨"A", [⟨[.reference "B", .literal "x"], none⟩, ⟨[.literal "a"], none⟩], none, true, none, ""⟩,
    ⟨"B", [⟨[.reference "A", .literal "y"], none⟩, ⟨[.literal "a"], none⟩], none, true, none, ""⟩]
  tokens := []
  states := []
  name := "crossed"
  distinctRules := by decide
  distinctTokens := Grammar.distinctTokens_nil
  disjoint := by decide
  distinctInStates := Grammar.distinctInStates_nil

end Parser

end Packrat
