import Packrat.Parse.Apply
import Packrat.Proofs.Parse.Walk

namespace Packrat

variable {α β : Type}

/-- Work that a limit to the room leaves as it is, unless it ends it. -/
def Run.Steady (m : Run α) : Prop :=
  ∀ room s, (∃ s', m room s = (.halted .nestedTooDeeply, s')) ∨ m room s = m .unlimited s

namespace Run.Steady

theorem run_unlimited {m : Run α} {room : Room} {s s' : Parse} {o : Outcome α} (steady : m.Steady)
    (run : m room s = (o, s')) (ended : ∀ h, o ≠ .halted h) : m .unlimited s = (o, s') := by
  rcases steady room s with ⟨s₂, cut⟩ | same
  · rw [cut] at run
    cases run
    exact absurd rfl (ended _)
  · exact same ▸ run

theorem of_const {m : Run α} (same : ∀ room s, m room s = m .unlimited s) : m.Steady :=
  fun room s => .inr (same room s)

theorem nested {m : Run α} (levels : Nat) (steady : m.Steady) : (Run.nested levels m).Steady := by
  intro room s
  unfold Run.nested
  cases room.take? levels with
  | none => exact .inl ⟨s, rfl⟩
  | some left => exact steady left s

theorem inRoomFor {m : Run α} (levels : Nat) (steady : m.Steady) : (Run.inRoomFor levels m).Steady := by
  intro room s
  unfold Run.inRoomFor
  split
  · exact steady room s
  · exact .inl ⟨s, rfl⟩

theorem split {m : Run α} {matched : α → Int → Run β} {failed : Run β} (first : m.Steady)
    (second : ∀ a stop, (matched a stop).Steady) (third : failed.Steady) : (m.split matched failed).Steady := by
  intro room s
  rcases first room s with ⟨s', cut⟩ | same
  · exact .inl ⟨s', split_of_halted cut⟩
  · cases run : m .unlimited s with
    | mk o s' =>
      rw [run] at same
      cases o with
      | matched a stop =>
        rw [split_of_matched same, split_of_matched run]
        exact second a stop room s'
      | failed =>
        rw [split_of_failed same, split_of_failed run]
        exact third room s'
      | halted h => exact .inr ((split_of_halted same).trans (split_of_halted run).symm)

theorem negate {m : Run Value} (index : Int) (what : String) (steady : m.Steady) :
    (Run.negate m index what).Steady := by
  intro room s
  rcases steady room { s with failures := {} } with ⟨s', cut⟩ | same
  · exact .inl ⟨s', by simp only [Run.negate, cut]⟩
  · right
    simp only [Run.negate, same, Run.fail]

theorem named {m : Run Value} (name : String) (index : Int) (steady : m.Steady) :
    (Run.named name index m).Steady := by
  intro room s
  rcases steady room { s with failures := {} } with ⟨s', cut⟩ | same
  · exact .inl ⟨s', by simp only [Run.named, cut]⟩
  · right
    simp only [Run.named, same]

theorem finish (q : TypedProduction) (start : Int) (values : List Value) (stop : Int) :
    (TypedGrammar.finish q start values stop).Steady :=
  inRoomFor 3 (of_const fun _ _ => rfl)

theorem kept : Run.Kept fun _ m => m.Steady where
  done _ _ := of_const fun _ _ => rfl
  noMatch := of_const fun _ _ => rfl
  halt _ := of_const fun _ _ => rfl
  fail _ _ := of_const fun _ _ => rfl
  finish := finish
  nested := nested
  split := split
  negate := negate
  named := named

theorem growFrom {body : Run Value} (c : Call) (steady : body.Steady) (rounds : Nat) (v : Value) (stop : Int) :
    (growFrom body c rounds v stop).Steady := by
  induction rounds generalizing v stop with
  | zero => exact of_const fun _ _ => rfl
  | succ rounds ih =>
    intro room s
    rcases steady room (s.plantSeed c v stop) with ⟨s', cut⟩ | same
    · exact .inl ⟨s', by simp only [Packrat.growFrom, cut]⟩
    · simp only [Packrat.growFrom, same]
      obtain ⟨o, s'⟩ := body .unlimited (s.plantSeed c v stop)
      cases o with
      | failed => exact .inr rfl
      | halted h => exact .inr rfl
      | matched v' stop' =>
        dsimp only
        split
        · exact .inr rfl
        · exact ih v' stop' room s'

theorem settle {body : Run Value} (c : Call) (size : Nat) (steady : body.Steady) (v : Value) (stop : Int) :
    (settle body c size v stop).Steady := by
  intro room s
  simp only [Packrat.settle]
  split
  · exact nested 1 (growFrom c steady _ v stop) room s
  · exact .inr rfl

theorem evaluateCall {body : Run Value} (c : Call) (size : Nat) (steady : body.Steady) :
    (evaluateCall body c size).Steady := by
  refine inRoomFor 2 fun room s => ?_
  rcases kept.andThen steady (settle c size steady) room (s.enter c) with ⟨s', cut⟩ | same
  · exact .inl ⟨s'.leave c s.failures, by simp only [cut]⟩
  · exact .inr (by simp only [same])

end Run.Steady

namespace TypedGrammar

open Run

variable {p : TypedGrammar} {input : Input}

theorem steady_callWithin (depth : Nat) (name : String) (i : Int) :
    (p.callWithin input depth name i).Steady := by
  induction depth generalizing name i with
  | zero =>
    unfold callWithin
    refine .nested 1 (.of_const fun room s => ?_)
    cases s.memo.get? ⟨i, name⟩ with
    | some e => rfl
    | none => cases p.typed? name <;> rfl
  | succ depth ih =>
    unfold callWithin
    refine .nested 1 fun room s => ?_
    cases s.memo.get? ⟨i, name⟩ with
    | some e => exact .inr rfl
    | none =>
      cases p.typed? name with
      | none => exact .inr rfl
      | some typed => exact Steady.evaluateCall _ _ (Steady.kept.body ih typed i) room s

theorem steady_apply (name : String) (i : Int) : (p.apply input name i).Steady :=
  steady_callWithin _ name i

end TypedGrammar

end Packrat
