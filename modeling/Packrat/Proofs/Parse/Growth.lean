import Packrat.Proofs.Parse.Coherence
import Packrat.Proofs.Parse.Tracking

namespace Packrat

open Filter

/-- States that stay related while the seed of a call grows, in the second parse perhaps that of another one. -/
structure Growing (R : Parse → Parse → Prop) (Q : Value → Int → Prop) (c c' : Call) (size : Nat) : Prop where
  blind : Blind R
  bounded : ∀ {v stop}, Q v stop → c.start ≤ stop ∧ stop ≤ max c.start size
  plantSeed : ∀ {s t v stop}, R s t → Q v stop → R (s.plantSeed c v stop) (t.plantSeed c' v stop)
  isReentered : ∀ {s t}, R s t → s.isReentered c = t.isReentered c'

variable {R G : Parse → Parse → Prop} {H : Halt → Prop} {Q : Value → Int → Prop} {c c' : Call} {size : Nat}
  {body : Run Value} {bodies : Nat → Run Value}

namespace Tracks

theorem growFrom (growing : Growing R Q c c' size) (tracks : Tracks R H Q body bodies) {rounds : Nat} {v : Value}
    {stop : Int} (holds : Q v stop) (enough : (size - stop).toNat < rounds) :
    Tracks R H Q (growFrom body c rounds v stop) fun d => growFrom (bodies d) c' rounds v stop := by
  induction rounds generalizing v stop with
  | zero => omega
  | succ rounds ih =>
    intro s t related properLeft properRight
    have reported : ∀ {s₁ t₁}, Agree R s t s₁ t₁ →
        Ends R H Q s t (.matched v stop) (s₁.reportGrowth c stop) (t₁.reportGrowth c' stop) :=
      fun agree => .matched ⟨growing.blind agree.related rfl rfl rfl rfl, agree.failures⟩ holds
    obtain ⟨o, s₁, t₁, run, runs, ends⟩ := tracks _ _ (growing.plantSeed related holds) properLeft properRight
    cases ends with
    | halted allowed =>
      refine ⟨_, s₁, t₁, by simp [Packrat.growFrom, run], ?_, .halted allowed⟩
      filter_upwards [runs] with d here
      simp [Packrat.growFrom, here]
    | failed agree =>
      refine ⟨_, _, _, by simp only [Packrat.growFrom, run], ?_, reported ⟨agree.related, agree.failures⟩⟩
      filter_upwards [runs] with d here
      simp only [Packrat.growFrom, here]
    | @matched v' stop' _ _ agree holds' =>
      by_cases shorter : stop' ≤ stop
      · refine ⟨_, _, _, by simp only [Packrat.growFrom, run, if_pos shorter], ?_,
          reported ⟨agree.related, agree.failures⟩⟩
        filter_upwards [runs] with d here
        simp only [Packrat.growFrom, here, if_pos shorter]
      · have old := growing.bounded holds
        have new := growing.bounded holds'
        obtain ⟨o, s₂, t₂, run', runs', ends⟩ := ih holds' (by omega) s₁ t₁ agree.related
          (agree.proper_left properLeft) (agree.proper_right properRight)
        refine ⟨o, s₂, t₂, by simp only [Packrat.growFrom, run, if_neg shorter, run'], ?_,
          ends.after ⟨agree.related, agree.failures⟩⟩
        filter_upwards [runs, runs'] with d here there
        simp only [Packrat.growFrom, here, if_neg shorter, there]

theorem settle (growing : Growing R Q c c' size) (tracks : Tracks R H Q body bodies) {v : Value} {stop : Int}
    (holds : Q v stop) : Tracks R H Q (settle body c size v stop) fun d => settle (bodies d) c' size v stop := by
  intro s t related properLeft properRight
  have same := growing.isReentered related
  simp only [Meets, Packrat.settle, Run.nested_unlimited, ← same]
  by_cases again : s.isReentered c = true
  · simp only [again, if_true]
    exact growFrom growing tracks holds (Nat.lt_succ_self _) s t related properLeft properRight
  · simp only [again]
    exact done holds s t related properLeft properRight

end Tracks

section

variable {room : Room} {s s' : Parse}

theorem evaluateCall_of_halted {h : Halt} (fits : room.holds 2)
    (run : body.andThen (settle body c size) room (s.enter c) = (.halted h, s')) :
    evaluateCall body c size room s = (.halted h, s'.leave c s.failures) := by
  simp only [evaluateCall, Run.inRoomFor, fits, run, if_true]

theorem evaluateCall_of_result {result : Result} (fits : room.holds 2)
    (run : body.andThen (settle body c size) room (s.enter c) = (.ofResult result, s')) :
    evaluateCall body c size room s = (.ofResult result, (s'.leave c s.failures).remember c result) := by
  cases result with
  | none => simp only [evaluateCall, Run.inRoomFor, fits, run, Outcome.ofResult, if_true]
  | some found => simp only [evaluateCall, Run.inRoomFor, fits, run, Outcome.ofResult, if_true]

end

namespace Ends

variable {s t s' t' : Parse} {o : Outcome Value} {result : Result}

theorem ofResult (agree : Agree R s t s' t') (holds : ∀ v stop, result = some (v, stop) → Q v stop) :
    Ends R H Q s t (.ofResult result) s' t' := by
  cases result with
  | none => exact .failed agree
  | some found => exact .matched agree (holds _ _ rfl)

theorem halted_or_result (ends : Ends R H Q s t o s' t') : (∃ h, o = .halted h ∧ H h) ∨
    ∃ result, o = .ofResult result ∧ Agree R s t s' t' ∧ ∀ v stop, result = some (v, stop) → Q v stop := by
  cases ends with
  | halted allowed => exact .inl ⟨_, rfl, allowed⟩
  | failed agree => exact .inr ⟨none, rfl, agree, nofun⟩
  | @matched v stop _ _ agree holds =>
    refine .inr ⟨some (v, stop), rfl, agree, fun w stop' same => ?_⟩
    cases same
    exact holds

end Ends

theorem Meets.evaluateCall {s t : Parse} (growing : Growing G Q c c' size) (tracks : Tracks G H Q body bodies)
    (entered : G (s.enter c) (t.enter c'))
    (concluded : ∀ {s' t' result}, G s' t' → s'.failures = t'.failures → s'.failures.Proper →
      (∀ v stop, result = some (v, stop) → Q v stop) →
        R ((s'.leave c s.failures).remember c result) ((t'.leave c' t.failures).remember c' result)) :
    Meets R H Q (evaluateCall body c size) (fun d => evaluateCall (bodies d) c' size) s t := by
  have whole := Tracks.andThen tracks fun v stop holds => Tracks.settle growing tracks holds
  obtain ⟨o, s₁, t₁, run, runs, ends⟩ := whole _ _ entered Failures.proper_none Failures.proper_none
  rcases ends.halted_or_result with ⟨h, rfl, allowed⟩ | ⟨result, rfl, agree, holds⟩
  · refine ⟨_, _, t₁.leave c' t.failures, evaluateCall_of_halted rfl run, ?_, .halted allowed⟩
    exact runs.mono fun d here => evaluateCall_of_halted rfl here
  · refine ⟨_, _, _, evaluateCall_of_result rfl run,
      runs.mono fun d here => evaluateCall_of_result rfl here, .ofResult ?_ holds⟩
    obtain ⟨related, own, proper, left, right⟩ := agree
    rw [show (s.enter c).failures = {} from rfl, Failures.none_merge proper] at left
    rw [show (t.enter c').failures = {} from rfl, Failures.none_merge proper] at right
    refine ⟨concluded related (left.trans right.symm) (left ▸ proper) holds, own, proper, ?_, ?_⟩
    · rw [Parse.failures_conclude, left]
    · rw [Parse.failures_conclude, right]

end Packrat
