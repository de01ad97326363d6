import Mathlib.Order.Filter.AtTopBot.Basic
import Packrat.Parse.Apply
import Packrat.Proofs.Parse.Failures

namespace Packrat

open Filter

variable {α β : Type} {R : Parse → Parse → Prop} {H : Halt → Prop}

namespace Run

variable {m : Run α} {next : α → Int → Run β} {room : Room} {s s' : Parse}

theorem andThen_of_halted {h : Halt} (run : m room s = (.halted h, s')) :
    m.andThen next room s = (.halted h, s') := by
  simp only [andThen, run]

theorem andThen_of_failed (run : m room s = (.failed, s')) : m.andThen next room s = (.failed, s') := by
  simp only [andThen, run]

theorem andThen_of_matched {a : α} {stop : Int} (run : m room s = (.matched a stop, s')) :
    m.andThen next room s = next a stop room s' := by
  simp only [andThen, run]

end Run

def Blind (R : Parse → Parse → Prop) : Prop :=
  ∀ {s t s' t' : Parse}, R s t → s'.memo = s.memo → s'.stack = s.stack → t'.memo = t.memo →
    t'.stack = t.stack → R s' t'

structure Agree (R : Parse → Parse → Prop) (s t s' t' : Parse) : Prop where
  related : R s' t'
  failures : ∃ own : Failures, own.Proper ∧ s'.failures = s.failures.merge own ∧
    t'.failures = t.failures.merge own

namespace Agree

theorem stay {s t s' t' : Parse} (related : R s' t') (first : s.failures.Proper)
    (second : t.failures.Proper) (left : s'.failures = s.failures) (right : t'.failures = t.failures) :
    Agree R s t s' t' := by
  refine ⟨related, {}, Failures.proper_none, ?_, ?_⟩
  · rw [left, Failures.merge_none first]
  · rw [right, Failures.merge_none second]

theorem trans {s t s₁ t₁ s₂ t₂ : Parse} (first : Agree R s t s₁ t₁) (second : Agree R s₁ t₁ s₂ t₂) :
    Agree R s t s₂ t₂ := by
  obtain ⟨_, own, proper, left, right⟩ := first
  obtain ⟨related, later, properLater, leftLater, rightLater⟩ := second
  refine ⟨related, own.merge later, proper.merge properLater, ?_, ?_⟩
  · rw [leftLater, left, Failures.merge_assoc]
  · rw [rightLater, right, Failures.merge_assoc]

theorem proper_left {s t s' t' : Parse} (agree : Agree R s t s' t') (proper : s.failures.Proper) :
    s'.failures.Proper := by
  obtain ⟨_, own, properOwn, left, _⟩ := agree
  rw [left]
  exact proper.merge properOwn

theorem proper_right {s t s' t' : Parse} (agree : Agree R s t s' t') (proper : t.failures.Proper) :
    t'.failures.Proper := by
  obtain ⟨_, own, properOwn, _, right⟩ := agree
  rw [right]
  exact proper.merge properOwn

end Agree

/-- How two runs end that started in `s` and `t`: in the same outcome, which is as it should be. -/
inductive Ends (R : Parse → Parse → Prop) (H : Halt → Prop) (Q : α → Int → Prop) (s t : Parse) :
    Outcome α → Parse → Parse → Prop where
  | halted {h s' t'} (allowed : H h) : Ends R H Q s t (.halted h) s' t'
  | failed {s' t'} (agree : Agree R s t s' t') : Ends R H Q s t .failed s' t'
  | matched {a stop s' t'} (agree : Agree R s t s' t') (holds : Q a stop) :
    Ends R H Q s t (.matched a stop) s' t'

theorem Ends.after {Q : α → Int → Prop} {s t s₁ t₁ s₂ t₂ : Parse} {o : Outcome α}
    (first : Agree R s t s₁ t₁) (ends : Ends R H Q s₁ t₁ o s₂ t₂) : Ends R H Q s t o s₂ t₂ := by
  cases ends with
  | halted allowed => exact .halted allowed
  | failed later => exact .failed (first.trans later)
  | matched later holds => exact .matched (first.trans later) holds

theorem Ends.imp {Q : α → Int → Prop} {R' : Parse → Parse → Prop} {s t s' t' : Parse} {o : Outcome α}
    (weaker : R s' t' → R' s' t') (ends : Ends R H Q s t o s' t') : Ends R' H Q s t o s' t' := by
  cases ends with
  | halted allowed => exact .halted allowed
  | failed agree => exact .failed ⟨weaker agree.related, agree.failures⟩
  | matched agree holds => exact .matched ⟨weaker agree.related, agree.failures⟩ holds

theorem Ends.failures_eq {Q : α → Int → Prop} {s t s' t' : Parse} {o : Outcome α} (ends : Ends R H Q s t o s' t')
    (same : s.failures = t.failures) (ended : ∀ h, o ≠ .halted h) : s'.failures = t'.failures := by
  cases ends with
  | halted => exact absurd rfl (ended _)
  | failed agree | matched agree =>
    obtain ⟨own, _, left, right⟩ := agree.failures
    rw [left, right, same]

/-- Without a limit to the room, `n` does from `t` in the end what `m` does from `s`. -/
def Meets (R : Parse → Parse → Prop) (H : Halt → Prop) (Q : α → Int → Prop) (m : Run α)
    (n : Nat → Run α) (s t : Parse) : Prop :=
  ∃ o s' t', m .unlimited s = (o, s') ∧ (∀ᶠ d in atTop, n d .unlimited t = (o, t')) ∧
    Ends R H Q s t o s' t'

def Tracks (R : Parse → Parse → Prop) (H : Halt → Prop) (Q : α → Int → Prop) (m : Run α)
    (n : Nat → Run α) : Prop :=
  ∀ s t, R s t → s.failures.Proper → t.failures.Proper → Meets R H Q m n s t

namespace Meets

variable {Q : α → Int → Prop} {m : Run α} {n : Nat → Run α} {s t s' : Parse}

theorem of_matched {a : α} {stop : Int} (meets : Meets R H Q m n s t)
    (run : m .unlimited s = (.matched a stop, s')) : ∃ t', Agree R s t s' t' ∧ Q a stop := by
  obtain ⟨o, s₁, t₁, run', _, ends⟩ := meets
  rw [run] at run'
  cases run'
  cases ends with
  | matched agree holds => exact ⟨t₁, agree, holds⟩

theorem of_failed (meets : Meets R H Q m n s t) (run : m .unlimited s = (.failed, s')) :
    ∃ t', Agree R s t s' t' := by
  obtain ⟨o, s₁, t₁, run', _, ends⟩ := meets
  rw [run] at run'
  cases run'
  cases ends with
  | failed agree => exact ⟨t₁, agree⟩

theorem own {o : Outcome α} (meets : Meets R H Q m n s t) (none : s.failures = {})
    (run : m .unlimited s = (o, s')) (ended : ∀ h, o ≠ .halted h) :
    ∃ t', (∀ᶠ d in atTop, n d .unlimited t = (o, t')) ∧ R s' t' ∧ s'.failures.Proper ∧
      t'.failures = t.failures.merge s'.failures := by
  obtain ⟨o', s₁, t₁, run', runs, ends⟩ := meets
  rw [run] at run'
  cases run'
  have added : Agree R s t s' t₁ → s'.failures.Proper ∧ t₁.failures = t.failures.merge s'.failures := by
    intro ⟨_, own, proper, left, right⟩
    rw [none, Failures.none_merge proper] at left
    rw [left]
    exact ⟨proper, right⟩
  cases ends with
  | halted => exact absurd rfl (ended _)
  | failed agree => exact ⟨t₁, runs, agree.related, added agree⟩
  | matched agree => exact ⟨t₁, runs, agree.related, added agree⟩

end Meets

theorem eventually_of_succ {P : Nat → Prop} (eventually : ∀ᶠ d in atTop, P (d + 1)) : ∀ᶠ d in atTop, P d := by
  obtain ⟨least, from'⟩ := eventually_atTop.mp eventually
  refine eventually_atTop.mpr ⟨least + 1, fun d large => ?_⟩
  obtain ⟨d, rfl⟩ := Nat.exists_eq_add_of_le' (Nat.le_of_add_left_le large)
  exact from' d (by omega)

theorem Meets.of_succ {Q : α → Int → Prop} {m : Run α} {n : Nat → Run α} {s t : Parse}
    (meets : Meets R H Q m (fun d => n (d + 1)) s t) : Meets R H Q m n s t := by
  obtain ⟨o, s', t', run, runs, ends⟩ := meets
  exact ⟨o, s', t', run, eventually_of_succ runs, ends⟩

namespace Tracks

variable {Q : α → Int → Prop} {P : β → Int → Prop}

theorem weaken {m : Run α} {n : Nat → Run α} {Q' : α → Int → Prop} (tracks : Tracks R H Q m n)
    (weaker : ∀ a stop, Q a stop → Q' a stop) : Tracks R H Q' m n := by
  intro s t related first second
  obtain ⟨o, s', t', run, runs, ends⟩ := tracks s t related first second
  refine ⟨o, s', t', run, runs, ?_⟩
  cases ends with
  | halted allowed => exact .halted allowed
  | failed agree => exact .failed agree
  | matched agree holds => exact .matched agree (weaker _ _ holds)

theorem done {a : α} {stop : Int} (holds : Q a stop) :
    Tracks R H Q (Run.done a stop) fun _ => Run.done a stop := by
  intro s t related first second
  exact ⟨_, s, t, rfl, .of_forall fun _ => rfl, .matched (.stay related first second rfl rfl) holds⟩

theorem noMatch : Tracks R H Q Run.noMatch fun _ => Run.noMatch := by
  intro s t related first second
  exact ⟨_, s, t, rfl, .of_forall fun _ => rfl, .failed (.stay related first second rfl rfl)⟩

theorem halt {h : Halt} (allowed : H h) : Tracks R H Q (Run.halt h) fun _ => Run.halt h := by
  intro s t _ _ _
  exact ⟨_, s, t, rfl, .of_forall fun _ => rfl, .halted allowed⟩

theorem fail (blind : Blind R) (index : Int) (what : String) :
    Tracks R H Q (Run.fail index what) fun _ => Run.fail index what := by
  intro s t related first second
  refine ⟨_, _, _, rfl, .of_forall fun _ => rfl, .failed ⟨blind related rfl rfl rfl rfl, ?_⟩⟩
  exact ⟨_, Failures.proper_none.fail index what, Failures.fail_eq_merge_own first index what,
    Failures.fail_eq_merge_own second index what⟩

theorem terminal (blind : Blind R) {Q : Value → Int → Prop} {result : Except BeforeStart Result}
    {index : Int} {what : String} (outside : H .beforeStart)
    (holds : ∀ v stop, result = .ok (some (v, stop)) → Q v stop) :
    Tracks R H Q (Run.terminal result index what) fun _ => Run.terminal result index what := by
  unfold Run.terminal
  split
  · exact done (holds _ _ rfl)
  · exact fail blind index what
  · exact halt outside

theorem nested {m : Run α} {n : Nat → Run α} (levels : Nat) (tracks : Tracks R H Q m n) :
    Tracks R H Q (Run.nested levels m) fun d => Run.nested levels (n d) := tracks

theorem andThen {m : Run α} {n : Nat → Run α} {k : α → Int → Run β} {l : Nat → α → Int → Run β}
    (first : Tracks R H Q m n) (next : ∀ a stop, Q a stop → Tracks R H P (k a stop) fun d => l d a stop) :
    Tracks R H P (m.andThen k) fun d => (n d).andThen (l d) := by
  intro s t related properLeft properRight
  obtain ⟨o, s₁, t₁, run, runs, ends⟩ := first s t related properLeft properRight
  cases ends with
  | halted allowed =>
    refine ⟨_, s₁, t₁, Run.andThen_of_halted run, ?_, .halted allowed⟩
    exact runs.mono fun d here => Run.andThen_of_halted here
  | failed agree =>
    refine ⟨_, s₁, t₁, Run.andThen_of_failed run, ?_, .failed agree⟩
    exact runs.mono fun d here => Run.andThen_of_failed here
  | @matched a stop _ _ agree holds =>
    obtain ⟨o, s₂, t₂, run', runs', ends⟩ := next a stop holds s₁ t₁ agree.related
      (agree.proper_left properLeft) (agree.proper_right properRight)
    refine ⟨o, s₂, t₂, (Run.andThen_of_matched run).trans run', ?_, ends.after agree⟩
    filter_upwards [runs, runs'] with d here there
    exact (Run.andThen_of_matched here).trans there

theorem orElse {m other : Run α} {n others : Nat → Run α} (first : Tracks R H Q m n)
    (second : Tracks R H Q other others) :
    Tracks R H Q (m.orElse other) fun d => (n d).orElse (others d) := by
  intro s t related properLeft properRight
  obtain ⟨o, s₁, t₁, run, runs, ends⟩ := first s t related properLeft properRight
  cases ends with
  | halted allowed =>
    refine ⟨_, s₁, t₁, by simp [Run.orElse, run], ?_, .halted allowed⟩
    filter_upwards [runs] with d here
    simp [Run.orElse, here]
  | matched agree holds =>
    refine ⟨_, s₁, t₁, by simp [Run.orElse, run], ?_, .matched agree holds⟩
    filter_upwards [runs] with d here
    simp [Run.orElse, here]
  | failed agree =>
    obtain ⟨o, s₂, t₂, run', runs', ends⟩ := second s₁ t₁ agree.related
      (agree.proper_left properLeft) (agree.proper_right properRight)
    refine ⟨o, s₂, t₂, by simp [Run.orElse, run, run'], ?_, ends.after agree⟩
    filter_upwards [runs, runs'] with d here there
    simp [Run.orElse, here, there]

theorem negate (blind : Blind R) {Q Q' : Value → Int → Prop} {m : Run Value} {n : Nat → Run Value}
    {index : Int} {what : String} (tracks : Tracks R H Q m n) (holds : Q' .none index) :
    Tracks R H Q' (Run.negate m index what) fun d => Run.negate (n d) index what := by
  intro s t related properLeft properRight
  obtain ⟨o, s₁, t₁, run, runs, ends⟩ := tracks { s with failures := {} } { t with failures := {} }
    (blind related rfl rfl rfl rfl) Failures.proper_none Failures.proper_none
  cases ends with
  | halted allowed =>
    refine ⟨_, s₁, t₁, by simp [Run.negate, run], ?_, .halted allowed⟩
    filter_upwards [runs] with d here
    simp [Run.negate, here]
  | failed agree =>
    refine ⟨.matched .none index, { s₁ with failures := s.failures }, { t₁ with failures := t.failures },
      by simp [Run.negate, run], ?_, .matched (.stay ?_ properLeft properRight rfl rfl) holds⟩
    · filter_upwards [runs] with d here
      simp [Run.negate, here]
    · exact blind agree.related rfl rfl rfl rfl
  | matched agree _ =>
    obtain ⟨o, s₂, t₂, run', runs', ends⟩ := fail (Q := Q') (H := H) blind index what
      { s₁ with failures := s.failures } { t₁ with failures := t.failures }
      (blind agree.related rfl rfl rfl rfl) properLeft properRight
    refine ⟨o, s₂, t₂, by simp [Run.negate, run, run'], ?_, ?_⟩
    · filter_upwards [runs, runs'] with d here there
      simp [Run.negate, here, there]
    · cases ends with
      | halted allowed => exact .halted allowed
      | failed later => exact .failed ⟨later.related, later.failures⟩
      | matched later holds => exact .matched ⟨later.related, later.failures⟩ holds

theorem proper_named {own : Failures} (proper : own.Proper) (name : String) (index : Int) :
    (if own.furthest ≤ index then (⟨index, .ofList [name]⟩ : Failures) else own).Proper := by
  split
  · next short => exact Int.le_trans proper short
  · exact proper

theorem named (blind : Blind R) {Q : Value → Int → Prop} {m : Run Value} {n : Nat → Run Value}
    {index : Int} (name : String) (tracks : Tracks R H Q m n) :
    Tracks R H Q (Run.named name index m) fun d => Run.named name index (n d) := by
  intro s t related properLeft properRight
  obtain ⟨o, s₁, t₁, run, runs, ends⟩ := tracks { s with failures := {} } { t with failures := {} }
    (blind related rfl rfl rfl rfl) Failures.proper_none Failures.proper_none
  cases ends with
  | halted allowed =>
    refine ⟨_, s₁, t₁, by simp [Run.named, run], ?_, .halted allowed⟩
    filter_upwards [runs] with d here
    simp [Run.named, here]
  | failed agree =>
    obtain ⟨own, proper, left, right⟩ := agree.failures
    dsimp only at left right
    rw [Failures.none_merge proper] at left right
    let shown := if own.furthest ≤ index then ⟨index, .ofList [name]⟩ else own
    refine ⟨.failed, { s₁ with failures := shown.merge s.failures },
      { t₁ with failures := shown.merge t.failures }, by simp only [Run.named, run, left, shown], ?_,
      .failed ⟨?_, shown, proper_named proper name index, ?_, ?_⟩⟩
    · filter_upwards [runs] with d here
      simp only [Run.named, here, right, shown]
    · exact blind agree.related rfl rfl rfl rfl
    · exact Failures.merge_comm _ _
    · exact Failures.merge_comm _ _
  | @matched v stop _ _ agree holds =>
    obtain ⟨own, proper, left, right⟩ := agree.failures
    dsimp only at left right
    rw [Failures.none_merge proper] at left right
    refine ⟨.matched v stop, { s₁ with failures := own.merge s.failures },
      { t₁ with failures := own.merge t.failures }, by simp only [Run.named, run, left], ?_,
      .matched ⟨?_, own, proper, ?_, ?_⟩ holds⟩
    · filter_upwards [runs] with d here
      simp only [Run.named, here, right]
    · exact blind agree.related rfl rfl rfl rfl
    · exact Failures.merge_comm _ _
    · exact Failures.merge_comm _ _

end Tracks

end Packrat
