import Packrat.Proofs.Parse.Calls
import Packrat.Proofs.Parse.Growth

namespace Packrat

open Filter

/-- A property of what is on record that holds whatever a parse does next. -/
structure Invariant (p : TypedGrammar) (input : Input) (I : Parse → Prop) : Prop where
  congr : ∀ {s s'}, I s → s'.memo = s.memo → I s'
  enter : ∀ {stack s c}, Coherent p input stack s → I s → s.memo.get? c = none → I (s.enter c)
  plantSeed : ∀ {stack s c v stop}, Coherent p input (c :: stack) s → I s → I (s.plantSeed c v stop)
  answered : ∀ {stack s c e}, Coherent p input stack s → (c :: stack).IsChain (Call.Follows p.grammar) → I s →
    s.memo.get? c = some e → I (s.answered e)
  conclude : ∀ {stack s c saved result}, Coherent p input (c :: stack) s → I s →
    I ((s.leave c saved).remember c result)

theorem Invariant.top (p : TypedGrammar) (input : Input) : Invariant p input fun _ => True :=
  ⟨fun _ _ => trivial, fun _ _ _ => trivial, fun _ _ => trivial, fun _ _ _ _ => trivial, fun _ _ => trivial⟩

structure Twin (p : TypedGrammar) (input : Input) (s₀ : Parse) (stack : List Call) (s t : Parse) : Prop where
  memo : s.memo = t.memo
  calls : s.stack = t.stack
  coherent : Coherent p input stack s
  later : Extends stack s₀ s

namespace Twin

variable {p : TypedGrammar} {input : Input} {I : Parse → Prop} {s₀ s t : Parse} {stack : List Call} {c : Call}

theorem blind (s₀ : Parse) (stack : List Call) : Blind (Twin p input s₀ stack) := by
  intro s t s' t' twin memoLeft stackLeft memoRight stackRight
  refine ⟨?_, ?_, twin.coherent.congr memoLeft stackLeft, twin.later.trans (.of_memo memoLeft)⟩
  · rw [memoLeft, memoRight, twin.memo]
  · rw [stackLeft, stackRight, twin.calls]

def Within (p : TypedGrammar) (input : Input) (s₀ : Parse) (c : Call) (stack : List Call) (s t : Parse) : Prop :=
  s.memo = t.memo ∧ s.stack = t.stack ∧ Coherent p input (c :: stack) s ∧ Extends stack s₀ s

theorem growing (invariant : Invariant p input I) (outside : c ∉ stack) :
    Growing (fun s t => Within p input s₀ c stack s t ∧ I s)
      (fun v stop => p.Derives input (.expr (.reference c.rule)) c.start [v] stop) c c input.size where
  blind := by
    intro s t s' t' ⟨⟨memo, calls, coherent, later⟩, kept⟩ memoLeft stackLeft memoRight stackRight
    refine ⟨⟨?_, ?_, coherent.congr memoLeft stackLeft, later.trans (.of_memo memoLeft)⟩, invariant.congr kept memoLeft⟩
    · rw [memoLeft, memoRight, memo]
    · rw [stackLeft, stackRight, calls]
  bounded derived := ⟨derived.le_stop, derived.stop_le⟩
  plantSeed := by
    intro s t v stop ⟨⟨memo, calls, coherent, later⟩, kept⟩ derived
    obtain ⟨planted, further⟩ := coherent.plantSeed outside derived
    refine ⟨⟨?_, calls, planted, later.trans further⟩, invariant.plantSeed coherent kept⟩
    simp only [Parse.plantSeed, Parse.memo_modifyEntry, memo]
  isReentered := by
    intro s t ⟨⟨memo, _⟩, _⟩
    simp only [Parse.isReentered, memo]

theorem within_tracks {H : Halt → Prop} {Q : Value → Int → Prop} {body : Run Value} {bodies : Nat → Run Value}
    (tracks : ∀ s₁, Tracks (fun s t => Twin p input s₁ (c :: stack) s t ∧ I s) H Q body bodies) :
    Tracks (fun s t => Within p input s₀ c stack s t ∧ I s) H Q body bodies := by
  intro s t ⟨⟨memo, calls, coherent, later⟩, kept⟩ properLeft properRight
  obtain ⟨o, s', t', run, runs, ends⟩ := tracks s s t ⟨⟨memo, calls, coherent, .refl _ s⟩, kept⟩ properLeft properRight
  refine ⟨o, s', t', run, runs, ends.imp fun ⟨twin, kept⟩ => ?_⟩
  exact ⟨⟨twin.memo, twin.calls, twin.coherent, later.trans twin.later.of_cons⟩, kept⟩

theorem Within.conclude (within : Within p input s₀ c stack s t) (outside : c ∉ stack) {saved saved' : Failures}
    {result : Result} (same : s.failures = t.failures) (proper : s.failures.Proper)
    (derived : ∀ v stop, result = some (v, stop) →
      p.Derives input (.expr (.reference c.rule)) c.start [v] stop) :
    Twin p input s₀ stack ((s.leave c saved).remember c result) ((t.leave c saved').remember c result) := by
  obtain ⟨memo, calls, coherent, later⟩ := within
  obtain ⟨concluded, further⟩ := coherent.conclude outside saved proper derived
  refine ⟨?_, ?_, concluded, later.trans further⟩
  · have left : (s.leave c saved).memo = (t.leave c saved').memo := by
      simp only [Parse.memo_leave, Parse.memo_modifyEntry, memo, same]
    unfold Parse.remember
    rw [left]
    split
    · split
      · rfl
      · simp only [Parse.memo_modifyEntry, left]
    · exact left
  · rw [Parse.stack_conclude, Parse.stack_conclude, calls]

theorem answered (twin : Twin p input s₀ stack s t) {e : Entry} (found : s.memo.get? c = some e) :
    Twin p input s₀ stack (s.answered e) (t.answered e) := by
  obtain ⟨coherent, further⟩ := twin.coherent.answered found
  refine ⟨?_, ?_, coherent, twin.later.trans further⟩
  · unfold Parse.answered
    split
    · exact twin.memo
    · have above : s.callsAbove e.depth = t.callsAbove e.depth := by
        unfold Parse.callsAbove
        rw [twin.calls]
      rw [Parse.memo_makeProvisional, Parse.memo_makeProvisional, Parse.memo_modifyEntry,
        Parse.memo_modifyEntry, above, twin.memo]
  · rw [Parse.stack_answered, Parse.stack_answered, twin.calls]

end Twin

namespace TypedGrammar

variable {p : TypedGrammar} {input : Input} {name : String} {i : Int} {s : Parse}

theorem callWithin_of_found {e : Entry} (found : s.memo.get? ⟨i, name⟩ = some e) (depth : Nat) :
    p.callWithin input depth name i .unlimited s = Parse.reuse e .unlimited s := by
  unfold callWithin
  simp only [Run.nested_unlimited, found]

theorem callWithin_of_unknown (fresh : s.memo.get? ⟨i, name⟩ = none) (unknown : p.typed? name = none)
    (depth : Nat) : p.callWithin input depth name i .unlimited s = (.halted (.unknownRule name), s) := by
  unfold callWithin
  simp only [Run.nested_unlimited, fresh, unknown]

theorem callWithin_of_fresh {typed : TypedRule} (fresh : s.memo.get? ⟨i, name⟩ = none)
    (known : p.typed? name = some typed) (depth : Nat) :
    p.callWithin input (depth + 1) name i .unlimited s =
      evaluateCall (p.body input (p.callWithin input depth) typed i) ⟨i, name⟩ input.size .unlimited s := by
  rw [callWithin]
  simp only [Run.nested_unlimited, fresh, known]

theorem agree_answered {R : Parse → Parse → Prop} {t : Parse} {e e' : Entry} (proper : e.failures.Proper)
    (settled : e'.settled = e.settled) (failures : e'.failures = e.failures) (properLeft : s.failures.Proper)
    (properRight : t.failures.Proper) (related : R (s.answered e) (t.answered e')) :
    Agree R s t (s.answered e) (t.answered e') := by
  cases here : e.settled with
  | true =>
    refine ⟨related, e.failures, proper, Parse.failures_answered_of_settled here, ?_⟩
    rw [Parse.failures_answered_of_settled (settled.trans here), failures]
  | false =>
    refine .stay related properLeft properRight (Parse.failures_answered here) ?_
    exact Parse.failures_answered (settled.trans here)

theorem answering_keeping {I : Parse → Prop} (invariant : Invariant p input I) (faithful : p.Faithful) (lo : Int) :
    Answering p input lo (· ≠ .exhausted) (fun _ => True) (fun s₀ stack s t => Twin p input s₀ stack s t ∧ I s)
      fun d => p.callWithin input d where
  faithful := faithful
  halts _ other := other
  closed _ _ := trivial
  blind := by
    rintro s₀ stack s t s' t' ⟨twin, kept⟩ memoLeft stackLeft memoRight stackRight
    exact ⟨Twin.blind s₀ stack twin memoLeft stackLeft memoRight stackRight, invariant.congr kept memoLeft⟩
  coherent related := related.1.coherent
  unknown := by
    rintro s₀ stack s t c _ ⟨twin, _⟩ fresh unknown
    rw [twin.memo] at fresh
    exact ⟨t, .of_forall fun d => callWithin_of_unknown fresh unknown d⟩
  recorded := by
    rintro s₀ stack s t c e _ ⟨twin, kept⟩ properLeft properRight _ chain found
    have found' := found
    rw [twin.memo] at found'
    refine ⟨_, _, t.answered e, reuse_eq e .unlimited s, .of_forall fun d => ?_, ?_⟩
    · exact (callWithin_of_found found' d).trans (reuse_eq e .unlimited t)
    · exact .ofResult (agree_answered (twin.coherent.proper found) rfl rfl properLeft properRight
        ⟨twin.answered found, invariant.answered twin.coherent chain kept found⟩)
        fun v stop known => twin.coherent.derived found known
  evaluated := by
    rintro s₀ stack s t c typed depth _ ⟨twin, kept⟩ _ _ standing _ fresh known tracks
    have outside := (List.nodup_cons.mp standing.nodup).1
    have fresh' := fresh
    rw [twin.memo] at fresh'
    have entered : Twin.Within p input s₀ c stack (s.enter c) (t.enter c) := by
      refine ⟨?_, ?_, twin.coherent.enter fresh, twin.later.trans (Coherent.extends_enter fresh)⟩
      · simp only [Parse.enter, twin.memo, twin.calls]
      · simp only [Parse.enter, twin.calls]
    have meets : Meets (fun s t => Twin p input s₀ stack s t ∧ I s) (· ≠ .exhausted)
        (fun v stop => p.Derives input (.expr (.reference c.rule)) c.start [v] stop)
        (evaluateCall (p.body input (p.callWithin input depth) typed c.start) c input.size)
        (fun d => evaluateCall (p.body input (p.callWithin input d) typed c.start) c input.size) s t := by
      refine Meets.evaluateCall (Twin.growing invariant outside) (Twin.within_tracks tracks)
        ⟨entered, invariant.enter twin.coherent kept fresh⟩ ?_
      rintro s' t' result ⟨within, kept⟩ same proper derived
      exact ⟨within.conclude outside same proper derived, invariant.conclude within.2.2.1 kept⟩
    refine Meets.of_succ ?_
    obtain ⟨o, s', t', run, runs, ends⟩ := meets
    exact ⟨o, s', t', run, runs.mono fun d here => (callWithin_of_fresh fresh' known d).trans here, ends⟩

theorem answering (faithful : p.Faithful) (input : Input) (lo : Int) :
    Answering p input lo (· ≠ .exhausted) (fun _ => True) (Twin p input) fun d => p.callWithin input d := by
  have keeping := answering_keeping (Invariant.top p input) faithful lo
  simpa only [and_true] using keeping

theorem apply_ends (faithful : p.Faithful) (coherent : Coherent p input [] s) (proper : s.failures.Proper)
    (name : String) (i : Int) :
    ∃ o s' t', p.apply input name i .unlimited s = (o, s') ∧
      (∀ᶠ d in atTop, p.callWithin input d name i .unlimited s = (o, t')) ∧
        Ends (Twin p input s []) (· ≠ .exhausted)
          (fun v stop => p.Derives input (.expr (.reference name)) i [v] stop) s s o s' t' := by
  exact (answering faithful input i).tracks_apply s trivial s s ⟨rfl, rfl, coherent, .refl [] s⟩ proper proper

end TypedGrammar

end Packrat
