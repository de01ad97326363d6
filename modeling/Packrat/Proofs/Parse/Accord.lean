import Packrat.Proofs.Parse.Apart

namespace Packrat

open Filter Relation

namespace Accords

variable {p : TypedGrammar} {input : Input} {tangled : String → Prop} [DecidablePred tangled]
  {V : Call → Prop} {base : List Call} {s₀ : Parse} {stack : List Call} {s t s₁ : Parse} {c : Call}
  {typed : TypedRule} {body : Run Value} {bodies : Nat → Run Value} {e : Entry}

theorem get?_eq_none (accords : Accords p input tangled V base s₀ stack s t) (concerned : V c)
    (fresh : s.memo.get? c = none) : t.memo.get? c = none := by
  cases accords.beside with
  | @alone top below split untangled calls view =>
    have other : c ≠ top := by
      intro same
      subst same
      exact accords.coherent.not_mem_of_fresh fresh (split ▸ List.mem_cons_self)
    exact view.none trivial other
  | among split knotty calls view =>
    by_cases knotty : tangled c.rule
    · rw [view.same concerned knotty, fresh]
      rfl
    · exact view.none concerned knotty

theorem get?_of_settled (accords : Accords p input tangled V base s₀ stack s t)
    (tangles : Tangles p.grammar tangled) (chain : (c :: stack).IsChain (Call.Follows p.grammar))
    (concerned : V c) (found : s.memo.get? c = some e) (settled : e.settled = true) :
    (tangled c.rule ∧ t.memo.get? c = some (e.raised base.length)) ∨
      (¬ tangled c.rule ∧ t.memo.get? c = none) := by
  cases accords.beside with
  | @alone top below split untangled calls view =>
    have member : top ∈ stack := split ▸ List.mem_cons_self
    have here : ¬ tangled c.rule := fun knotty => untangled (tangles.tangled_of_mem chain knotty member)
    have other : c ≠ top := by
      intro same
      subst same
      obtain ⟨e', found', unsettled⟩ := accords.coherent.found_of_mem member
      rw [found] at found'
      cases found'
      rw [settled] at unsettled
      cases unsettled
    exact .inr ⟨here, view.none trivial other⟩
  | among split _ calls view =>
    by_cases knotty : tangled c.rule
    · refine .inl ⟨knotty, ?_⟩
      rw [view.same concerned knotty, found]
      rfl
    · exact .inr ⟨knotty, view.none concerned knotty⟩

theorem recorded (accords : Accords p input tangled V base s₀ stack s t) (tangles : Tangles p.grammar tangled)
    (outside : ∀ d ∈ base, ¬ V d) (nodup : stack.Nodup) (chain : (c :: stack).IsChain (Call.Follows p.grammar))
    (concerned : V c) (found : s.memo.get? c = some e) (properLeft : s.failures.Proper)
    (properRight : t.failures.Proper) :
    Meets (Accords p input tangled V base s₀ stack) (· ≠ .exhausted)
      (fun v stop => p.Derives input (.expr (.reference c.rule)) c.start [v] stop) (Parse.reuse e)
      (fun d => p.apartWithin input tangled d c.rule c.start) s t := by
  have derived : ∀ v stop, e.result = some (v, stop) →
      p.Derives input (.expr (.reference c.rule)) c.start [v] stop :=
    fun v stop known => accords.coherent.derived found known
  have proper := accords.coherent.proper found
  -- Where the other parse has the entry too, it answers from it.
  have shared : ∀ levels, t.memo.get? c = some (e.raised levels) →
      Accords p input tangled V base s₀ stack (s.answered e) (t.answered (e.raised levels)) →
        Meets (Accords p input tangled V base s₀ stack) (· ≠ .exhausted)
          (fun v stop => p.Derives input (.expr (.reference c.rule)) c.start [v] stop) (Parse.reuse e)
          (fun d => p.apartWithin input tangled d c.rule c.start) s t := by
    intro levels found' related
    have settled : (e.raised levels).settled = e.settled := rfl
    have agree := TypedGrammar.agree_answered proper settled rfl properLeft properRight related
    refine ⟨_, _, t.answered (e.raised levels), reuse_eq e .unlimited s, eventually_of_succ (.of_forall fun d => ?_),
      .ofResult agree derived⟩
    exact (TypedGrammar.apartWithin_of_found found' d).trans (reuse_eq _ .unlimited t)
  cases settled : e.settled with
  | false =>
    have member := accords.coherent.mem_of_unsettled found settled
    have innermost : ∀ d below, stack = d :: below → ¬ tangled d.rule → c = d := by
      intro d below split untangled
      subst split
      exact tangles.eq_of_mem chain untangled member
    obtain ⟨levels, found', related⟩ := accords.answered nodup concerned outside found settled innermost
    exact shared levels found' related
  | true =>
    rcases accords.get?_of_settled tangles chain concerned found settled with ⟨knotty, found'⟩ | ⟨untangled, fresh⟩
    · apply shared base.length found'
      exact blind s₀ stack accords (Parse.memo_answered settled) (Parse.stack_answered e)
        (Parse.memo_answered settled) (Parse.stack_answered _)
    · obtain ⟨t', memo, calls, failures, runs⟩ := accords.regular.apart untangled found settled t properRight fresh
      have related := blind s₀ stack accords (Parse.memo_answered settled) (Parse.stack_answered e) memo calls
      exact ⟨_, _, t', reuse_eq e .unlimited s, runs,
        .ofResult ⟨related, e.failures, proper, Parse.failures_answered_of_settled settled, failures⟩ derived⟩

/-- The body of an untangled call and the growth of its seed keep in step with what they are apart, wherever
that is done. -/
abbrev Follow (p : TypedGrammar) (input : Input) (tangled : String → Prop) [DecidablePred tangled]
    (V : Call → Prop) (base stack : List Call) (c : Call) (typed : TypedRule) (body : Run Value) (s : Parse) : Prop :=
  ∀ t : Parse, Meets (Accords p input tangled V base s (c :: stack)) (· ≠ .exhausted)
    (fun v stop => p.Derives input (.expr (.reference c.rule)) c.start [v] stop)
    (body.andThen (settle body c input.size))
    (fun d => (p.body input (p.apartWithin input tangled d) typed c.start).andThen
      (settle (p.body input (p.apartWithin input tangled d) typed c.start) c input.size))
    (s.enter c) ({ t with memo := [], stack := [] }.enter c)

theorem exists_apart (known : p.typed? c.rule = some typed) (untangled : ¬ tangled c.rule)
    (follow : Follow p input tangled V base stack c typed body s) {result : Result}
    (run : body.andThen (settle body c input.size) .unlimited (s.enter c) = (.ofResult result, s₁))
    (fresh : t.memo.get? c = none) :
    ∃ t' : Parse, t'.memo = t.memo ∧ t'.stack = t.stack ∧ t'.failures = t.failures.merge s₁.failures ∧
      ∀ᶠ d in atTop, p.apartWithin input tangled d c.rule c.start .unlimited t = (.ofResult result, t') := by
  have ended : ∀ h, Outcome.ofResult result ≠ .halted h := by
    cases result <;> exact nofun
  obtain ⟨t₁, runs, _, proper, failures⟩ := (follow t).own rfl run ended
  rw [show (({ t with memo := [], stack := [] } : Parse).enter c).failures = {} from rfl,
    Failures.none_merge proper] at failures
  refine ⟨{ (t₁.leave c t.failures).remember c result with memo := t.memo, stack := t.stack }, rfl, rfl, ?_,
    eventually_of_succ (runs.mono fun d here => ?_)⟩
  · dsimp only
    rw [Parse.failures_conclude, failures]
  · refine (TypedGrammar.apartWithin_of_untangled fresh known untangled d).trans ?_
    simp only [Run.apart, evaluateCall_of_result rfl here]

theorem evaluated (accords : Accords p input tangled V base s₀ stack s t) (outside : ∀ d ∈ base, ¬ V d)
    (concerned : V c) (fresh : s.memo.get? c = none) (known : p.typed? c.rule = some typed)
    (untangled : ¬ tangled c.rule) (follow : Follow p input tangled V base stack c typed body s) :
    Meets (Accords p input tangled V base s₀ stack) (· ≠ .exhausted)
      (fun v stop => p.Derives input (.expr (.reference c.rule)) c.start [v] stop)
      (evaluateCall body c input.size) (fun d => p.apartWithin input tangled d c.rule c.start) s t := by
  have fresh' := accords.get?_eq_none concerned fresh
  have apart := accords.coherent.not_mem_of_fresh fresh
  obtain ⟨o, s₁, t₁, run, runs, ends⟩ := follow t
  rcases ends.halted_or_result with ⟨h, rfl, allowed⟩ | ⟨result, rfl, agree, derived⟩
  · refine ⟨_, _, { t₁.leave c t.failures with memo := t.memo, stack := t.stack }, evaluateCall_of_halted rfl run,
      eventually_of_succ (runs.mono fun d here => ?_), .halted allowed⟩
    refine (TypedGrammar.apartWithin_of_untangled fresh' known untangled d).trans ?_
    simp only [Run.apart, evaluateCall_of_halted rfl here]
  · obtain ⟨t', memo, calls, failures, runs⟩ := exists_apart known untangled follow run fresh'
    have proper := agree.proper_left Failures.proper_none
    have right : ∀ e : Entry, e.result = result → e.failures = s₁.failures → p.Apart input tangled c e := by
      intro e record same t _ fresh
      subst record
      rw [same]
      exact exists_apart known untangled follow run fresh
    refine ⟨_, _, t', evaluateCall_of_result rfl run, runs, .ofResult ?_ derived⟩
    refine ⟨?_, s₁.failures, proper, Parse.failures_conclude, failures⟩
    exact accords.conclude_alone agree.related untangled concerned outside apart proper derived right memo calls

end Accords

namespace TypedGrammar

theorem answering_apart {p : TypedGrammar} {tangled : String → Prop} [DecidablePred tangled] (faithful : p.Faithful)
    (tangles : Tangles p.grammar tangled) (input : Input) (lo : Int) (V : Call → Prop) (base : List Call)
    (closed : ∀ {inner outer}, V outer → inner.Follows p.grammar outer → V inner) (outside : ∀ d ∈ base, ¬ V d) :
    Answering p input lo (· ≠ .exhausted) V (Accords p input tangled V base) (p.apartWithin input tangled) where
  faithful := faithful
  halts _ other := other
  closed := closed
  blind := Accords.blind
  coherent := Accords.coherent
  unknown := by
    intro s₀ stack s t c concerned accords fresh unknown
    refine ⟨t, eventually_of_succ (.of_forall fun d => ?_)⟩
    exact apartWithin_of_unknown (accords.get?_eq_none concerned fresh) unknown d
  recorded := by
    intro s₀ stack s t c e concerned accords properLeft properRight standing chain found
    exact accords.recorded tangles outside standing.nodup chain concerned found properLeft properRight
  evaluated := by
    intro s₀ stack s t c typed depth concerned accords _ _ standing _ fresh known tracks
    have apart := (List.nodup_cons.mp standing.nodup).1
    by_cases knotty : tangled c.rule
    · obtain ⟨fresh', entered⟩ := accords.enter_among tangles standing.chain concerned fresh knotty
      have meets := Meets.evaluateCall (Accords.growing concerned outside apart) (tracks s₀) entered
        fun within same proper derived => within.conclude_among knotty concerned outside apart same proper derived
      refine Meets.of_succ ?_
      obtain ⟨o, s', t', run, runs, ends⟩ := meets
      exact ⟨o, s', t', run, runs.mono fun d here => (apartWithin_of_tangled fresh' known knotty d).trans here, ends⟩
    · refine accords.evaluated outside concerned fresh known knotty fun t => ?_
      have whole := Tracks.andThen (tracks s) fun v stop derived =>
        Tracks.settle (Accords.growing concerned outside apart) (tracks s) derived
      exact whole _ _ (accords.enter_alone fresh knotty t) Failures.proper_none Failures.proper_none

end TypedGrammar

end Packrat
