import Packrat.Proofs.Parse.Lasting

namespace Packrat

namespace Run

variable {α β : Type} {m : Run α} {s s' : Parse}

def EndsIn (m : Run α) (s s' : Parse) : Prop := ∃ o, m .unlimited s = (o, s') ∧ ∀ h, o ≠ .halted h

namespace EndsIn

theorem of_matched {a : α} {stop : Int} (run : m .unlimited s = (.matched a stop, s')) : m.EndsIn s s' :=
  ⟨_, run, nofun⟩

theorem of_failed (run : m .unlimited s = (.failed, s')) : m.EndsIn s s' := ⟨_, run, nofun⟩

theorem done {a : α} {stop : Int} (ends : (Run.done a stop).EndsIn s s') : s' = s := by
  obtain ⟨o, run, _⟩ := ends
  exact (Prod.mk.inj run).2.symm

theorem noMatch (ends : (Run.noMatch : Run α).EndsIn s s') : s' = s := by
  obtain ⟨o, run, _⟩ := ends
  exact (Prod.mk.inj run).2.symm

theorem repeated {once : Bool} {values : List Value} {stop : Int} (ends : (Run.repeated once values stop).EndsIn s s') :
    s' = s := by
  unfold Run.repeated at ends
  split at ends
  · exact ends.noMatch
  · exact ends.done

theorem split {matched : α → Int → Run β} {failed : Run β} (ends : (m.split matched failed).EndsIn s s') :
    (∃ a stop s₁, m .unlimited s = (.matched a stop, s₁) ∧ (matched a stop).EndsIn s₁ s') ∨
      ∃ s₁, m .unlimited s = (.failed, s₁) ∧ failed.EndsIn s₁ s' := by
  obtain ⟨o, run, ended⟩ := ends
  cases first : m .unlimited s with
  | mk o₁ s₁ =>
    cases o₁ with
    | matched a stop =>
      rw [split_of_matched first] at run
      exact .inl ⟨a, stop, s₁, rfl, o, run, ended⟩
    | failed =>
      rw [split_of_failed first] at run
      exact .inr ⟨s₁, rfl, o, run, ended⟩
    | halted h =>
      rw [split_of_halted first] at run
      cases run
      exact absurd rfl (ended h)

theorem andThen {next : α → Int → Run β} (ends : (m.andThen next).EndsIn s s') :
    (∃ a stop s₁, m .unlimited s = (.matched a stop, s₁) ∧ (next a stop).EndsIn s₁ s') ∨
      m .unlimited s = (.failed, s') := by
  rw [andThen_eq_split] at ends
  refine ends.split.imp_right fun ⟨s₁, failed, ends⟩ => ?_
  rw [failed, ends.noMatch]

theorem orElse {other : Run α} (ends : (m.orElse other).EndsIn s s') :
    (∃ a stop, m .unlimited s = (.matched a stop, s')) ∨
      ∃ s₁, m .unlimited s = (.failed, s₁) ∧ other.EndsIn s₁ s' := by
  rw [orElse_eq_split] at ends
  refine ends.split.imp_left fun ⟨a, stop, s₁, matched, ends⟩ => ?_
  exact ⟨a, stop, by rw [matched, ends.done]⟩

theorem first {next : α → Int → Run β} (ends : (m.andThen next).EndsIn s s')
    (pure : ∀ a stop s₁, (next a stop).EndsIn s₁ s' → s'.memo = s₁.memo) : ∃ s₁, m.EndsIn s s₁ ∧ s'.memo = s₁.memo := by
  rcases ends.andThen with ⟨a, stop, s₁, matched, ends⟩ | failed
  · exact ⟨s₁, .of_matched matched, pure a stop s₁ ends⟩
  · exact ⟨s', .of_failed failed, rfl⟩

theorem cleared {w : Run Value} (ends : m.EndsIn s s')
    (halts : ∀ {h s₁}, w .unlimited { s with failures := {} } = (.halted h, s₁) → m .unlimited s = (.halted h, s₁))
    (keeps : (m .unlimited s).2.memo = (w .unlimited { s with failures := {} }).2.memo) :
    ∃ s₁, w.EndsIn { s with failures := {} } s₁ ∧ s'.memo = s₁.memo := by
  obtain ⟨o, run, ended⟩ := ends
  rw [run] at keeps
  refine ⟨_, ⟨_, Prod.mk.eta.symm, fun h halted => ?_⟩, keeps⟩
  have whole := halts (Prod.ext halted rfl)
  rw [run] at whole
  exact ended h (Prod.mk.inj whole).1

theorem negate {w : Run Value} {i : Int} {what : String} (ends : (Run.negate w i what).EndsIn s s') :
    ∃ s₁, w.EndsIn { s with failures := {} } s₁ ∧ s'.memo = s₁.memo := by
  refine ends.cleared (fun halted => by simp only [Run.negate, halted]) ?_
  unfold Run.negate
  dsimp only
  split <;> next first => exact (congrArg (·.2.memo) first).symm

theorem named {w : Run Value} {i : Int} {name : String} (ends : (Run.named name i w).EndsIn s s') :
    ∃ s₁, w.EndsIn { s with failures := {} } s₁ ∧ s'.memo = s₁.memo := by
  refine ends.cleared (fun halted => by simp only [Run.named, halted]) ?_
  unfold Run.named
  dsimp only
  split <;> next first => exact (congrArg (·.2.memo) first).symm

theorem single {w : Run Value} : w.single.EndsIn s s' ↔ w.EndsIn s s' := by
  constructor
  · intro ⟨o, run, ended⟩
    exact of_single run ended
  · intro ⟨o, run, ended⟩
    cases o with
    | matched v stop =>
      have done : w.single .unlimited s = (.matched [v] stop, s') := by
        simp only [Run.single, Run.andThen, run, Run.done]
      exact .of_matched done
    | failed =>
      have done : w.single .unlimited s = (.failed, s') := by simp only [Run.single, Run.andThen, run]
      exact .of_failed done
    | halted h => exact absurd rfl (ended h)

variable {body : Run Value} {c : Call} {size : Nat} {v : Value} {stop : Int}

theorem settle (ends : (Packrat.settle body c size v stop).EndsIn s s') :
    (s.isReentered c = true ∧ (growFrom body c ((size - stop).toNat + 1) v stop).EndsIn s s') ∨
      (s.isReentered c = false ∧ s' = s) := by
  obtain ⟨o, run, ended⟩ := ends
  unfold Packrat.settle at run
  split at run
  · next again => exact .inl ⟨again, o, run, ended⟩
  · next once =>
    cases run
    exact .inr ⟨Bool.eq_false_iff.mpr once, rfl⟩

theorem evaluateCall (ends : (Packrat.evaluateCall body c size).EndsIn s s') :
    ∃ s₁ result, (body.andThen (Packrat.settle body c size)).EndsIn (s.enter c) s₁ ∧
      s' = (s₁.leave c s.failures).remember c result := by
  obtain ⟨o, run, ended⟩ := ends
  cases inside : body.andThen (Packrat.settle body c size) .unlimited (s.enter c) with
  | mk o₁ s₁ =>
    rcases Outcome.halted_or_result o₁ with ⟨h, rfl⟩ | ⟨result, rfl⟩
    · rw [evaluateCall_of_halted rfl inside] at run
      cases run
      exact absurd rfl (ended h)
    · rw [evaluateCall_of_result rfl inside] at run
      cases run
      exact ⟨s₁, result, ⟨_, inside, ended⟩, rfl⟩

theorem growFrom {rounds : Nat} (ends : (Packrat.growFrom body c (rounds + 1) v stop).EndsIn s s') :
    (∃ v' stop' s₁, body .unlimited (s.plantSeed c v stop) = (.matched v' stop', s₁) ∧ stop < stop' ∧
      (Packrat.growFrom body c rounds v' stop').EndsIn s₁ s') ∨
    ∃ s₁, body.EndsIn (s.plantSeed c v stop) s₁ ∧ s' = s₁.reportGrowth c stop ∧
      ∀ v' stop', body .unlimited (s.plantSeed c v stop) = (.matched v' stop', s₁) → stop' ≤ stop := by
  obtain ⟨o, run, ended⟩ := ends
  cases first : body .unlimited (s.plantSeed c v stop) with
  | mk o₁ s₁ =>
    simp only [Packrat.growFrom, first] at run
    cases o₁ with
    | halted h =>
      cases run
      exact absurd rfl (ended h)
    | failed =>
      cases run
      exact .inr ⟨s₁, .of_failed first, rfl, fun _ _ same => by cases same⟩
    | matched v₁ stop₁ =>
      dsimp only at run
      split at run
      · next shorter =>
        cases run
        refine .inr ⟨s₁, .of_matched first, rfl, fun v' stop' same => ?_⟩
        cases same
        exact shorter
      · next longer => exact .inl ⟨v₁, stop₁, s₁, rfl, by omega, o, run, ended⟩

end EndsIn

end Run

section

variable {p : TypedGrammar} {input : Input} {I : Parse → Prop} {lo : Int} {stack : List Call} {m m' : Moment}
    {s : Parse}
  {c : Call}

theorem TypedGrammar.endsIn_finish {q : TypedProduction} {i : Int} {vs : List Value} {stop : Int} {s s' : Parse}
    (ends : (TypedGrammar.finish q i vs stop).EndsIn s s') : s'.memo = s.memo := by
  obtain ⟨o, run, ended⟩ := ends
  unfold TypedGrammar.finish at run
  rw [Run.inRoomFor_unlimited] at run
  dsimp only at run
  split at run <;> cases run <;> rfl

theorem Sound.finishes_call (faithful : p.Faithful) (invariant : Invariant p input I) {depth : Nat} {name : String}
    {i : Int} {typed : TypedRule} {s₀ : Parse} (sound : Sound p input lo stack ⟨depth + 1, .call name, i, s₀⟩)
    (fresh : s₀.memo.get? ⟨i, name⟩ = none) (known : p.typed? name = some typed)
    (finishes : p.Finishes input ⟨depth + 1, .call name, i, s₀⟩ s) :
    (∃ v stop s₁ s₂, p.body input (p.callWithin input depth) typed i .unlimited (s₀.enter ⟨i, name⟩) =
        (.matched v stop, s₁) ∧ s₁.isReentered ⟨i, name⟩ = true ∧
      p.Finishes input ⟨depth, .growth ⟨i, name⟩ typed (((input.size : Int) - stop).toNat + 1) v, stop, s₁⟩ s₂ ∧
        (I s₂ → I s)) ∨
    ∃ s₁, p.Finishes input ⟨depth, .body typed, i, s₀.enter ⟨i, name⟩⟩ s₁ ∧ (I s₁ → I s) ∧
      ∀ v stop, p.body input (p.callWithin input depth) typed i .unlimited (s₀.enter ⟨i, name⟩) =
        (.matched v stop, s₁) →
        s₁.isReentered ⟨i, name⟩ = false := by
  have lasting := (Invariant.top p input).lasting faithful
  have entered := sound.enter fresh known
  have whole : (p.callWithin input (depth + 1) name i).EndsIn s₀ s := Run.EndsIn.single.mp finishes
  unfold Run.EndsIn at whole
  rw [TypedGrammar.callWithin_of_fresh fresh known] at whole
  obtain ⟨s₂, result, ends, rfl⟩ := Run.EndsIn.evaluateCall whole
  have concluded : Coherent p input (⟨i, name⟩ :: stack) s₂ → I s₂ →
      I ((s₂.leave ⟨i, name⟩ s₀.failures).remember ⟨i, name⟩ result) :=
    fun coherent kept => invariant.conclude coherent kept
  -- The body leaves a coherent state, whether the seed is grown then or not.
  have coherent : ∀ {s₁}, p.Finishes input ⟨depth, .body typed, i, s₀.enter ⟨i, name⟩⟩ s₁ →
      Coherent p input (⟨i, name⟩ :: stack) s₁ := fun first => (entered.lasting_run faithful lasting trivial first).1
  rcases Run.EndsIn.andThen ends with ⟨v, stop, s₁, matched, last⟩ | none
  · have first : p.Finishes input ⟨depth, .body typed, i, s₀.enter ⟨i, name⟩⟩ s₁ :=
      Run.EndsIn.single.mpr (.of_matched matched)
    rcases last.settle with ⟨again, last⟩ | ⟨once, rfl⟩
    · have grown : p.Finishes input
          ⟨depth, .growth ⟨i, name⟩ typed (((input.size : Int) - stop).toNat + 1) v, stop, s₁⟩ s₂ :=
        Run.EndsIn.single.mpr last
      obtain ⟨stack', sound'⟩ := sound.step faithful (.growth fresh known matched again)
      have same : stack' = ⟨i, name⟩ :: stack := sound'.coherent.calls.symm.trans (coherent first).calls
      have coherent' := (sound'.lasting_run faithful lasting trivial grown).1
      exact .inl ⟨v, stop, s₁, s₂, matched, again, grown, concluded (same ▸ coherent')⟩
    · exact .inr ⟨s₂, first, concluded (coherent first), fun _ _ _ => once⟩
  · have first : p.Finishes input ⟨depth, .body typed, i, s₀.enter ⟨i, name⟩⟩ s₂ :=
      Run.EndsIn.single.mpr (.of_failed none)
    refine .inr ⟨s₂, first, concluded (coherent first), fun v stop matched => ?_⟩
    rw [none] at matched
    cases matched

/-- How work is finished that leads to other work. This is one piece, or there are two, and the second one comes up
where the first one ends. What is invariant and holds where the last one ends also holds where the whole does. -/
inductive Pieces (p : TypedGrammar) (input : Input) (I : Parse → Prop) (m : Moment) (s : Parse) : Prop where
  | one {first : Moment} {s₁ : Parse} (ends : p.Finishes input first s₁) (passes : I s₁ → I s)
    (only : ∀ m', p.Leads input m m' → m' = first)
  | two {first next : Moment} {s₁ s₂ : Parse} (ends : p.Finishes input first s₁) (leads : p.Leads input m next)
    (same : next.state.memo = s₁.memo) (other : ∀ typed, next.work ≠ .body typed) (rest : p.Finishes input next s₂)
    (passes : I s₂ → I s) (only : ∀ m', p.Leads input m m' → m' = first ∨ m' = next)

namespace Pieces

variable {depth : Nat} {i : Int} {s₀ : Parse}

theorem call (faithful : p.Faithful) (invariant : Invariant p input I) {name : String} {typed : TypedRule}
    (sound : Sound p input lo stack ⟨depth + 1, .call name, i, s₀⟩) (fresh : s₀.memo.get? ⟨i, name⟩ = none)
    (known : p.typed? name = some typed) (finishes : p.Finishes input ⟨depth + 1, .call name, i, s₀⟩ s) :
    Pieces p input I ⟨depth + 1, .call name, i, s₀⟩ s := by
  rcases sound.finishes_call faithful invariant fresh known finishes with
    ⟨v, stop, s₁, s₂, matched, again, grown, concluded⟩ | ⟨s₁, first, concluded, once⟩
  · have first : p.Finishes input ⟨depth, .body typed, i, s₀.enter ⟨i, name⟩⟩ s₁ :=
      Run.EndsIn.single.mpr (.of_matched matched)
    refine .two first (.growth fresh known matched again) rfl nofun grown concluded fun m' leads => ?_
    cases leads with
    | body _ known' =>
      cases known.symm.trans known'
      exact .inl rfl
    | growth _ known' matched' _ =>
      cases known.symm.trans known'
      cases matched.symm.trans matched'
      exact .inr rfl
  · refine .one first concluded fun m' leads => ?_
    cases leads with
    | body _ known' =>
      cases known.symm.trans known'
      rfl
    | growth _ known' matched again =>
      cases known.symm.trans known'
      obtain ⟨o, run, _⟩ := Run.EndsIn.single.mp first
      cases matched.symm.trans run
      exact absurd again (Bool.eq_false_iff.mp (once _ _ matched))

theorem growth (invariant : Invariant p input I) {typed : TypedRule} {rounds : Nat} {v : Value} {stop : Int}
    (finishes : p.Finishes input ⟨depth, .growth c typed (rounds + 1) v, stop, s₀⟩ s) :
    Pieces p input I ⟨depth, .growth c typed (rounds + 1) v, stop, s₀⟩ s := by
  have ends : (growFrom (p.body input (p.callWithin input depth) typed c.start) c (rounds + 1) v stop).EndsIn s₀ s :=
    Run.EndsIn.single.mp finishes
  rcases ends.growFrom with ⟨v', stop', s₁, matched, longer, last⟩ | ⟨s₁, last, rfl, shorter⟩
  · have first : p.Finishes input ⟨depth, .body typed, c.start, s₀.plantSeed c v stop⟩ s₁ :=
      Run.EndsIn.single.mpr (.of_matched matched)
    refine .two first (.longer matched longer) rfl nofun (Run.EndsIn.single.mpr last) id fun m' leads => ?_
    cases leads with
    | again => exact .inl rfl
    | longer matched' _ =>
      cases matched.symm.trans matched'
      exact .inr rfl
  · have first : p.Finishes input ⟨depth, .body typed, c.start, s₀.plantSeed c v stop⟩ s₁ := Run.EndsIn.single.mpr last
    refine .one first (fun kept => invariant.congr kept rfl) fun m' leads => ?_
    cases leads with
    | again => rfl
    | longer matched longer =>
      obtain ⟨o, run, _⟩ := last
      cases matched.symm.trans run
      exact absurd longer (Int.not_lt.mpr (shorter _ _ matched))

theorem body (invariant : Invariant p input I) {typed : TypedRule}
    (leads : p.Leads input ⟨depth, .body typed, i, s₀⟩ m') (finishes : p.Finishes input ⟨depth, .body typed, i, s₀⟩ s) :
    Pieces p input I ⟨depth, .body typed, i, s₀⟩ s := by
  have ends : (p.body input (p.callWithin input depth) typed i).EndsIn s₀ s := Run.EndsIn.single.mp finishes
  have first : ∃ s₁, p.Finishes input m' s₁ ∧ s.memo = s₁.memo := by
    cases leads
    unfold TypedGrammar.body at ends
    cases named : typed.errorName with
    | none =>
      rw [named] at ends
      exact ⟨s, Run.EndsIn.single.mpr ends, rfl⟩
    | some name =>
      rw [named] at ends
      obtain ⟨s₁, last, same⟩ := Run.EndsIn.named ends
      exact ⟨s₁, Run.EndsIn.single.mpr last, same⟩
  obtain ⟨s₁, first, same⟩ := first
  refine .one first (fun kept => invariant.congr kept same) fun _ leads' => ?_
  cases leads
  cases leads'
  rfl

theorem productions (invariant : Invariant p input I) {q : TypedProduction} {others : List TypedProduction}
    (finishes : p.Finishes input ⟨depth, .productions (q :: others), i, s₀⟩ s) :
    Pieces p input I ⟨depth, .productions (q :: others), i, s₀⟩ s := by
  have ends : (p.firstProduction input (p.callWithin input depth) (q :: others) i).EndsIn s₀ s :=
    Run.EndsIn.single.mp finishes
  -- A production ends where its items do, but for what is made of them.
  have items : ∀ {s₁}, (p.production input (p.callWithin input depth) q i).EndsIn s₀ s₁ →
      ∃ s₂, p.Finishes input ⟨depth, .items q.items, i, s₀⟩ s₂ ∧ s₁.memo = s₂.memo :=
    fun ends => Run.EndsIn.first ends fun _ _ _ => TypedGrammar.endsIn_finish
  rcases ends.orElse with ⟨v, stop, matched⟩ | ⟨s₁, failed, last⟩
  · obtain ⟨s₁, first, same⟩ := items (.of_matched matched)
    refine .one first (fun kept => invariant.congr kept same) fun m' leads => ?_
    cases leads with
    | production => rfl
    | nextProduction failed => cases matched.symm.trans failed
  · obtain ⟨s₂, first, same⟩ := items (.of_failed failed)
    refine .two first (.nextProduction failed) same nofun (Run.EndsIn.single.mpr last) id fun m' leads => ?_
    cases leads with
    | production => exact .inl rfl
    | nextProduction failed' =>
      cases failed.symm.trans failed'
      exact .inr rfl

theorem items (invariant : Invariant p input I) {e : Expr} {es : List Expr}
    (finishes : p.Finishes input ⟨depth, .items (e :: es), i, s₀⟩ s) :
    Pieces p input I ⟨depth, .items (e :: es), i, s₀⟩ s := by
  have ends : (p.evaluateAll input (p.callWithin input depth) (e :: es) i).EndsIn s₀ s := finishes
  unfold TypedGrammar.evaluateAll at ends
  rcases ends.andThen with ⟨v, stop, s₁, matched, last⟩ | failed
  · have first : p.Finishes input ⟨depth, .expr e, i, s₀⟩ s₁ := Run.EndsIn.single.mpr (.of_matched matched)
    obtain ⟨s₂, last, same⟩ := last.first fun _ _ _ ends => by rw [ends.done]
    refine .two first (.nextItem matched) rfl nofun last (fun kept => invariant.congr kept same) fun m' leads => ?_
    cases leads with
    | item => exact .inl rfl
    | nextItem matched' =>
      cases matched.symm.trans matched'
      exact .inr rfl
  · have first : p.Finishes input ⟨depth, .expr e, i, s₀⟩ s := Run.EndsIn.single.mpr (.of_failed failed)
    refine .one first id fun m' leads => ?_
    cases leads with
    | item => rfl
    | nextItem matched => cases failed.symm.trans matched

theorem alternatives {e : Expr} {es : List Expr}
    (finishes : p.Finishes input ⟨depth, .alternatives (e :: es), i, s₀⟩ s) :
    Pieces p input I ⟨depth, .alternatives (e :: es), i, s₀⟩ s := by
  have ends : (p.evaluateFirst input (p.callWithin input depth) (e :: es) i).EndsIn s₀ s :=
    Run.EndsIn.single.mp finishes
  unfold TypedGrammar.evaluateFirst at ends
  rcases ends.orElse with ⟨v, stop, matched⟩ | ⟨s₁, failed, last⟩
  · have first : p.Finishes input ⟨depth, .expr e, i, s₀⟩ s := Run.EndsIn.single.mpr (.of_matched matched)
    refine .one first id fun m' leads => ?_
    cases leads with
    | alternative => rfl
    | nextAlternative failed => cases matched.symm.trans failed
  · have first : p.Finishes input ⟨depth, .expr e, i, s₀⟩ s₁ := Run.EndsIn.single.mpr (.of_failed failed)
    refine .two first (.nextAlternative failed) rfl nofun (Run.EndsIn.single.mpr last) id fun m' leads => ?_
    cases leads with
    | alternative => exact .inl rfl
    | nextAlternative failed' =>
      cases failed.symm.trans failed'
      exact .inr rfl

theorem rounds (invariant : Invariant p input I) {once : Bool} {e : Expr} {left : Nat} {values : List Value}
    (finishes : p.Finishes input ⟨depth, .rounds once e (left + 1) values, i, s₀⟩ s) :
    Pieces p input I ⟨depth, .rounds once e (left + 1) values, i, s₀⟩ s := by
  have ends : (Run.many (p.evaluate input (p.callWithin input depth) e) once (left + 1) values i).EndsIn s₀ s :=
    Run.EndsIn.single.mp finishes
  rw [Run.many_succ_eq_split] at ends
  rcases ends.split with ⟨v, stop, s₁, matched, last⟩ | ⟨s₁, failed, last⟩
  · have first : p.Finishes input ⟨depth, .expr e, i, s₀⟩ s₁ := Run.EndsIn.single.mpr (.of_matched matched)
    unfold Run.nextRound at last
    split at last
    · next still =>
      refine .one first (fun kept => invariant.congr kept (by rw [last.repeated])) fun m' leads => ?_
      cases leads with
      | round => rfl
      | nextRound matched' moved =>
        cases matched.symm.trans matched'
        exact absurd still moved
    · next moved =>
      refine .two first (.nextRound matched moved) rfl nofun (Run.EndsIn.single.mpr last) id fun m' leads => ?_
      cases leads with
      | round => exact .inl rfl
      | nextRound matched' _ =>
        cases matched.symm.trans matched'
        exact .inr rfl
  · have first : p.Finishes input ⟨depth, .expr e, i, s₀⟩ s₁ := Run.EndsIn.single.mpr (.of_failed failed)
    refine .one first (fun kept => invariant.congr kept (by rw [last.repeated])) fun m' leads => ?_
    cases leads with
    | round => rfl
    | nextRound matched _ => cases failed.symm.trans matched

theorem expr (invariant : Invariant p input I) {e : Expr} (leads : p.Leads input ⟨depth, .expr e, i, s₀⟩ m')
    (finishes : p.Finishes input ⟨depth, .expr e, i, s₀⟩ s) : Pieces p input I ⟨depth, .expr e, i, s₀⟩ s := by
  have ends : (p.evaluate input (p.callWithin input depth) e i).EndsIn s₀ s := Run.EndsIn.single.mp finishes
  have one : ∀ {s₁}, p.Finishes input m' s₁ → s.memo = s₁.memo → Pieces p input I ⟨depth, .expr e, i, s₀⟩ s := by
    intro s₁ first same
    refine .one first (fun kept => invariant.congr kept same) fun _ leads' => ?_
    cases leads <;> cases leads' <;> rfl
  cases leads with
  | @reference _ name _ _ r found =>
    simp only [TypedGrammar.evaluate, found] at ends
    exact one (Run.EndsIn.single.mpr ends) rfl
  | @sequence _ es =>
    unfold TypedGrammar.evaluate at ends
    obtain ⟨s₁, last, same⟩ := Run.EndsIn.first (m := p.evaluateAll input (p.callWithin input depth) es i) ends
      fun _ _ _ ends => by rw [ends.done]
    exact one last same
  | choice =>
    unfold TypedGrammar.evaluate at ends
    exact one (Run.EndsIn.single.mpr ends) rfl
  | @optional _ e =>
    unfold TypedGrammar.evaluate at ends
    rcases Run.EndsIn.orElse (m := p.evaluate input (p.callWithin input depth) e i) ends with
      ⟨v, stop, matched⟩ | ⟨s₁, failed, last⟩
    · exact one (Run.EndsIn.single.mpr (.of_matched matched)) rfl
    · exact one (Run.EndsIn.single.mpr (.of_failed failed)) (by rw [last.done])
  | bind =>
    unfold TypedGrammar.evaluate at ends
    exact one (Run.EndsIn.single.mpr ends) rfl
  | @ahead _ e =>
    unfold TypedGrammar.evaluate at ends
    obtain ⟨s₁, last, same⟩ := Run.EndsIn.first (m := p.evaluate input (p.callWithin input depth) e i) ends
      fun _ _ _ ends => by rw [ends.done]
    exact one (Run.EndsIn.single.mpr last) same
  | notAhead =>
    unfold TypedGrammar.evaluate at ends
    obtain ⟨s₁, last, same⟩ := Run.EndsIn.negate ends
    exact one (Run.EndsIn.single.mpr last) same
  | repetition =>
    unfold TypedGrammar.evaluate at ends
    exact one (Run.EndsIn.single.mpr ends) rfl

end Pieces

theorem Sound.pieces (faithful : p.Faithful) (invariant : Invariant p input I) (sound : Sound p input lo stack m)
    (leads : p.Leads input m m') (finishes : p.Finishes input m s) : Pieces p input I m s := by
  obtain ⟨depth, work, i, s₀⟩ := m
  cases work with
  | call name =>
    cases leads with
    | body fresh known => exact .call faithful invariant sound fresh known finishes
    | growth fresh known _ _ => exact .call faithful invariant sound fresh known finishes
  | body => exact .body invariant leads finishes
  | growth => cases leads <;> exact .growth invariant finishes
  | productions => cases leads <;> exact .productions invariant finishes
  | items => cases leads <;> exact .items invariant finishes
  | alternatives => cases leads <;> exact .alternatives finishes
  | expr => exact .expr invariant leads finishes
  | rounds => cases leads <;> exact .rounds invariant finishes

theorem Sound.finishes_of_leads (faithful : p.Faithful) (invariant : Invariant p input I)
    (sound : Sound p input lo stack m) (leads : p.Leads input m m') (finishes : p.Finishes input m s) :
    ∃ s', p.Finishes input m' s' ∧ (I s' → I s) := by
  cases sound.pieces faithful invariant leads finishes with
  | one ends passes only =>
    obtain rfl := only m' leads
    exact ⟨_, ends, passes⟩
  | two ends next same _ rest passes only =>
    rcases only m' leads with rfl | rfl
    · refine ⟨_, ends, fun kept => passes ?_⟩
      obtain ⟨stack', sound'⟩ := sound.step faithful next
      exact (sound'.lasting_run faithful (invariant.lasting faithful) (invariant.congr kept same) rest).2
    · exact ⟨_, rest, passes⟩

end

end Packrat
