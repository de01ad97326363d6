import Packrat.Proofs.Parse.Termination

namespace Packrat

open Filter Relation

/-- A property of what is on record that calls keep, as they do in step with some way to answer them. -/
structure Lasting (p : TypedGrammar) (input : Input) (I : Parse → Prop) : Prop where
  congr : ∀ {s s'}, I s → s'.memo = s.memo → I s'
  enter : ∀ {stack s c}, Coherent p input stack s → I s → s.memo.get? c = none → I (s.enter c)
  plantSeed : ∀ {stack s c v stop}, Coherent p input (c :: stack) s → I s → I (s.plantSeed c v stop)
  answers : ∀ lo {stack s}, Coherent p input stack s → stack.IsChain (Call.Follows p.grammar) → s.failures.Proper →
    I s → ∃ R calls t, Answering p input lo (· ≠ .exhausted) (fun _ => True) R calls ∧ t.failures.Proper ∧
      R s stack s t ∧ ∀ {stack' s' t'}, R s stack' s' t' → I s'

theorem Invariant.lasting {p : TypedGrammar} {input : Input} {I : Parse → Prop} (invariant : Invariant p input I)
    (faithful : p.Faithful) : Lasting p input I where
  congr := invariant.congr
  enter := invariant.enter
  plantSeed := invariant.plantSeed
  answers lo {_ s} coherent _ proper kept := by
    refine ⟨_, _, s, TypedGrammar.answering_keeping invariant faithful lo, proper,
      ⟨⟨rfl, rfl, coherent, .refl _ _⟩, kept⟩, ?_⟩
    exact fun related => related.2

def TypedGrammar.Finishes (p : TypedGrammar) (input : Input) (m : Moment) (s : Parse) : Prop :=
  ∃ o, p.run input m = (o, s) ∧ ∀ h, o ≠ .halted h

section

variable {p : TypedGrammar} {input : Input} {I : Parse → Prop} {lo : Int} {stack : List Call} {m m' : Moment}
  {s s' : Parse} {c : Call} {below : List Call} {α : Type}

theorem Meets.lasting {R : Parse → Parse → Prop} {H : Halt → Prop} {Q : α → Int → Prop} {w : Run α} {n : Nat → Run α}
    {t : Parse} {o : Outcome α} (meets : Meets R H Q w n s t) (right : ∀ {s' t'}, R s' t' → I s')
    (run : w .unlimited s = (o, s')) (ended : ∀ h, o ≠ .halted h) : I s' := by
  obtain ⟨o', s₁, t₁, run', _, ends⟩ := meets
  rw [run] at run'
  cases run'
  cases ends with
  | halted => exact absurd rfl (ended _)
  | failed agree => exact right agree.related
  | matched agree => exact right agree.related

namespace Sound

theorem lasting_of (lasting : Lasting p input I) (sound : Sound p input lo (c :: below) m) (kept : I m.state)
    {w : Run α} {o : Outcome α}
    (tracks : ∀ {R : Parse → Parse → Prop} {calls : Nat → String → Int → Run Value}, TypedGrammar.Conduct p input R
      (· ≠ .exhausted) c.start (p.grammar.scope c.rule) (p.callWithin input m.depth) calls →
        ∃ Q n, Tracks R (· ≠ .exhausted) Q w n)
    (run : w .unlimited m.state = (o, s')) (ended : ∀ h, o ≠ .halted h) :
    Coherent p input (c :: below) s' ∧ I s' := by
  obtain ⟨R, calls, t, answering, proper, related, right⟩ :=
    lasting.answers lo sound.coherent sound.standing.chain sound.proper kept
  obtain ⟨_, n, tracks⟩ := tracks (sound.answers answering trivial m.state)
  have right' : ∀ {s' t'}, R m.state (c :: below) s' t' → Coherent p input (c :: below) s' ∧ I s' :=
    fun related => ⟨answering.coherent related, right related⟩
  exact (tracks _ _ related sound.proper proper).lasting right' run ended

theorem lasting_step (faithful : p.Faithful) (lasting : Lasting p input I) (sound : Sound p input lo stack m)
    (kept : I m.state) (leads : p.Leads input m m') : I m'.state := by
  cases leads with
  | body fresh known => exact lasting.enter sound.coherent kept fresh
  | growth fresh known matched _ =>
    exact ((sound.enter fresh known).lasting_of lasting (lasting.enter sound.coherent kept fresh)
      (fun conduct => ⟨_, _, TypedGrammar.Conduct.body known conduct⟩) matched nofun).2
  | again =>
    obtain ⟨below, rfl, _⟩ := sound.placed
    exact lasting.plantSeed sound.coherent kept
  | longer matched longer =>
    obtain ⟨below, rfl, known, _⟩ := sound.placed
    exact (sound.plant.lasting_of lasting (lasting.plantSeed sound.coherent kept)
      (fun conduct => ⟨_, _, TypedGrammar.Conduct.body known conduct⟩) matched nofun).2
  | productions =>
    dsimp only
    split
    · exact kept
    · exact lasting.congr kept rfl
  | @nextProduction depth q rest i s s' failed =>
    obtain ⟨c, below, typed, rfl, known, rfl, listed⟩ := sound.placed
    have inside : TypedGrammar.Inside p.grammar input c.start (p.grammar.scope c.rule) (.items q.items)
        c.start := TypedGrammar.Conduct.inside_production faithful known (listed List.mem_cons_self) c.start
    exact (sound.lasting_of lasting kept (fun conduct => ⟨_, _, conduct.production inside⟩) failed nofun).2
  | @nextItem depth e es i s v stop s' matched =>
    obtain ⟨c, below, rfl, inside⟩ := sound.placed
    exact (sound.lasting_of lasting kept (fun conduct => ⟨_, _, conduct.evaluate e i inside.head⟩) matched nofun).2
  | @nextAlternative depth e es i s s' failed =>
    obtain ⟨c, below, rfl, _, inside⟩ := sound.placed
    exact (sound.lasting_of lasting kept
      (fun conduct => ⟨_, _, conduct.evaluate e i (inside e List.mem_cons_self)⟩) failed nofun).2
  | @nextRound depth atLeastOnce e rounds values i s v stop s' matched moved =>
    obtain ⟨c, below, rfl, _, inside⟩ := sound.placed
    have here := inside.later (Int.le_refl _) (le_max_left _ _)
    exact (sound.lasting_of lasting kept (fun conduct => ⟨_, _, conduct.evaluate e i here⟩) matched nofun).2
  | notAhead => exact lasting.congr kept rfl
  | production | item | alternative | reference | sequence | choice | optional | bind | ahead | repetition | round =>
    exact kept

theorem lasting_steps (faithful : p.Faithful) (lasting : Lasting p input I) (sound : Sound p input lo stack m)
    (kept : I m.state) (leads : ReflTransGen (p.Leads input) m m') : I m'.state := by
  induction leads with
  | refl => exact kept
  | tail before last ih =>
    obtain ⟨stack', sound'⟩ := sound.steps faithful before
    exact sound'.lasting_step faithful lasting ih last

theorem lasting_growth (faithful : p.Faithful) (lasting : Lasting p input I) {depth left : Nat} {typed : TypedRule}
    {v : Value} {stop : Int} (sound : Sound p input lo stack ⟨depth, .growth c typed left v, stop, s⟩) (kept : I s)
    {o : Outcome Value}
    (run : growFrom (p.body input (p.callWithin input depth) typed c.start) c left v stop .unlimited s =
      (o, s')) (ended : ∀ h, o ≠ .halted h) : Coherent p input stack s' ∧ I s' := by
  induction left generalizing v stop s stack with
  | zero =>
    cases run
    exact absurd rfl (ended _)
  | succ left ih =>
    obtain ⟨below, rfl, known, _⟩ := sound.placed
    have planted : I (s.plantSeed c v stop) := lasting.plantSeed sound.coherent kept
    cases first : p.body input (p.callWithin input depth) typed c.start .unlimited (s.plantSeed c v stop) with
    | mk o₁ s₁ =>
      have finished : (∀ h, o₁ ≠ .halted h) → Coherent p input (c :: below) s₁ ∧ I s₁ := fun ended =>
        sound.plant.lasting_of lasting planted
          (fun conduct => ⟨_, _, TypedGrammar.Conduct.body known conduct⟩) first ended
      have reported : (∀ h, o₁ ≠ .halted h) → Coherent p input (c :: below) (s₁.reportGrowth c stop) ∧
          I (s₁.reportGrowth c stop) := fun ended =>
        ⟨(finished ended).1.congr rfl rfl, lasting.congr (finished ended).2 rfl⟩
      simp only [growFrom, first] at run
      cases o₁ with
      | halted h =>
        cases run
        exact absurd rfl (ended _)
      | failed =>
        cases run
        exact reported fun _ same => by cases same
      | matched v₁ stop₁ =>
        dsimp only at run
        have matched : ∀ h, Outcome.matched v₁ stop₁ ≠ .halted h := fun _ same => by cases same
        split at run
        · cases run
          exact reported matched
        · next longer =>
          exact ih (sound.longer faithful first (by omega)) (finished matched).2 run

end Sound

theorem Run.of_single {w : Run Value} {room : Room} {o : Outcome (List Value)} (run : w.single room s = (o, s'))
    (ended : ∀ h, o ≠ .halted h) : ∃ o', w room s = (o', s') ∧ ∀ h, o' ≠ .halted h := by
  unfold Run.single Run.andThen at run
  cases first : w room s with
  | mk o₁ s₁ =>
    rw [first] at run
    cases o₁ with
    | matched v stop =>
      cases run
      exact ⟨_, rfl, nofun⟩
    | failed =>
      cases run
      exact ⟨_, rfl, nofun⟩
    | halted h =>
      cases run
      exact absurd rfl (ended h)

namespace Sound

theorem lasting_run (faithful : p.Faithful) (lasting : Lasting p input I) (sound : Sound p input lo stack m)
    (kept : I m.state) (finishes : p.Finishes input m s') : Coherent p input stack s' ∧ I s' := by
  obtain ⟨o, run, ended⟩ := finishes
  obtain ⟨depth, w, i, s⟩ := m
  cases w with
  | call name =>
    obtain ⟨o', run, ended⟩ := Run.of_single run ended
    obtain ⟨R, calls, t, answering, proper, related, right⟩ :=
      lasting.answers lo sound.coherent sound.standing.chain sound.proper kept
    have right' : ∀ {s' t'}, R s stack s' t' → Coherent p input stack s' ∧ I s' :=
      fun related => ⟨answering.coherent related, right related⟩
    exact (sound.tracks_call answering trivial s s t related sound.proper proper).lasting right' run ended
  | body typed =>
    obtain ⟨o', run, ended⟩ := Run.of_single run ended
    obtain ⟨c, below, rfl, known, rfl⟩ := sound.placed
    exact sound.lasting_of lasting kept (fun conduct => ⟨_, _, TypedGrammar.Conduct.body known conduct⟩) run ended
  | growth c typed left seed =>
    obtain ⟨o', run, ended⟩ := Run.of_single run ended
    exact sound.lasting_growth faithful lasting kept run ended
  | productions rest =>
    obtain ⟨o', run, ended⟩ := Run.of_single run ended
    obtain ⟨c, below, typed, rfl, known, rfl, listed⟩ := sound.placed
    refine sound.lasting_of lasting kept (fun conduct => ⟨_, _, conduct.firstProduction fun q member => ?_⟩) run ended
    exact TypedGrammar.Conduct.inside_production faithful known (listed member) c.start
  | items es =>
    obtain ⟨c, below, rfl, inside⟩ := sound.placed
    exact sound.lasting_of lasting kept (fun conduct => ⟨_, _, conduct.evaluateAll es i inside⟩) run ended
  | alternatives es =>
    obtain ⟨o', run, ended⟩ := Run.of_single run ended
    obtain ⟨c, below, rfl, _, inside⟩ := sound.placed
    exact sound.lasting_of lasting kept (fun conduct => ⟨_, _, conduct.evaluateFirst es i inside⟩) run ended
  | expr e =>
    obtain ⟨o', run, ended⟩ := Run.of_single run ended
    obtain ⟨c, below, rfl, inside⟩ := sound.placed
    exact sound.lasting_of lasting kept (fun conduct => ⟨_, _, conduct.evaluate e i inside⟩) run ended
  | rounds atLeastOnce item left values =>
    obtain ⟨o', run, ended⟩ := Run.of_single run ended
    obtain ⟨c, below, rfl, enough, inside⟩ := sound.placed
    refine sound.lasting_of lasting kept (fun conduct => ?_) run ended
    have each := fun j behind within => conduct.evaluate item j (inside.later behind within)
    exact ⟨_, _, TypedGrammar.Conduct.many each enough⟩

end Sound

theorem Completed.lasting (faithful : p.Faithful) (lasting : Lasting p input I) (initial : ∀ events, I { events })
    (completed : Completed p input s) : I s := by
  induction completed with
  | fresh events => exact initial events
  | @apply s room name i o s' before run ended ih =>
    obtain ⟨coherent, proper⟩ := before.coherent faithful
    obtain ⟨R, calls, t, answering, proper', related, right⟩ := lasting.answers i coherent .nil proper ih
    have tracks : Tracks _ _ _ (p.apply input name i) _ := answering.tracks_apply s trivial
    have run' := (TypedGrammar.steady_apply name i).run_unlimited run ended
    exact (tracks s t related proper proper').lasting right run' ended

end

end Packrat
