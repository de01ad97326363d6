import Packrat.Proofs.Parse.Moment
import Packrat.Proofs.Parse.Room

namespace Packrat

open Filter Relation

theorem Tracks.single {R : Parse → Parse → Prop} {H : Halt → Prop} {Q : Value → Int → Prop} {m : Run Value}
    {n : Nat → Run Value} (tracks : Tracks R H Q m n) :
    Tracks R H (fun _ stop => ∃ v, Q v stop) m.single fun d => (n d).single :=
  .andThen tracks fun v _ holds => .done ⟨v, holds⟩

namespace Sound

variable {p : TypedGrammar} {input : Input} {lo : Int} {stack : List Call} {m m' : Moment} {depth : Nat}
  {i : Int} {s s' : Parse}

def Good (input : Input) (m : Moment) (r : Outcome (List Value) × Parse) : Prop :=
  r.1 ≠ .halted .exhausted ∧
    ∀ vs stop, r.1 = .matched vs stop → m.start ≤ stop ∧ stop ≤ max m.start input.size

theorem good_of_meets {R : Parse → Parse → Prop} {Q : List Value → Int → Prop} {w : Run (List Value)}
    {n : Nat → Run (List Value)} {t : Parse} (meets : Meets R (· ≠ .exhausted) Q w n s t)
    (bounded : ∀ vs stop, Q vs stop → m.start ≤ stop ∧ stop ≤ max m.start input.size) :
    Good input m (w .unlimited s) := by
  obtain ⟨o, s', t', run, _, ends⟩ := meets
  rw [run]
  cases ends with
  | halted allowed => exact ⟨fun exhausted => allowed (Outcome.halted.inj exhausted), nofun⟩
  | failed => exact ⟨nofun, nofun⟩
  | matched agree holds =>
    refine ⟨nofun, ?_⟩
    intro vs stop same
    cases same
    exact bounded _ _ holds

theorem good (faithful : p.Faithful) (sound : Sound p input lo stack m) : Good input m (p.run input m) := by
  obtain ⟨depth, w, i, s⟩ := m
  have twin := sound.twin
  have proper := sound.proper
  have bounds : ∀ {goal : Goal} {j vs stop}, p.Derives input goal j vs stop → j ≤ stop ∧ stop ≤ max j input.size :=
    fun derived => ⟨derived.le_stop, derived.stop_le⟩
  cases w with
  | call name =>
    have tracks := sound.tracks_call (TypedGrammar.answering faithful input lo) trivial s
    exact good_of_meets (tracks.single s s twin proper proper) fun vs stop ⟨v, derived⟩ => bounds derived
  | body typed =>
    obtain ⟨c, below, rfl, known, rfl⟩ := sound.placed
    have tracks := TypedGrammar.Conduct.body known (sound.conduct faithful s)
    exact good_of_meets (tracks.single s s twin proper proper) fun vs stop ⟨v, derived⟩ => bounds derived
  | growth c typed left seed =>
    obtain ⟨below, rfl, known, derived, enough⟩ := sound.placed
    have outside := (List.nodup_cons.mp sound.standing.nodup).1
    have within : Twin.Within p input s c below s s := ⟨rfl, rfl, sound.coherent, .refl _ _⟩
    have top := Invariant.top p input
    have body := fun s₁ => TypedGrammar.Conduct.body known
      (sound.answers (TypedGrammar.answering_keeping top faithful lo) trivial s₁)
    refine good_of_meets (Tracks.single (Tracks.growFrom (Twin.growing top outside) (Twin.within_tracks body)
      derived enough) s s ⟨within, trivial⟩ proper proper) fun vs stop ⟨v, derived⟩ => bounds derived
  | productions rest =>
    obtain ⟨c, below, typed, rfl, known, rfl, listed⟩ := sound.placed
    have tracks := (sound.conduct faithful s).firstProduction fun q member =>
      TypedGrammar.Conduct.inside_production faithful known (listed member) c.start
    refine good_of_meets (tracks.single s s twin proper proper) ?_
    intro vs stop ⟨v, q, _, us, derived, _⟩
    exact bounds derived
  | items es =>
    obtain ⟨c, below, rfl, inside⟩ := sound.placed
    have tracks := (sound.conduct faithful s).evaluateAll es i inside
    exact good_of_meets (tracks s s twin proper proper) fun vs stop derived => bounds derived
  | alternatives es =>
    obtain ⟨c, below, rfl, _, inside⟩ := sound.placed
    have tracks := (sound.conduct faithful s).evaluateFirst es i inside
    refine good_of_meets (tracks.single s s twin proper proper) ?_
    intro vs stop ⟨v, e, _, derived⟩
    exact bounds derived
  | expr e =>
    obtain ⟨c, below, rfl, inside⟩ := sound.placed
    have tracks := (sound.conduct faithful s).evaluate e i inside
    exact good_of_meets (tracks.single s s twin proper proper) fun vs stop ⟨v, derived⟩ => bounds derived
  | rounds atLeastOnce item left values =>
    obtain ⟨c, below, rfl, enough, inside⟩ := sound.placed
    have each := fun j behind within =>
      (sound.conduct faithful s).evaluate item j (inside.later behind within)
    refine good_of_meets (Tracks.single (TypedGrammar.Conduct.many each enough) s s twin proper proper) ?_
    intro vs stop ⟨v, us, _, derived, _⟩
    exact bounds derived

theorem lt_of_rounds (faithful : p.Faithful) (sound : Sound p input lo stack m) (leads : p.Leads input m m')
    {once once' : Bool} {item item' : Expr} {left left' : Nat} {values values' : List Value}
    (work : m.work = .rounds once item left values) (work' : m'.work = .rounds once' item' left' values') :
    m.index < m'.index := by
  cases leads with
  | @nextRound depth atLeastOnce e rounds values i s v stop s' matched moved =>
    obtain ⟨c, below, rfl, enough, inside⟩ := sound.placed
    have here := inside.later (Int.le_refl _) (le_max_left _ _)
    obtain ⟨t', agree, derived⟩ := ((sound.conduct faithful s).evaluate e i here s s sound.twin sound.proper
      sound.proper).of_matched matched
    have further := derived.le_stop
    dsimp only
    omega
  | _ => simp_all

theorem rounds_of_agree {c : Call} {below : List Call} {e : Entry} {v : Value} {stop : Int} {t t' : Parse}
    (found : s.memo.get? c = some e)
    (agree : Agree (Twin p input (s.plantSeed c v stop) (c :: below)) (s.plantSeed c v stop) t s' t') :
    ∃ e', s'.memo.get? c = some e' ∧ e'.rounds = e.rounds + 1 := by
  have planted : (s.plantSeed c v stop).memo.get? c =
      some { e with result := some (v, stop), rounds := e.rounds + 1 } := by
    rw [Parse.get?_plantSeed, if_pos rfl, found]
    rfl
  obtain ⟨e', found', r, q, rfl⟩ := agree.related.later.pending List.mem_cons_self planted
  exact ⟨_, found', rfl⟩

theorem reported (faithful : p.Faithful) {c : Call} {typed : TypedRule} {left : Nat} {v v' : Value}
    {stop stop' : Int} {e : Entry} (sound : Sound p input lo stack ⟨depth, .growth c typed left v, stop, s⟩)
    (found : s.memo.get? c = some e) (within : stop ≤ input.size)
    (run : growFrom (p.body input (p.callWithin input depth) typed c.start) c left v stop .unlimited s =
      (.matched v' stop', s')) :
    ∃ rounds events, s'.events = .grew c.rule c.start stop' rounds :: events ∧
      (rounds : Int) ≤ e.rounds + (input.size - stop) + 1 := by
  -- Every further round takes input, so the rounds counted and the input that is left add up to no more.
  induction left generalizing v stop s e stack with
  | zero => cases run
  | succ left ih =>
    obtain ⟨below, rfl, known, derived, _⟩ := sound.placed
    have tracks := TypedGrammar.Conduct.body known (sound.plant.conduct faithful (s.plantSeed c v stop))
    have meets := tracks _ _ sound.plant.twin sound.proper sound.proper
    have finished : ∀ {s₁ t₁}, Agree (Twin p input (s.plantSeed c v stop) (c :: below)) (s.plantSeed c v stop)
        (s.plantSeed c v stop) s₁ t₁ → ∃ rounds events, (s₁.reportGrowth c stop).events =
          .grew c.rule c.start stop rounds :: events ∧ (rounds : Int) ≤ e.rounds + (input.size - stop) + 1 := by
      intro s₁ t₁ agree
      obtain ⟨e₁, found₁, rounds⟩ := rounds_of_agree found agree
      refine ⟨e₁.rounds, s₁.events, ?_, by omega⟩
      simp only [Parse.reportGrowth, found₁, Option.map_some, Option.getD_some]
    cases first : p.body input (p.callWithin input depth) typed c.start .unlimited (s.plantSeed c v stop) with
    | mk o s₁ =>
      simp only [growFrom, first] at run
      cases o with
      | halted h => cases run
      | failed =>
        obtain ⟨t₁, agree⟩ := meets.of_failed first
        cases run
        exact finished agree
      | matched v₁ stop₁ =>
        obtain ⟨t₁, agree, derived₁⟩ := meets.of_matched first
        dsimp only at run
        split at run
        · cases run
          exact finished agree
        · next longer =>
          have longer : stop < stop₁ := by omega
          obtain ⟨stack', sound'⟩ := sound.step faithful (.longer first longer)
          obtain ⟨e₁, found₁, rounds⟩ := rounds_of_agree found agree
          have before := derived.le_stop
          have bounded := derived₁.stop_le
          dsimp only at before
          obtain ⟨all, events, report, few⟩ := ih sound' found₁ (by omega) run
          exact ⟨all, events, report, by omega⟩

theorem lt_of_growth (leads : p.Leads input m m') {c c' : Call} {typed typed' : TypedRule} {left left' : Nat}
    {v v' : Value} (work : m.work = .growth c typed left v) (work' : m'.work = .growth c' typed' left' v') :
    m.index < m'.index := by
  cases leads with
  | longer _ longer => exact longer
  | _ => simp_all

end Sound

namespace TypedGrammar

inductive Grows (p : TypedGrammar) (input : Input) (m : Moment) : Nat → Moment → Prop where
  | start {c typed left v} (work : m.work = .growth c typed left v) : Grows p input m 0 m
  | round {rounds m₁ m₂ c typed left v} (before : Grows p input m rounds m₁) (leads : p.Leads input m₁ m₂)
    (work : m₂.work = .growth c typed left v) : Grows p input m (rounds + 1) m₂

variable {p : TypedGrammar} {input : Input} {m m' : Moment}

theorem Grows.growth {rounds : Nat} (grows : p.Grows input m rounds m') :
    ∃ c typed left v, m'.work = .growth c typed left v := by
  cases grows with
  | start work => exact ⟨_, _, _, _, work⟩
  | round _ _ work => exact ⟨_, _, _, _, work⟩

theorem Grows.leads {rounds : Nat} (grows : p.Grows input m rounds m') : ReflTransGen (p.Leads input) m m' := by
  induction grows with
  | start => exact .refl
  | round _ leads _ ih => exact ih.tail leads

theorem Grows.le {rounds : Nat} (grows : p.Grows input m rounds m') : m.index + rounds ≤ m'.index := by
  induction grows with
  | start => simp
  | round before leads work ih =>
    obtain ⟨_, _, _, _, work₁⟩ := before.growth
    have further := Sound.lt_of_growth leads work₁ work
    push_cast
    omega

end TypedGrammar

inductive Completed (p : TypedGrammar) (input : Input) : Parse → Prop where
  | fresh (events : List Event) : Completed p input { events }
  | apply {s room name i o s'} (before : Completed p input s) (run : p.apply input name i room s = (o, s'))
    (ended : ∀ h, o ≠ .halted h) : Completed p input s'

namespace Completed

variable {p : TypedGrammar} {input : Input} {s : Parse}

theorem coherent (faithful : p.Faithful) (completed : Completed p input s) :
    Coherent p input [] s ∧ s.failures.Proper := by
  induction completed with
  | fresh events => exact ⟨.initial events, Failures.proper_none⟩
  | @apply s room name i o s' _ run ended ih =>
    obtain ⟨coherent, proper⟩ := ih
    obtain ⟨o', s₁, t₁, run', _, ends⟩ := TypedGrammar.apply_ends faithful coherent proper name i
    cases run'.symm.trans ((TypedGrammar.steady_apply name i).run_unlimited run ended)
    cases ends with
    | halted => exact absurd rfl (ended _)
    | failed agree | matched agree => exact ⟨agree.related.coherent, agree.proper_left proper⟩

end Completed

namespace Sound

variable {p : TypedGrammar} {input : Input} {lo : Int} {stack : List Call} {m m' : Moment}

theorem start_le (sound : Sound p input lo stack m) : m.start ≤ max lo input.size := by
  obtain ⟨depth, w, i, s⟩ := m
  have inside : ∀ {c : Call} {below : List Call}, stack = c :: below → c.start ≤ max lo input.size := by
    intro c below same
    subst same
    exact (sound.standing.within c List.mem_cons_self).2
  have placed := sound.placed
  cases w with
  | call name => exact placed.2.2
  | body typed =>
    obtain ⟨c, below, rfl, _, rfl⟩ := placed
    exact inside rfl
  | growth c typed left seed =>
    obtain ⟨below, rfl, _⟩ := placed
    exact inside rfl
  | productions rest =>
    obtain ⟨c, below, typed, rfl, _, rfl, _⟩ := placed
    exact inside rfl
  | items es | expr e =>
    obtain ⟨c, below, rfl, here⟩ := placed
    have := inside rfl
    have := here.within
    dsimp only [Moment.start] at *
    omega
  | alternatives es =>
    obtain ⟨c, below, rfl, within, _⟩ := placed
    have := inside rfl
    dsimp only [Moment.start] at *
    omega
  | rounds atLeastOnce item left values =>
    obtain ⟨c, below, rfl, _, here⟩ := placed
    have := inside rfl
    have := here.within
    dsimp only [Moment.start] at *
    omega

theorem first_rounds (faithful : p.Faithful) (sound : Sound p input lo stack m) (leads : p.Leads input m m')
    {name : String} {c : Call} {typed : TypedRule} {left : Nat} {seed : Value} (work : m.work = .call name)
    (work' : m'.work = .growth c typed left seed) : ∃ e, m'.state.memo.get? c = some e ∧ e.rounds = 0 := by
  cases leads with
  | @growth depth name i s typed v stop s' fresh known matched _ =>
    cases work'
    obtain ⟨t', agree, _⟩ := (sound.enter fresh known).body faithful known matched
    have entered : (s.enter ⟨i, name⟩).memo.get? ⟨i, name⟩ = some { call := ⟨i, name⟩, depth := s.stack.length } := by
      rw [Parse.get?_enter fresh, if_pos rfl]
    obtain ⟨e, found, r, q, rfl⟩ := agree.related.later.pending List.mem_cons_self entered
    exact ⟨_, found, rfl⟩
  | _ => simp_all

end Sound

namespace TypedGrammar

def opening (p : TypedGrammar) (input : Input) (name : String) (i : Int) (s : Parse) : Moment :=
  ⟨p.typedRules.length * ((input.size - i).toNat + 2) + 1, .call name, i, s⟩

/-- Work that ends: it is not exhausted, its match lies inside the input, its repetitions get further
with each round, and its seeds grow no more often than they can get longer. -/
structure Ending (p : TypedGrammar) (input : Input) (m : Moment) : Prop where
  finishes : (p.run input m).1 ≠ .halted .exhausted
  within : ∀ vs stop, (p.run input m).1 = .matched vs stop → m.start ≤ stop ∧ stop ≤ input.size
  advances : ∀ {m' once once' item item' left left' values values'}, p.Leads input m m' →
    m.work = .rounds once item left values → m'.work = .rounds once' item' left' values' → m.index < m'.index
  grows : ∀ {rounds m'}, p.Grows input m rounds m' → (rounds : Int) + 1 ≤ input.size - m.index + 1
  reports : ∀ {m' name c typed left seed vs stop s'}, p.Leads input m m' → m.work = .call name →
    m'.work = .growth c typed left seed → p.run input m' = (.matched vs stop, s') →
      ∃ rounds events, s'.events = .grew c.rule c.start stop rounds :: events ∧
        (rounds : Int) ≤ input.size - m'.index + 1

variable {p : TypedGrammar} {input : Input} {s : Parse} {name : String} {i : Int}

theorem sound_opening (coherent : Coherent p input [] s) (proper : s.failures.Proper) :
    Sound p input i [] (p.opening input name i s) := by
  exact ⟨.empty, coherent, proper, Answering.enough_depth _ _, .singleton _, Int.le_refl _, le_max_left _ _⟩

theorem ending_of_sound (faithful : p.Faithful) {lo : Int} {stack : List Call} {m : Moment}
    (within : lo ≤ input.size) (sound : Sound p input lo stack m) : p.Ending input m := by
  have good := sound.good faithful
  have start := sound.start_le
  refine ⟨good.1, ?_, ?_, ?_, ?_⟩
  · intro vs stop matched
    have ⟨behind, before⟩ := good.2 vs stop matched
    omega
  · intro m' _ _ _ _ _ _ _ _ leads work work'
    exact sound.lt_of_rounds faithful leads work work'
  · intro rounds m' grows
    obtain ⟨c, typed, left, v, work⟩ := grows.growth
    obtain ⟨stack', sound'⟩ := sound.steps faithful grows.leads
    have placed := sound'.placed
    rw [work] at placed
    obtain ⟨below, rfl, _, derived, _⟩ := placed
    have first := (sound'.standing.within c List.mem_cons_self).2
    have last := derived.stop_le
    have further := grows.le
    omega
  · intro m' name c typed left seed vs stop s' leads work work' run
    obtain ⟨e, found, none⟩ := sound.first_rounds faithful leads work work'
    obtain ⟨stack', sound'⟩ := sound.step faithful leads
    obtain ⟨depth, w, j, t⟩ := m'
    cases work'
    have placed := sound'.placed
    obtain ⟨below, rfl, _, derived, _⟩ := placed
    have first := (sound'.standing.within c List.mem_cons_self).2
    have last := derived.stop_le
    have before := derived.le_stop
    dsimp only at last before
    have grown : ∃ v, growFrom (p.body input (p.callWithin input depth) typed c.start) c left seed j .unlimited t =
        (.matched v stop, s') := by
      simp only [TypedGrammar.run, Run.single, Run.andThen] at run
      split at run
      · next v stop' t' first =>
        cases run
        exact ⟨v, first⟩
      · cases run
      · cases run
    obtain ⟨v, grown⟩ := grown
    obtain ⟨rounds, events, report, few⟩ := sound'.reported faithful found (by omega) grown
    refine ⟨rounds, events, report, ?_⟩
    dsimp only
    omega

/-- Every call ends, whatever calls were completed before and however little room there is, and so does all
work that it leads to. -/
theorem apply_terminates {actions : List (String × Action)}
    (accepted : Typing.typedRules p.grammar actions = .ok p.typedRules) (reached : Completed p input s)
    (within : i ≤ input.size) :
    (∀ room, (p.apply input name i room s).1 ≠ .halted .exhausted ∧
      ∀ v stop, (p.apply input name i room s).1 = .matched v stop → i ≤ stop ∧ stop ≤ input.size) ∧
    ∀ m, ReflTransGen (p.Leads input) (p.opening input name i s) m → p.Ending input m := by
  have faithful : p.Faithful := faithful_of_typedRules accepted
  obtain ⟨coherent, proper⟩ := reached.coherent faithful
  refine ⟨fun room => ?_, ?_⟩
  · obtain ⟨o, s', t', run, _, ends⟩ := apply_ends faithful coherent proper name i
    rcases steady_apply name i room s with ⟨s₂, cut⟩ | same
    · rw [cut]
      exact ⟨nofun, nofun⟩
    · rw [same, run]
      cases ends with
      | halted other => exact ⟨fun exhausted => other (Outcome.halted.inj exhausted), nofun⟩
      | failed => exact ⟨nofun, nofun⟩
      | matched _ derived =>
        refine ⟨nofun, ?_⟩
        intro v stop same
        cases same
        have := derived.stop_le
        exact ⟨derived.le_stop, by omega⟩
  · intro m leads
    obtain ⟨stack, sound⟩ := (sound_opening coherent proper).steps faithful leads
    exact ending_of_sound faithful within sound

def leftRecursive : Grammar where
  rules := [⟨"list", [⟨[.reference "list", .literal "x"], none⟩, ⟨[.literal "a"], none⟩], none, true, none, ""⟩]
  tokens := []
  states := []
  name := "lists"
  distinctRules := by decide
  distinctTokens := Grammar.distinctTokens_nil
  disjoint := by decide
  distinctInStates := Grammar.distinctInStates_nil

theorem leftRecursive_terminates : ∃ p : TypedGrammar, ∃ input : Input,
    Typing.typedRules p.grammar [] = .ok p.typedRules ∧ Completed p input {} ∧ 0 ≤ (input.size : Int) ∧
    (∀ room, (p.apply input "list" 0 room {}).1 ≠ .halted .exhausted ∧
      ∀ v stop, (p.apply input "list" 0 room {}).1 = .matched v stop → 0 ≤ stop ∧ stop ≤ input.size) ∧
    ∀ m, ReflTransGen (p.Leads input) (p.opening input "list" 0 {}) m → p.Ending input m := by
  have accepted : ∃ rules, Typing.typedRules leftRecursive [] = .ok rules := ⟨_, rfl⟩
  obtain ⟨rules, accepted⟩ := accepted
  have fresh : Completed ⟨leftRecursive, rules⟩ (.text #['a', 'x', 'x']) {} := .fresh []
  have within : 0 ≤ ((Input.text #['a', 'x', 'x']).size : Int) := by decide
  exact ⟨⟨leftRecursive, rules⟩, _, accepted, fresh, within, apply_terminates accepted fresh within⟩

end TypedGrammar

end Packrat
