import Mathlib.Logic.Relation
import Packrat.Proofs.Parse.Twin

namespace Packrat

open Filter Relation

inductive Work where
  | call (name : String)
  | body (typed : TypedRule)
  /-- The body is to be evaluated again, from a seed that ends where the moment is. -/
  | growth (c : Call) (typed : TypedRule) (rounds : Nat) (seed : Value)
  | productions (rest : List TypedProduction)
  | items (es : List Expr)
  | alternatives (es : List Expr)
  | expr (e : Expr)
  | rounds (atLeastOnce : Bool) (item : Expr) (rounds : Nat) (values : List Value)

structure Moment where
  depth : Nat
  work : Work
  index : Int
  state : Parse

/-- Where the work of a moment starts. The growth of a seed goes on at the end of the seed. -/
def Moment.start (m : Moment) : Int :=
  match m.work with
  | .growth c _ _ _ => c.start
  | _ => m.index

def Run.single (work : Run Value) : Run (List Value) := work.andThen fun v stop => .done [v] stop

namespace TypedGrammar

variable (p : TypedGrammar) (input : Input)

def run (m : Moment) : Outcome (List Value) × Parse :=
  let call := p.callWithin input m.depth
  let whole : Run (List Value) := match m.work with
    | .call name => (call name m.index).single
    | .body typed => (p.body input call typed m.index).single
    | .growth c typed rounds seed =>
      (growFrom (p.body input call typed c.start) c rounds seed m.index).single
    | .productions rest => (p.firstProduction input call rest m.index).single
    | .items es => p.evaluateAll input call es m.index
    | .alternatives es => (p.evaluateFirst input call es m.index).single
    | .expr e => (p.evaluate input call e m.index).single
    | .rounds atLeastOnce item rounds values =>
      (Run.many (p.evaluate input call item) atLeastOnce rounds values m.index).single
  whole .unlimited m.state

/-- One piece of work comes up directly inside another one, or goes on with it. -/
inductive Leads : Moment → Moment → Prop where
  | body {depth name i s typed} (fresh : s.memo.get? ⟨i, name⟩ = none) (known : p.typed? name = some typed) :
    Leads ⟨depth + 1, .call name, i, s⟩ ⟨depth, .body typed, i, s.enter ⟨i, name⟩⟩
  | growth {depth name i s typed v stop s'} (fresh : s.memo.get? ⟨i, name⟩ = none)
    (known : p.typed? name = some typed)
    (matched : p.body input (p.callWithin input depth) typed i .unlimited (s.enter ⟨i, name⟩) =
      (.matched v stop, s')) (again : s'.isReentered ⟨i, name⟩ = true) :
    Leads ⟨depth + 1, .call name, i, s⟩
      ⟨depth, .growth ⟨i, name⟩ typed ((input.size - stop).toNat + 1) v, stop, s'⟩
  | again {depth c typed rounds v stop s} :
    Leads ⟨depth, .growth c typed (rounds + 1) v, stop, s⟩ ⟨depth, .body typed, c.start, s.plantSeed c v stop⟩
  | longer {depth c typed rounds v stop s v' stop' s'}
    (matched : p.body input (p.callWithin input depth) typed c.start .unlimited (s.plantSeed c v stop) =
      (.matched v' stop', s')) (longer : stop < stop') :
    Leads ⟨depth, .growth c typed (rounds + 1) v, stop, s⟩ ⟨depth, .growth c typed rounds v', stop', s'⟩
  | productions {depth typed i s} :
    Leads ⟨depth, .body typed, i, s⟩ ⟨depth, .productions typed.productions, i,
      match typed.errorName with
      | none => s
      | some _ => { s with failures := {} }⟩
  | production {depth q rest i s} :
    Leads ⟨depth, .productions (q :: rest), i, s⟩ ⟨depth, .items q.items, i, s⟩
  | nextProduction {depth q rest i s s'}
    (failed : p.production input (p.callWithin input depth) q i .unlimited s = (.failed, s')) :
    Leads ⟨depth, .productions (q :: rest), i, s⟩ ⟨depth, .productions rest, i, s'⟩
  | item {depth e es i s} : Leads ⟨depth, .items (e :: es), i, s⟩ ⟨depth, .expr e, i, s⟩
  | nextItem {depth e es i s v stop s'}
    (matched : p.evaluate input (p.callWithin input depth) e i .unlimited s = (.matched v stop, s')) :
    Leads ⟨depth, .items (e :: es), i, s⟩ ⟨depth, .items es, stop, s'⟩
  | alternative {depth e es i s} : Leads ⟨depth, .alternatives (e :: es), i, s⟩ ⟨depth, .expr e, i, s⟩
  | nextAlternative {depth e es i s s'}
    (failed : p.evaluate input (p.callWithin input depth) e i .unlimited s = (.failed, s')) :
    Leads ⟨depth, .alternatives (e :: es), i, s⟩ ⟨depth, .alternatives es, i, s'⟩
  | reference {depth name i s r} (found : p.grammar.rule? name = some r) :
    Leads ⟨depth, .expr (.reference name), i, s⟩ ⟨depth, .call name, i, s⟩
  | sequence {depth es i s} : Leads ⟨depth, .expr (.sequence es), i, s⟩ ⟨depth, .items es, i, s⟩
  | choice {depth es i s} : Leads ⟨depth, .expr (.choice es), i, s⟩ ⟨depth, .alternatives es, i, s⟩
  | optional {depth e i s} : Leads ⟨depth, .expr (.optional e), i, s⟩ ⟨depth, .expr e, i, s⟩
  | bind {depth name e i s} : Leads ⟨depth, .expr (.bind name e), i, s⟩ ⟨depth, .expr e, i, s⟩
  | ahead {depth e i s} : Leads ⟨depth, .expr (.ahead e), i, s⟩ ⟨depth, .expr e, i, s⟩
  | notAhead {depth e i s} :
    Leads ⟨depth, .expr (.notAhead e), i, s⟩ ⟨depth, .expr e, i, { s with failures := {} }⟩
  | repetition {depth atLeastOnce e i s} : Leads ⟨depth, .expr (.repetition atLeastOnce e), i, s⟩
      ⟨depth, .rounds atLeastOnce e ((input.size - i).toNat + 1) [], i, s⟩
  | round {depth atLeastOnce e rounds values i s} :
    Leads ⟨depth, .rounds atLeastOnce e (rounds + 1) values, i, s⟩ ⟨depth, .expr e, i, s⟩
  | nextRound {depth atLeastOnce e rounds values i s v stop s'}
    (matched : p.evaluate input (p.callWithin input depth) e i .unlimited s = (.matched v stop, s'))
    (moved : stop ≠ i) :
    Leads ⟨depth, .rounds atLeastOnce e (rounds + 1) values, i, s⟩
      ⟨depth, .rounds atLeastOnce e rounds (v :: values), stop, s'⟩

end TypedGrammar

def Work.Placed (p : TypedGrammar) (input : Input) (lo : Int) (stack : List Call) (i : Int) : Work → Prop
  | .call name => (⟨i, name⟩ :: stack).IsChain (Call.Follows p.grammar) ∧ lo ≤ i ∧ i ≤ max lo input.size
  | .body typed => ∃ c below, stack = c :: below ∧ p.typed? c.rule = some typed ∧ i = c.start
  | .growth c typed left seed => ∃ below, stack = c :: below ∧ p.typed? c.rule = some typed ∧
      p.Derives input (.expr (.reference c.rule)) c.start [seed] i ∧ (input.size - i).toNat < left
  | .productions rest => ∃ c below typed, stack = c :: below ∧ p.typed? c.rule = some typed ∧ i = c.start ∧
      rest ⊆ typed.productions
  | .items es => ∃ c below, stack = c :: below ∧
      TypedGrammar.Inside p.grammar input c.start (p.grammar.scope c.rule) (.items es) i
  | .alternatives es => ∃ c below, stack = c :: below ∧ i ≤ max c.start input.size ∧ ∀ e ∈ es,
      TypedGrammar.Inside p.grammar input c.start (p.grammar.scope c.rule) (.expr e) i
  | .expr e => ∃ c below, stack = c :: below ∧
      TypedGrammar.Inside p.grammar input c.start (p.grammar.scope c.rule) (.expr e) i
  | .rounds _ item left _ => ∃ c below, stack = c :: below ∧ (input.size - i).toNat < left ∧
      TypedGrammar.Inside p.grammar input c.start (p.grammar.scope c.rule) (.rounds item) i

structure Sound (p : TypedGrammar) (input : Input) (lo : Int) (stack : List Call) (m : Moment) : Prop where
  standing : Standing p input lo stack
  coherent : Coherent p input stack m.state
  proper : m.state.failures.Proper
  enough : p.typedRules.length * ((input.size - lo).toNat + 1) < m.depth + stack.length
  placed : m.work.Placed p input lo stack m.index

namespace Sound

variable {p : TypedGrammar} {input : Input} {lo : Int} {stack : List Call} {m m' : Moment} {depth : Nat}
  {i : Int} {s s' : Parse}

theorem next {w w' : Work} {j : Int} {t t' : Parse} (sound : Sound p input lo stack ⟨depth, w, i, s⟩)
    (agree : Agree (Twin p input s stack) s t s' t') (placed : w'.Placed p input lo stack j) :
    Sound p input lo stack ⟨depth, w', j, s'⟩ :=
  ⟨sound.standing, agree.related.coherent, agree.proper_left sound.proper, sound.enough, placed⟩

theorem same {w w' : Work} {j : Int} (sound : Sound p input lo stack ⟨depth, w, i, s⟩)
    (placed : w'.Placed p input lo stack j) : Sound p input lo stack ⟨depth, w', j, s⟩ :=
  ⟨sound.standing, sound.coherent, sound.proper, sound.enough, placed⟩

theorem twin (sound : Sound p input lo stack m) : Twin p input m.state stack m.state m.state :=
  ⟨rfl, rfl, sound.coherent, .refl _ _⟩

section

variable {H : Halt → Prop} {V : Call → Prop} {R : Parse → List Call → Parse → Parse → Prop}
  {calls : Nat → String → Int → Run Value}

theorem tracks_call {name : String} (sound : Sound p input lo stack ⟨depth, .call name, i, s⟩)
    (answering : Answering p input lo H V R calls) (concerned : V ⟨i, name⟩) (s₀ : Parse) :
    Tracks (R s₀ stack) H (fun v stop => p.Derives input (.expr (.reference name)) i [v] stop)
      (p.callWithin input depth name i) fun d => calls d name i := by
  obtain ⟨chain, within⟩ := sound.placed
  exact answering.tracks concerned sound.standing chain within sound.enough

theorem answers {c : Call} {below : List Call}
    (sound : Sound p input lo (c :: below) m) (answering : Answering p input lo H V R calls) (concerned : V c)
    (s₀ : Parse) :
    TypedGrammar.Conduct p input (R s₀ (c :: below)) H c.start (p.grammar.scope c.rule)
      (p.callWithin input m.depth) calls := by
  refine ⟨answering.faithful, answering.blind _ _, answering.halts, ?_⟩
  intro name j behind before refers first _
  have ⟨least, most⟩ := sound.standing.within c List.mem_cons_self
  have follows : Call.Follows p.grammar ⟨j, name⟩ c := ⟨behind, refers, first⟩
  refine answering.tracks (answering.closed concerned follows) sound.standing
    (.cons_cons follows sound.standing.chain) ?_ sound.enough
  dsimp only
  omega

end

theorem conduct (faithful : p.Faithful) {c : Call} {below : List Call}
    (sound : Sound p input lo (c :: below) m) (s₀ : Parse) :
    TypedGrammar.Conduct p input (Twin p input s₀ (c :: below)) (· ≠ .exhausted) c.start
      (p.grammar.scope c.rule) (p.callWithin input m.depth) fun d => p.callWithin input d :=
  sound.answers (TypedGrammar.answering faithful input lo) trivial s₀

theorem enter {name : String} {typed : TypedRule} (sound : Sound p input lo stack ⟨depth + 1, .call name, i, s⟩)
    (fresh : s.memo.get? ⟨i, name⟩ = none) (known : p.typed? name = some typed) :
    Sound p input lo (⟨i, name⟩ :: stack) ⟨depth, .body typed, i, s.enter ⟨i, name⟩⟩ := by
  obtain ⟨chain, within⟩ := sound.placed
  have outside := sound.coherent.not_mem_of_fresh fresh
  have enough := sound.enough
  refine ⟨sound.standing.push chain within (Answering.mem_of_typed? known) outside,
    sound.coherent.enter fresh, Failures.proper_none, ?_, ⟨_, stack, rfl, known, rfl⟩⟩
  rw [List.length_cons]
  dsimp only at enough ⊢
  omega

theorem plant {c : Call} {typed : TypedRule} {left : Nat} {v : Value} {stop : Int}
    (sound : Sound p input lo stack ⟨depth, .growth c typed left v, stop, s⟩) :
    Sound p input lo stack ⟨depth, .body typed, c.start, s.plantSeed c v stop⟩ := by
  obtain ⟨below, rfl, known, derived, _⟩ := sound.placed
  have outside := (List.nodup_cons.mp sound.standing.nodup).1
  exact ⟨sound.standing, (sound.coherent.plantSeed outside derived).1, sound.proper, sound.enough,
    ⟨c, below, rfl, known, rfl⟩⟩

theorem body (faithful : p.Faithful) {c : Call} {below : List Call} {typed : TypedRule} {v : Value} {stop : Int}
    (sound : Sound p input lo (c :: below) ⟨depth, .body typed, c.start, s⟩)
    (known : p.typed? c.rule = some typed)
    (matched : p.body input (p.callWithin input depth) typed c.start .unlimited s = (.matched v stop, s')) :
    ∃ t', Agree (Twin p input s (c :: below)) s s s' t' ∧
      p.Derives input (.expr (.reference c.rule)) c.start [v] stop :=
  (TypedGrammar.Conduct.body known (sound.conduct faithful s) s s sound.twin sound.proper sound.proper).of_matched
    matched

theorem longer (faithful : p.Faithful) {c : Call} {typed : TypedRule} {left : Nat} {v v' : Value} {stop stop' : Int}
    (sound : Sound p input lo stack ⟨depth, .growth c typed (left + 1) v, stop, s⟩)
    (matched : p.body input (p.callWithin input depth) typed c.start .unlimited (s.plantSeed c v stop) =
      (.matched v' stop', s')) (longer : stop < stop') :
    Sound p input lo stack ⟨depth, .growth c typed left v', stop', s'⟩ := by
  obtain ⟨below, rfl, known, derived, enough⟩ := sound.placed
  obtain ⟨t', agree, derived'⟩ := sound.plant.body faithful known matched
  have old := derived.le_stop
  have new := derived'.stop_le
  exact sound.plant.next agree ⟨below, rfl, known, derived', by dsimp only at *; omega⟩

theorem step (faithful : p.Faithful) (sound : Sound p input lo stack m) (leads : p.Leads input m m') :
    ∃ stack', Sound p input lo stack' m' := by
  cases leads with
  | body fresh known => exact ⟨_, sound.enter fresh known⟩
  | @growth depth name i s typed v stop s' fresh known matched _ =>
    obtain ⟨t', agree, derived⟩ := (sound.enter fresh known).body faithful known matched
    exact ⟨_, (sound.enter fresh known).next agree ⟨stack, rfl, known, derived, Nat.lt_succ_self _⟩⟩
  | again => exact ⟨_, sound.plant⟩
  | longer matched longer => exact ⟨_, sound.longer faithful matched longer⟩
  | @productions depth typed i s =>
    obtain ⟨c, below, rfl, known, rfl⟩ := sound.placed
    refine ⟨c :: below, sound.standing, ?_, ?_, sound.enough, ⟨c, below, typed, rfl, known, rfl, fun _ => id⟩⟩
    · dsimp only
      split
      · exact sound.coherent
      · exact sound.coherent.congr rfl rfl
    · dsimp only
      split
      · exact sound.proper
      · exact Failures.proper_none
  | @production depth q rest i s =>
    obtain ⟨c, below, typed, rfl, known, rfl, listed⟩ := sound.placed
    refine ⟨_, sound.same ⟨c, below, rfl, ?_⟩⟩
    exact TypedGrammar.Conduct.inside_production faithful known (listed List.mem_cons_self) c.start
  | @nextProduction depth q rest i s s' failed =>
    obtain ⟨c, below, typed, rfl, known, rfl, listed⟩ := sound.placed
    have inside : TypedGrammar.Inside p.grammar input c.start (p.grammar.scope c.rule) (.items q.items)
        c.start := TypedGrammar.Conduct.inside_production faithful known (listed List.mem_cons_self) c.start
    obtain ⟨t', agree⟩ := ((sound.conduct faithful s).production inside s s sound.twin sound.proper
      sound.proper).of_failed failed
    refine ⟨_, sound.next agree ⟨c, below, typed, rfl, known, rfl, ?_⟩⟩
    exact fun r member => listed (List.mem_cons_of_mem _ member)
  | item =>
    obtain ⟨c, below, rfl, inside⟩ := sound.placed
    exact ⟨_, sound.same ⟨c, below, rfl, inside.head⟩⟩
  | @nextItem depth e es i s v stop s' matched =>
    obtain ⟨c, below, rfl, inside⟩ := sound.placed
    obtain ⟨t', agree, derived⟩ := ((sound.conduct faithful s).evaluate e i inside.head s s sound.twin
      sound.proper sound.proper).of_matched matched
    exact ⟨_, sound.next agree ⟨c, below, rfl, inside.tail faithful derived⟩⟩
  | alternative =>
    obtain ⟨c, below, rfl, _, inside⟩ := sound.placed
    exact ⟨_, sound.same ⟨c, below, rfl, inside _ List.mem_cons_self⟩⟩
  | @nextAlternative depth e es i s s' failed =>
    obtain ⟨c, below, rfl, within, inside⟩ := sound.placed
    obtain ⟨t', agree⟩ := ((sound.conduct faithful s).evaluate e i (inside e List.mem_cons_self) s s
      sound.twin sound.proper sound.proper).of_failed failed
    refine ⟨_, sound.next agree ⟨c, below, rfl, within, fun f listed => ?_⟩⟩
    exact inside f (List.mem_cons_of_mem _ listed)
  | @reference depth name i s r found =>
    -- The called rule is a left callee of the innermost call if nothing was consumed since it began.
    obtain ⟨c, below, rfl, inside⟩ := sound.placed
    have listed := Grammar.mem_ruleNames_of_rule? found
    have ⟨least, most⟩ := sound.standing.within c List.mem_cons_self
    have behind := inside.behind
    have within := inside.within
    have refers := inside.refers name (by simp [Goal.references, Expr.references])
    refine ⟨_, sound.same ⟨.cons_cons ⟨behind, refers, fun here => inside.first here name ?_⟩ sound.standing.chain, ?_⟩⟩
    · simp [Goal.callees, Expr.leftCallees, listed]
    · dsimp only at *
      omega
  | sequence | optional | bind | ahead =>
    obtain ⟨c, below, rfl, inside⟩ := sound.placed
    exact ⟨_, sound.same ⟨c, below, rfl, inside.part rfl rfl⟩⟩
  | choice =>
    obtain ⟨c, below, rfl, inside⟩ := sound.placed
    exact ⟨_, sound.same ⟨c, below, rfl, inside.within, fun e listed => inside.alternative listed⟩⟩
  | notAhead =>
    obtain ⟨c, below, rfl, inside⟩ := sound.placed
    exact ⟨c :: below, sound.standing, sound.coherent.congr rfl rfl, Failures.proper_none, sound.enough,
      ⟨c, below, rfl, inside.part rfl rfl⟩⟩
  | repetition =>
    obtain ⟨c, below, rfl, inside⟩ := sound.placed
    exact ⟨_, sound.same ⟨c, below, rfl, Nat.lt_succ_self _, inside.part rfl rfl⟩⟩
  | round =>
    obtain ⟨c, below, rfl, _, inside⟩ := sound.placed
    exact ⟨_, sound.same ⟨c, below, rfl, inside.later (Int.le_refl _) (le_max_left _ _)⟩⟩
  | @nextRound depth atLeastOnce e rounds values i s v stop s' matched moved =>
    obtain ⟨c, below, rfl, enough, inside⟩ := sound.placed
    have here := inside.later (Int.le_refl _) (le_max_left _ _)
    obtain ⟨t', agree, derived⟩ := ((sound.conduct faithful s).evaluate e i here s s sound.twin sound.proper
      sound.proper).of_matched matched
    have further := derived.le_stop
    have bounded := derived.stop_le
    refine ⟨_, sound.next agree ⟨c, below, rfl, by dsimp only at *; omega, ?_⟩⟩
    have behind := inside.behind
    have within := inside.within
    refine ⟨by dsimp only at *; omega, by dsimp only at *; omega, inside.refers, fun here => inside.first ?_⟩
    dsimp only at *
    omega

theorem steps (faithful : p.Faithful) (sound : Sound p input lo stack m)
    (leads : ReflTransGen (p.Leads input) m m') : ∃ stack', Sound p input lo stack' m' := by
  induction leads with
  | refl => exact ⟨stack, sound⟩
  | tail _ last ih =>
    obtain ⟨stack', sound'⟩ := ih
    exact sound'.step faithful last

end Sound

end Packrat
