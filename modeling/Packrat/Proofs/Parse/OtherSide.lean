import Packrat.Proofs.Parse.Mirror
import Packrat.Proofs.Parse.Order

namespace Packrat

open Filter Relation Parse

section

variable {p : TypedGrammar} {input : Input} {front c : Call} {forward typed : TypedRule} {depth : Nat} {s t : Parse}
  {body : Run Value} {size : Nat} {v : Value} {stop : Int}

theorem growFrom_ne_failed (rounds : Nat) : (growFrom body c rounds v stop .unlimited s).1 ≠ .failed := by
  induction rounds generalizing v stop s with
  | zero => simp [growFrom, Run.halt]
  | succ rounds ih =>
    unfold growFrom
    cases body .unlimited (s.plantSeed c v stop) with
    | mk o s' =>
      cases o with
      | halted h => simp
      | failed => simp
      | matched v' stop' =>
        dsimp only
        split
        · simp
        · exact ih

theorem settle_ne_failed (body : Run Value) (c : Call) (size : Nat) (v : Value) (stop : Int) (s : Parse) :
    (settle body c size v stop .unlimited s).1 ≠ .failed := by
  unfold settle
  split
  · exact growFrom_ne_failed _
  · exact nofun

theorem evaluateCall_failed_iff :
    (evaluateCall body c size .unlimited s).1 = .failed ↔ (body .unlimited (s.enter c)).1 = .failed := by
  cases run : body .unlimited (s.enter c) with
  | mk o s' =>
    cases o with
    | failed => simp [evaluateCall, Run.andThen_of_failed run]
    | halted h => simp [evaluateCall, Run.andThen_of_halted run]
    | matched v stop =>
      have grown := settle_ne_failed body c size v stop s'
      simp only [evaluateCall, Run.inRoomFor_unlimited, Run.andThen_of_matched run]
      cases settled : settle body c size v stop .unlimited s' with
      | mk o s'' =>
        rw [settled] at grown
        cases o <;> simp_all

structure Fronts (p : TypedGrammar) (input : Input) (front c : Call) (forward typed : TypedRule) (depth : Nat) :
    Prop where
  faithful : p.Faithful
  forwards : p.Forwards front.rule c.rule forward
  start : front.start = c.start
  known : p.typed? c.rule = some typed
  apart : c ≠ front
  enough : p.typedRules.length * ((input.size - c.start).toNat + 1) < depth + 1

namespace Fronts

theorem chain (fronts : Fronts p input front c forward typed depth) : [c, front].IsChain (Call.Follows p.grammar) := by
  obtain ⟨_, refers, first⟩ := fronts.forwards.follows fronts.faithful c.start
  exact .cons_cons ⟨Int.le_of_eq fronts.start, refers, fun _ => first rfl⟩ (.singleton _)

theorem sound_behind (fronts : Fronts p input front c forward typed depth) (coherent : Coherent p input [front] s)
    (fresh : s.memo.get? c = none) : Sound p input c.start [c, front] ⟨depth, .body typed, c.start, s.enter c⟩ := by
  have within : c.start ≤ c.start ∧ c.start ≤ max c.start input.size := ⟨Int.le_refl _, le_max_left _ _⟩
  have outer : Standing p input c.start [front] := Standing.empty.push (.singleton _) (fronts.start ▸ within)
    (Answering.mem_of_typed? fronts.forwards.known) List.not_mem_nil
  have both : Standing p input c.start [c, front] :=
    outer.push fronts.chain within (Answering.mem_of_typed? fronts.known) (by simp [fronts.apart])
  have enough := fronts.enough
  refine ⟨both, coherent.enter fresh, Failures.proper_none, ?_, c, [front], rfl, fronts.known, rfl⟩
  simp only [List.length_cons, List.length_nil]
  omega

theorem sound_alone (fronts : Fronts p input front c forward typed depth) (coherent : Coherent p input [c] t)
    (proper : t.failures.Proper) : Sound p input c.start [c] ⟨depth, .body typed, c.start, t⟩ := by
  have alone : Standing p input c.start [c] := Standing.empty.push (.singleton _) ⟨Int.le_refl _, le_max_left _ _⟩
    (Answering.mem_of_typed? fronts.known) List.not_mem_nil
  exact ⟨alone, coherent, proper, fronts.enough, c, [], rfl, fronts.known, rfl⟩

end Fronts

/-- The body of the call comes to what the entry has, wherever what is settled in a state is on record. -/
def TypedGrammar.Foretold (p : TypedGrammar) (input : Input) (c : Call) (typed : TypedRule) (depth : Nat) (e : Entry)
    (s : Parse) : Prop :=
  ∀ u, Sound p input c.start [c] ⟨depth, .body typed, c.start, u⟩ → s.Covers u →
    ∃ u', (∀ᶠ k in atTop, p.body input (p.callWithin input k) typed c.start .unlimited u = (.ofResult e.result, u')) ∧
      Adds e.failures u u'

/-- Two parses between the rounds in which their seeds grow. The first one grows the front, and the second one the
rule behind it. If the first one has this rule on record, evaluating it again comes to what is recorded. -/
structure Facing (p : TypedGrammar) (input : Input) (front c : Call) (typed : TypedRule) (depth : Nat) (s t : Parse) :
    Prop where
  coherent : Coherent p input [front] s
  opposite : Coherent p input [c] t
  discreet : s.Discreet
  same : ∀ d, d ≠ c → d ≠ front → t.memo.get? d = (s.memo.get? d).map (Entry.raised 1)
  absent : t.memo.get? front = none
  seeds : ∃ outer alone, s.memo.get? front = some outer ∧ t.memo.get? c = some alone ∧
    (TransGen p.grammar.LeftCalls c.rule front.rule → alone.result = outer.result) ∧
    alone.reentered = outer.reentered ∧
    (¬ TransGen p.grammar.LeftCalls c.rule front.rule → outer.reentered = false)
  past : ∀ e, s.memo.get? c = some e → ∃ w, p.Foretold input c typed depth e w ∧ w.Covers t

namespace Facing

variable {s' t' : Parse}

theorem congr (facing : Facing p input front c typed depth s t) (memoLeft : s'.memo = s.memo)
    (stackLeft : s'.stack = s.stack) (memoRight : t'.memo = t.memo) (stackRight : t'.stack = t.stack) :
    Facing p input front c typed depth s' t' := by
  obtain ⟨coherent, opposite, discreet, same, absent, seeds, past⟩ := facing
  refine ⟨coherent.congr memoLeft stackLeft, opposite.congr memoRight stackRight,
    (discreet_invariant p input).congr discreet memoLeft, memoLeft ▸ memoRight ▸ same, memoRight ▸ absent,
    memoLeft ▸ memoRight ▸ seeds, fun e found => ?_⟩
  obtain ⟨w, foretold, covers⟩ := past e (memoLeft ▸ found)
  exact ⟨w, foretold, covers.congr rfl memoRight⟩

theorem mirror (facing : Facing p input front c typed depth s t) (fresh : s.memo.get? c = none)
    (unseeded : p.grammar.ReturnsWithout front.rule c.rule → ∀ alone, t.memo.get? c = some alone →
      alone.result = none) : Mirror p input front c [c, front] (s.enter c) t := by
  obtain ⟨outer, alone, outerFound, aloneFound, seed, reentered, straight⟩ := facing.seeds
  have apart : front ≠ c := by
    intro same
    rw [same, fresh] at outerFound
    cases outerFound
  refine ⟨facing.coherent.enter fresh, ⟨[], rfl, facing.opposite⟩, fun d other apart => ?_, facing.absent, outer,
    { call := c, depth := s.stack.length }, alone, ?_, ?_, aloneFound, seed, ?_, ?_, straight, fun _ => rfl⟩
  · rw [get?_enter fresh, if_neg other]
    exact facing.same d other apart
  · rw [get?_enter fresh, if_neg apart, outerFound]
  · rw [get?_enter fresh, if_pos rfl]
  · exact fun around => unseeded around alone aloneFound
  · rw [reentered, Bool.or_false]

theorem plantSeed (facing : Facing p input front c typed depth s t) (forwards : p.Forwards front.rule c.rule forward)
    (start : front.start = c.start) (apart : c ≠ front)
    (derived : p.Derives input (.expr (.reference c.rule)) c.start [v] stop) :
    Facing p input front c typed depth (s.plantSeed front v stop) (t.plantSeed c v stop) := by
  obtain ⟨outer, alone, outerFound, aloneFound, _, reentered, straight⟩ := facing.seeds
  refine ⟨(facing.coherent.plantSeed List.not_mem_nil (start ▸ forwards.derives derived)).1,
    (facing.opposite.plantSeed List.not_mem_nil derived).1, (discreet_invariant p input).plantSeed facing.coherent
    facing.discreet, fun d other apart' => ?_, ?_, ?_, fun e found => ?_⟩
  · rw [get?_plantSeed, get?_plantSeed, if_neg other, if_neg apart']
    exact facing.same d other apart'
  · rw [get?_plantSeed, if_neg apart.symm]
    exact facing.absent
  · refine ⟨{ outer with result := some (v, stop), rounds := outer.rounds + 1 },
      { alone with result := some (v, stop), rounds := alone.rounds + 1 }, ?_, ?_, fun _ => rfl, reentered, straight⟩
    · rw [get?_plantSeed, if_pos rfl, outerFound]
      rfl
    · rw [get?_plantSeed, if_pos rfl, aloneFound]
      rfl
  · rw [get?_plantSeed, if_neg apart] at found
    obtain ⟨w, foretold, covers⟩ := facing.past e found
    refine ⟨w, foretold, fun d e' found' settled => ?_⟩
    obtain ⟨e₁, found₁, settled₁, result, failures⟩ := covers d e' found' settled
    have other : d ≠ c := List.ne_of_not_mem_cons (facing.opposite.not_mem_of_settled found₁ settled₁)
    exact ⟨e₁, by rw [get?_plantSeed, if_neg other, found₁], settled₁, result, failures⟩

end Facing

namespace Fronts

variable {s₁ t₁ : Parse} {result : Result}

theorem growing (fronts : Fronts p input front c forward typed depth) : Growing (Facing p input front c typed depth)
    (fun v stop => p.Derives input (.expr (.reference c.rule)) c.start [v] stop) front c input.size where
  blind facing memoLeft stackLeft memoRight stackRight := facing.congr memoLeft stackLeft memoRight stackRight
  bounded derived := by
    rw [fronts.start]
    exact ⟨derived.le_stop, derived.stop_le⟩
  plantSeed facing derived := facing.plantSeed fronts.forwards fronts.start fronts.apart derived
  isReentered facing := by
    obtain ⟨outer, alone, outerFound, aloneFound, _, reentered, _⟩ := facing.seeds
    simp [isReentered, outerFound, aloneFound, reentered]

theorem body_front (fronts : Fronts p input front c forward typed depth) (k : Nat) (s : Parse) :
    p.body input (p.callWithin input k) forward front.start .unlimited s =
      p.callWithin input k c.rule c.start .unlimited s := by
  rw [fronts.forwards.body_eq, fronts.start]

theorem tracks_behind (fronts : Fronts p input front c forward typed depth) (coherent : Coherent p input [front] s)
    (fresh : s.memo.get? c = none) : Tracks (Mirror p input front c [c, front]) (· ≠ .exhausted)
      (fun v stop => p.Derives input (.expr (.reference c.rule)) c.start [v] stop)
      (p.body input (p.callWithin input depth) typed c.start)
      fun k => p.body input (p.callWithin input k) typed c.start := by
  have answering : Answering p input c.start _ _ _ _ :=
    TypedGrammar.answering_mirror fronts.faithful fronts.forwards fronts.start c.start
  exact TypedGrammar.Conduct.body fronts.known ((fronts.sound_behind coherent fresh).answers answering trivial s)

theorem concluded (fronts : Fronts p input front c forward typed depth)
    (facing : Facing p input front c typed depth s t) (fresh : s.memo.get? c = none)
    (direct : ¬ p.grammar.ReturnsWithout front.rule c.rule)
    (run : p.body input (p.callWithin input depth) typed c.start .unlimited (s.enter c) = (.ofResult result, s₁))
    (mirror : Mirror p input front c [c, front] s₁ t₁) (proper : s₁.failures.Proper) (derived : ∀ v stop,
      result = some (v, stop) → p.Derives input (.expr (.reference c.rule)) c.start [v] stop) :
    Facing p input front c typed depth ((s₁.leave c s.failures).remember c result) t₁ := by
  have ended : ∀ h, Outcome.ofResult result ≠ .halted h := by
    cases result <;> exact nofun
  obtain ⟨outer, inside, alone, outerFound, insideFound, aloneFound, mirrors⟩ := mirror.seeds
  obtain ⟨inner, split, opposite⟩ := mirror.opposite
  obtain rfl : inner = [] := by
    have length := congrArg List.length split
    simpa using length
  have view := get?_conclude s.failures result mirror.coherent.ordered insideFound
  have entered := (discreet_invariant p input).enter facing.coherent facing.discreet fresh
  obtain ⟨discreet, again⟩ :=
    (fronts.sound_behind facing.coherent fresh).again fronts.faithful entered fronts.known run ended
  refine ⟨(mirror.coherent.conclude (by simp [fronts.apart]) s.failures proper derived).1, opposite,
    (discreet_invariant p input).conclude mirror.coherent discreet, fun d other apart => ?_, mirror.absent,
    ⟨outer, alone, ?_, aloneFound, mirrors.seedThrough, ?_, mirrors.straight⟩, fun e found => ?_⟩
  · rw [view, if_neg other]
    exact mirror.same d other apart
  · rw [view, if_neg fronts.apart.symm, outerFound]
  · rw [mirrors.reentered, mirrors.direct direct, Bool.or_false]
  · rw [view, if_pos rfl] at found
    split at found
    · cases found
    · next complete =>
      cases found
      -- The entry is kept, so that the body has used no seed from the rule outward and will come to the same again.
      have untouched : ¬ s₁.Touched c := by
        intro ⟨e, found, marked⟩
        rw [insideFound] at found
        cases found
        exact marked.elim (by simp [mirrors.direct direct]) complete
      obtain ⟨own, properOwn, failures, replay⟩ := again untouched
      rw [show (s.enter c).failures = {} from rfl, Failures.none_merge properOwn] at failures
      refine ⟨s₁, fun u sound covers => ?_, fun d e found settled => ?_⟩
      · rw [failures]
        exact replay sound covers
      · have outside : d ∉ [c, front] := mirror.coherent.not_mem_of_settled found settled
        have ⟨other, apart⟩ : d ≠ c ∧ d ≠ front := by simpa using outside
        refine ⟨e.raised 1, ?_, settled, rfl, rfl⟩
        rw [mirror.same d other apart, found]
        rfl

theorem call_behind (fronts : Fronts p input front c forward typed depth) (fresh : s.memo.get? c = none) :
    p.callWithin input (depth + 1) c.rule c.start .unlimited s =
      evaluateCall (p.body input (p.callWithin input depth) typed c.start) c input.size .unlimited s :=
  TypedGrammar.callWithin_of_fresh fresh fronts.known depth

theorem round (fronts : Fronts p input front c forward typed depth)
    (direct : ¬ p.grammar.ReturnsWithout front.rule c.rule) :
    Tracks (Facing p input front c typed depth) (· ≠ .exhausted)
      (fun v stop => p.Derives input (.expr (.reference c.rule)) c.start [v] stop)
      (p.body input (p.callWithin input (depth + 1)) forward front.start)
      fun k => p.body input (p.callWithin input k) typed c.start := by
  intro s t facing properLeft properRight
  simp only [Meets, fronts.body_front]
  cases found : s.memo.get? c with
  | some e =>
    -- The first parse has the rule on record from an earlier round, where the second one evaluates it again.
    have settled : e.settled = true := (facing.coherent.settled found (by simp [fronts.apart])).1
    obtain ⟨w, foretold, covers⟩ := facing.past e found
    obtain ⟨t', runs, adds⟩ := foretold t (fronts.sound_alone facing.opposite properRight) covers
    have related := facing.congr (memo_answered settled) (stack_answered e) adds.memo adds.calls
    refine ⟨_, _, t', (TypedGrammar.callWithin_of_found found _).trans (reuse_eq e .unlimited s), runs, .ofResult ?_ ?_⟩
    · exact ⟨related, e.failures, facing.coherent.proper found, failures_answered_of_settled settled, adds.failures⟩
    · exact fun v stop known => facing.coherent.derived found known
  | none =>
    obtain ⟨o, s₁, t₁, run, runs, ends⟩ := fronts.tracks_behind facing.coherent found (s.enter c) t
      (facing.mirror found fun around => absurd around direct) Failures.proper_none properRight
    have called := fronts.call_behind found
    rcases ends.halted_or_result with ⟨h, rfl, allowed⟩ | ⟨result, rfl, agree, derived⟩
    · exact ⟨_, _, t₁, called.trans (evaluateCall_of_halted rfl (Run.andThen_of_halted run)), runs, .halted allowed⟩
    · have proper := agree.proper_left Failures.proper_none
      obtain ⟨own, properOwn, left, right⟩ := agree.failures
      rw [show (s.enter c).failures = {} from rfl, Failures.none_merge properOwn] at left
      -- The rule does not come back to itself but through the front, so it has not grown.
      obtain ⟨_, inside, _, _, insideFound, _, mirrors⟩ := agree.related.seeds
      have once : s₁.isReentered c = false := by simp [isReentered, insideFound, mirrors.direct direct]
      have next := fronts.concluded facing found direct run agree.related proper derived
      refine ⟨_, _, t₁, called.trans (evaluateCall_of_result rfl (Run.settle_of_not_reentered run once)), runs,
        .ofResult ⟨next, own, properOwn, ?_, right⟩ derived⟩
      rw [failures_conclude, left]

theorem get?_entered (fronts : Fronts p input front c forward typed depth) :
    (({} : Parse).enter front).memo.get? c = none := by
  rw [get?_enter rfl, if_neg fronts.apart]
  rfl

theorem entered (fronts : Fronts p input front c forward typed depth) :
    Facing p input front c typed depth (({} : Parse).enter front) (({} : Parse).enter c) := by
  have initial : Coherent p input [] {} := .initial []
  have discreet : ({} : Parse).Discreet := fun _ _ _ _ found => by cases found
  refine ⟨initial.enter rfl, initial.enter rfl, (discreet_invariant p input).enter initial discreet rfl,
    fun d other apart => ?_, ?_, ⟨{ call := front, depth := 0 }, { call := c, depth := 0 }, ?_, ?_, fun _ => rfl, rfl,
    fun _ => rfl⟩, fun e found => ?_⟩
  · rw [get?_enter rfl, get?_enter rfl, if_neg other, if_neg apart]
    rfl
  · rw [get?_enter rfl, if_neg fronts.apart.symm]
    rfl
  · rw [get?_enter rfl, if_pos rfl]
    rfl
  · rw [get?_enter rfl, if_pos rfl]
    rfl
  · rw [fronts.get?_entered] at found
    cases found

theorem mirror_entered (fronts : Fronts p input front c forward typed depth) :
    Mirror p input front c [c, front] ((({} : Parse).enter front).enter c) (({} : Parse).enter c) := by
  refine fronts.entered.mirror fronts.get?_entered fun _ alone found => ?_
  rw [get?_enter rfl, if_pos rfl] at found
  cases found
  rfl

theorem call_front (fronts : Fronts p input front c forward typed depth) :
    p.callWithin input (depth + 2) front.rule front.start .unlimited {} =
      evaluateCall (p.body input (p.callWithin input (depth + 1)) forward front.start) front input.size .unlimited {} :=
  TypedGrammar.callWithin_of_fresh rfl fronts.forwards.known (depth + 1)

theorem call_alone (fronts : Fronts p input front c forward typed depth) (k : Nat) :
    p.callWithin input (k + 1) c.rule c.start .unlimited {} =
      evaluateCall (p.body input (p.callWithin input k) typed c.start) c input.size .unlimited {} :=
  TypedGrammar.callWithin_of_fresh rfl fronts.known k

theorem failed_iff (fronts : Fronts p input front c forward typed depth) :
    ∀ᶠ k in atTop, (p.callWithin input (depth + 2) front.rule front.start .unlimited {}).1 = .failed ↔
      (p.callWithin input k c.rule c.start .unlimited {}).1 = .failed := by
  obtain ⟨o, s₁, t₁, run, runs, _⟩ := fronts.tracks_behind fronts.entered.coherent fronts.get?_entered _ _
    fronts.mirror_entered Failures.proper_none Failures.proper_none
  refine eventually_of_succ (runs.mono fun k here => ?_)
  dsimp only at here
  rw [fronts.call_front, evaluateCall_failed_iff, fronts.body_front, fronts.call_behind fronts.get?_entered,
    evaluateCall_failed_iff, run, fronts.call_alone, evaluateCall_failed_iff, here]

abbrev Same (p : TypedGrammar) (input : Input) (front c : Call) (depth : Nat) : Prop :=
  Meets (fun _ _ => True) (· ≠ .exhausted) (fun v stop => p.Derives input (.expr (.reference c.rule)) c.start [v] stop)
    (p.callWithin input (depth + 2) front.rule front.start) (fun k => p.callWithin input k c.rule c.start) {} {}

theorem same_of_direct (fronts : Fronts p input front c forward typed depth)
    (direct : ¬ p.grammar.ReturnsWithout front.rule c.rule) : Same p input front c depth := by
  obtain ⟨o, s₁, t₁, run, runs, ends⟩ := Meets.evaluateCall (R := fun _ _ => True) fronts.growing (fronts.round direct)
    fronts.entered fun _ _ _ _ => trivial
  refine ⟨o, s₁, t₁, fronts.call_front.trans run, eventually_of_succ (runs.mono fun k here => ?_), ends⟩
  exact (fronts.call_alone k).trans here

theorem growing_behind (fronts : Fronts p input front c forward typed depth)
    (straight : ¬ TransGen p.grammar.LeftCalls c.rule front.rule) : Growing (Mirror p input front c [c, front])
      (fun v stop => p.Derives input (.expr (.reference c.rule)) c.start [v] stop) c c input.size where
  blind := Mirror.blind _
  bounded derived := ⟨derived.le_stop, derived.stop_le⟩
  plantSeed {s t v stop} mirror derived := by
    obtain ⟨outer, inside, alone, outerFound, insideFound, aloneFound, mirrors⟩ := mirror.seeds
    obtain ⟨inner, split, opposite⟩ := mirror.opposite
    obtain rfl : inner = [] := by simpa using congrArg List.length split
    refine ⟨(mirror.coherent.plantSeed (by simp [fronts.apart]) derived).1,
      ⟨[], rfl, (opposite.plantSeed List.not_mem_nil derived).1⟩, fun d other apart => ?_, ?_,
      ⟨outer, { inside with result := some (v, stop), rounds := inside.rounds + 1 },
        { alone with result := some (v, stop), rounds := alone.rounds + 1 }, ?_, ?_, ?_,
        ⟨fun through => absurd through straight, fun _ => rfl, mirrors.reentered, mirrors.straight, mirrors.direct⟩⟩⟩
    · rw [get?_plantSeed, get?_plantSeed, if_neg other, if_neg other]
      exact mirror.same d other apart
    · rw [get?_plantSeed, if_neg fronts.apart.symm]
      exact mirror.absent
    · rw [get?_plantSeed, if_neg fronts.apart.symm, outerFound]
    · rw [get?_plantSeed, if_pos rfl, insideFound]
      rfl
    · rw [get?_plantSeed, if_pos rfl, aloneFound]
      rfl
  isReentered mirror := by
    obtain ⟨outer, inside, alone, _, insideFound, aloneFound, mirrors⟩ := mirror.seeds
    simp [isReentered, insideFound, aloneFound, mirrors.reentered, mirrors.straight straight]

theorem same_of_straight (fronts : Fronts p input front c forward typed depth)
    (straight : ¬ TransGen p.grammar.LeftCalls c.rule front.rule) : Same p input front c depth := by
  have tracks := fronts.tracks_behind fronts.entered.coherent fronts.get?_entered
  obtain ⟨o, s₁, t₁, run, runs, ends⟩ := Meets.evaluateCall (R := fun s _ => s.isReentered front = false)
    (fronts.growing_behind straight) tracks fronts.mirror_entered fun {s₁ t₁ result} mirror _ _ _ => by
      obtain ⟨outer, _, _, outerFound, insideFound, _, mirrors⟩ := mirror.seeds
      rw [isReentered, get?_conclude _ result mirror.coherent.ordered insideFound, if_neg fronts.apart.symm, outerFound]
      exact mirrors.straight straight
  have run' : p.body input (p.callWithin input (depth + 1)) forward front.start .unlimited (({} : Parse).enter front) =
      (o, s₁) := by
    rw [fronts.body_front, fronts.call_behind fronts.get?_entered, run]
  have runs' : ∀ᶠ k in atTop, p.callWithin input k c.rule c.start .unlimited {} = (o, t₁) :=
    eventually_of_succ (runs.mono fun k here => (fronts.call_alone k).trans here)
  rcases ends.halted_or_result with ⟨h, rfl, allowed⟩ | ⟨result, rfl, agree, derived⟩
  · exact ⟨_, _, t₁, fronts.call_front.trans (evaluateCall_of_halted rfl (Run.andThen_of_halted run')), runs',
      .halted allowed⟩
  · obtain ⟨once, own, proper, left, right⟩ := agree
    have called := fronts.call_front.trans (evaluateCall_of_result rfl (Run.settle_of_not_reentered run' once))
    refine ⟨_, _, t₁, called, runs', .ofResult ⟨trivial, own, proper, ?_, right⟩ derived⟩
    rw [show (({} : Parse).enter front).failures = {} from rfl, Failures.none_merge proper] at left
    rw [failures_conclude, left]

end Fronts

end

namespace TypedGrammar

variable {g : Grammar} {actions : List (String × Action)} {rules : List (String × TypedRule)} {name other : String}
  {r : Rule}

theorem exists_typed (typed : Typing.typedRules g actions = .ok rules) (listed : name ∈ g.ruleNames) :
    ∃ typed, typed? ⟨g, rules⟩ name = some typed := by
  obtain ⟨r, member, rfl⟩ := List.mem_map.mp listed
  exact (Typing.complete_of_typedRules typed).known r member

theorem exists_forwards (typed : Typing.typedRules g actions = .ok rules) (found : g.rule? name = some r)
    (single : r.productions = [⟨[.reference other], none⟩]) (unnamed : r.errorName = none)
    (listed : other ∈ g.ruleNames) : ∃ forward, Forwards ⟨g, rules⟩ name other forward := by
  obtain ⟨forward, known⟩ := exists_typed typed (Grammar.mem_ruleNames_of_rule? found)
  obtain ⟨r', found', checked⟩ := (Typing.complete_of_typedRules typed).checked known
  dsimp only at found'
  rw [found] at found'
  cases found'
  have productions := checked.productions
  rw [single] at productions
  obtain ⟨q, rest, ⟨_, _, _, made⟩, none, split⟩ := List.forall₂_cons_right_iff.mp productions
  rw [List.forall₂_nil_right_iff.mp none] at split
  obtain ⟨items, mask, plain | ⟨spec, asked, _⟩⟩ := Typing.typedProduction_cases made
  · exact ⟨forward, known, checked.errorName.trans unnamed, ⟨q, split, items, mask, plain.2.1⟩, listed⟩
  · cases asked

end TypedGrammar

namespace Parser

variable {g : Grammar} {actions : List (String × Action)} {parser : Parser} {front name : String} {r : Rule}

theorem exists_fronts (compiled : Reporting.Gives (ofGrammar g actions) parser) (found : g.rule? front = some r)
    (single : r.productions = [⟨[.reference name], none⟩]) (unnamed : r.errorName = none) (listed : name ∈ g.ruleNames)
    (apart : name ≠ front) (input : Input) (i : Int) : ∃ forward typed depth,
      Fronts parser.typed input ⟨i, front⟩ ⟨i, name⟩ forward typed depth ∧
        parser.typed.typedRules.length * ((input.size - i).toNat + 2) + 1 = depth + 2 := by
  have faithful : parser.typed.Faithful := faithful_of_ofGrammar compiled
  obtain ⟨rfl, typed, _⟩ := parts_of_ofGrammar compiled
  obtain ⟨forward, forwards⟩ := TypedGrammar.exists_forwards typed found single unnamed listed
  obtain ⟨rule, known⟩ := TypedGrammar.exists_typed typed listed
  have some : 0 < parser.typed.typedRules.length := List.length_pos_of_mem (mem_of_lookup known)
  have more : parser.typed.typedRules.length * ((input.size - i).toNat + 2) =
      parser.typed.typedRules.length * ((input.size - i).toNat + 1) + parser.typed.typedRules.length := Nat.mul_succ _ _
  refine ⟨forward, rule, parser.typed.typedRules.length * ((input.size - i).toNat + 2) - 1,
    ⟨faithful, forwards, rfl, known, by simp [apart], ?_⟩, ?_⟩
  · dsimp only
    omega
  · omega

/-- A rule that does nothing but refer to another one fails where that one fails, and only there. It comes to the same
if the other rule does not come back to it by left calls, or does not come back to itself without it. -/
theorem apply_other_side (compiled : Reporting.Gives (ofGrammar g actions) parser) (found : g.rule? front = some r)
    (single : r.productions = [⟨[.reference name], none⟩]) (unnamed : r.errorName = none) (listed : name ∈ g.ruleNames)
    (input : Input) (i : Int) : ∃ o s o' s', parser.typed.apply input front i .unlimited {} = (o, s) ∧
      parser.typed.apply input name i .unlimited {} = (o', s') ∧ (o = .failed ↔ o' = .failed) ∧
      (¬ TransGen g.LeftCalls name front ∨ ¬ g.ReturnsWithout front name →
        o = o' ∧ ((∀ h, o ≠ .halted h) → s.failures = s'.failures)) ∧
      ∀ room, (parser.typed.apply input front i room {} = (o, s) ∨
          ∃ cut, parser.typed.apply input front i room {} = (.halted .nestedTooDeeply, cut)) ∧
        (parser.typed.apply input name i room {} = (o', s') ∨
          ∃ cut, parser.typed.apply input name i room {} = (.halted .nestedTooDeeply, cut)) := by
  have steady : ∀ {rule o s} room, parser.typed.apply input rule i .unlimited {} = (o, s) →
      parser.typed.apply input rule i room {} = (o, s) ∨
        ∃ cut, parser.typed.apply input rule i room {} = (.halted .nestedTooDeeply, cut) := by
    intro rule o s room run
    rcases TypedGrammar.steady_apply rule i room {} with cut | same
    · exact .inr cut
    · exact .inl (same.trans run)
  by_cases apart : name = front
  · subst apart
    cases run : parser.typed.apply input name i .unlimited {} with
    | mk o s =>
      exact ⟨o, s, o, s, rfl, rfl, Iff.rfl, fun _ => ⟨rfl, fun _ => rfl⟩,
        fun room => ⟨steady room run, steady room run⟩⟩
  · obtain ⟨forward, typed, depth, fronts, deep⟩ := exists_fronts compiled found single unnamed listed apart input i
    obtain ⟨o', s', t', run', runs', ends'⟩ :=
      TypedGrammar.apply_ends (faithful_of_ofGrammar compiled) (.initial []) Failures.proper_none name i
    have entry : parser.typed.apply input front i = parser.typed.callWithin input (depth + 2) front i := by
      unfold TypedGrammar.apply
      rw [deep]
    cases run : parser.typed.apply input front i .unlimited {} with
    | mk o s =>
      refine ⟨o, s, o', s', rfl, run', ?_, fun alike => ?_, fun room => ⟨steady room run, steady room run'⟩⟩
      · obtain ⟨k, here, same⟩ := (runs'.and fronts.failed_iff).exists
        rwa [← entry, run, here] at same
      · rw [← show parser.grammar = g from (parts_of_ofGrammar compiled).1] at alike
        have same : Fronts.Same parser.typed input ⟨i, front⟩ ⟨i, name⟩ depth :=
          alike.elim fronts.same_of_straight fronts.same_of_direct
        obtain ⟨o₁, s₁, t₁, run₁, runs₁, ends₁⟩ := same
        obtain ⟨k, here, there⟩ := (runs'.and runs₁).exists
        obtain ⟨rfl, rfl⟩ := Prod.mk.inj (here.symm.trans there)
        rw [entry] at run
        obtain ⟨rfl, rfl⟩ := Prod.mk.inj (run.symm.trans run₁)
        exact ⟨rfl, fun ended => (ends₁.failures_eq rfl ended).trans (ends'.failures_eq rfl ended).symm⟩

def indirect : Grammar where
  rules := [⟨"start", [⟨[.reference "foo", .literal "+"], none⟩, ⟨[.literal "x"], none⟩], none, true, none, ""⟩,
    ⟨"foo", [⟨[.reference "start"], none⟩], none, true, none, ""⟩]
  tokens := []
  states := []
  name := "indirect"
  distinctRules := by decide
  distinctTokens := Grammar.distinctTokens_nil
  disjoint := by decide
  distinctInStates := Grammar.distinctInStates_nil

theorem indirect_other_side : ∃ parser r, Reporting.Gives (ofGrammar indirect []) parser ∧
    indirect.rule? "foo" = some r ∧ r.productions = [⟨[.reference "start"], none⟩] ∧ r.errorName = none ∧
    "start" ∈ indirect.ruleNames ∧ ¬ indirect.ReturnsWithout "foo" "start" ∧
    ∃ o s s', parser.typed.apply (.text #['x', '+', '+']) "foo" 0 .unlimited {} = (o, s) ∧
      parser.typed.apply (.text #['x', '+', '+']) "start" 0 .unlimited {} = (o, s') ∧ stop? o = some 3 ∧
      s.failures = s'.failures := by
  have compiled : ∃ parser, Reporting.Gives (ofGrammar indirect []) parser ∧
      stop? (parser.typed.apply (.text #['x', '+', '+']) "foo" 0 .unlimited {}).1 = some 3 :=
    ⟨_, ⟨[], _, rfl⟩, by decide +kernel⟩
  obtain ⟨parser, compiled, matched⟩ := compiled
  have calls : (LeftRecursion.callsOf indirect.leftCallees "start").toList = ["foo"] := by decide
  have direct : ¬ indirect.ReturnsWithout "foo" "start" := by
    intro returns
    obtain ⟨callee, ⟨called, other⟩, _⟩ := TransGen.head'_iff.mp returns
    unfold Grammar.LeftCalls at called
    rw [TextSet.mem_def, calls] at called
    exact other (List.mem_singleton.mp called)
  have found : indirect.rule? "foo" = some ⟨"foo", [⟨[.reference "start"], none⟩], none, true, none, ""⟩ := rfl
  obtain ⟨o, s, o', s', run, run', _, alike, _⟩ :=
    apply_other_side compiled found rfl rfl (by decide) (.text #['x', '+', '+']) 0
  obtain ⟨rfl, same⟩ := alike (.inr direct)
  rw [run] at matched
  have failures := same (ended_of_stop? matched)
  exact ⟨parser, _, compiled, found, rfl, rfl, by decide, direct, o, s, s', run, run', matched, failures⟩

def twofold : Grammar where
  rules := [⟨"S", [⟨[.reference "F", .literal "y"], none⟩, ⟨[.reference "S", .literal "x"], none⟩,
    ⟨[.literal "a"], none⟩],
      none, true, none, ""⟩,
    ⟨"F", [⟨[.reference "S"], none⟩], none, true, none, ""⟩]
  tokens := []
  states := []
  name := "twofold"
  distinctRules := by decide
  distinctTokens := Grammar.distinctTokens_nil
  disjoint := by decide
  distinctInStates := Grammar.distinctInStates_nil

/-- From the front, the rule grows anew in each round of the front, and the seeds of the two get apart. -/
theorem twofold_other_side : ∃ parser r, Reporting.Gives (ofGrammar twofold []) parser ∧ twofold.rule? "F" = some r ∧
    r.productions = [⟨[.reference "S"], none⟩] ∧ r.errorName = none ∧ "S" ∈ twofold.ruleNames ∧
    stop? (parser.typed.apply (.text #['a', 'y', 'x']) "F" 0 .unlimited {}).1 = some 2 ∧
    stop? (parser.typed.apply (.text #['a', 'y', 'x']) "S" 0 .unlimited {}).1 = some 3 :=
  ⟨_, _, ⟨[], _, rfl⟩, rfl, rfl, rfl, by decide, by decide +kernel, by decide +kernel⟩

end Parser

end Packrat
