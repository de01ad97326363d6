import Packrat.Proofs.Parse.Frames
import Packrat.Proofs.Parse.Seeds

namespace Packrat

open Filter Relation

section

variable {p : TypedGrammar} {input : Input} {stack : List Call} {s s' : Parse} {c d : Call} {e : Entry}

namespace Coherent

theorem eq_of_depth (coherent : Coherent p input stack s) (found : s.memo.get? c = some e)
    (unsettled : e.settled = false) {e' : Entry} (found' : s.memo.get? d = some e') (unsettled' : e'.settled = false)
    (same : e.depth = e'.depth) : c = d := by
  obtain ⟨above, below, split⟩ := List.append_of_mem (coherent.mem_of_unsettled found unsettled)
  obtain ⟨above', below', split'⟩ := List.append_of_mem (coherent.mem_of_unsettled found' unsettled')
  rw [coherent.depth_eq found split, coherent.depth_eq found' split'] at same
  rw [split] at split'
  have rest := (List.append_inj' split' (by rw [List.length_cons, List.length_cons, same])).2
  exact (List.cons.inj rest).1

theorem mem_callsAbove_iff (coherent : Coherent p input stack s) (found : s.memo.get? c = some e)
    (unsettled : e.settled = false) (depth : Nat) : c ∈ s.callsAbove depth ↔ depth < e.depth := by
  unfold Parse.callsAbove
  rw [coherent.calls]
  constructor
  · intro member
    obtain ⟨i, before, here⟩ := List.mem_take_iff_getElem.mp member
    have inside : i < stack.length := by omega
    have split : stack = stack.take i ++ c :: stack.drop (i + 1) := by
      rw [← here, ← List.drop_eq_getElem_cons inside, List.take_append_drop]
    have deep := coherent.depth_eq found split
    rw [List.length_drop] at deep
    omega
  · intro deep
    obtain ⟨above, below, split⟩ := List.append_of_mem (coherent.mem_of_unsettled found unsettled)
    have length := congrArg List.length split
    rw [List.length_append, List.length_cons] at length
    have place := coherent.depth_eq found split
    refine List.mem_take_iff_getElem.mpr ⟨above.length, by omega, ?_⟩
    simp [split]

end Coherent

namespace Parse

/-- A call is provisional only if a seed was used that the call right outside it has, or that calls further out have. -/
def Discreet (s : Parse) : Prop := ∀ c d e e', s.memo.get? c = some e → s.memo.get? d = some e' →
  e.settled = false → e'.settled = false → e'.depth = e.depth + 1 → e'.provisional = true →
    e.reentered = true ∨ e.provisional = true

theorem Discreet.of_view (discreet : s.Discreet) (view : ∀ d e', s'.memo.get? d = some e' → e'.settled = false →
    ∃ e, s.memo.get? d = some e ∧ e.settled = false ∧ e.depth = e'.depth ∧ e.provisional = e'.provisional ∧
      e.reentered = e'.reentered) : s'.Discreet := by
  intro c d e e' found found' unsettled unsettled' deeper provisional
  obtain ⟨e₀, first, open₀, deep₀, marked₀, again₀⟩ := view c e found unsettled
  obtain ⟨e₁, second, open₁, deep₁, marked₁, _⟩ := view d e' found' unsettled'
  rw [← again₀, ← marked₀]
  exact discreet c d e₀ e₁ first second open₀ open₁ (by omega) (marked₁ ▸ provisional)

theorem discreet_invariant (p : TypedGrammar) (input : Input) : Invariant p input Discreet where
  congr discreet same := discreet.of_view fun d e' found' open' => ⟨e', by rw [← same, found'], open', rfl, rfl, rfl⟩
  enter {stack s top} coherent discreet fresh := by
    intro c d e e' found found' unsettled unsettled' deeper provisional
    rw [get?_enter fresh] at found found'
    split at found'
    · cases found'
      cases provisional
    · split at found
      · cases found
        obtain ⟨above, below, split⟩ := List.append_of_mem (coherent.mem_of_unsettled found' unsettled')
        have deep := coherent.depth_eq found' split
        have length := congrArg List.length split
        rw [List.length_append, List.length_cons] at length
        rw [coherent.calls] at deeper
        dsimp only at deeper
        omega
      · exact discreet c d e e' found found' unsettled unsettled' deeper provisional
  plantSeed {_ s top v stop} _ discreet := discreet.of_view fun d e' found' open' => by
    rw [get?_plantSeed] at found'
    split at found'
    · next here =>
      obtain ⟨e, found, rfl⟩ := Option.map_eq_some_iff.mp found'
      exact ⟨e, here ▸ found, open', rfl, rfl, rfl⟩
    · exact ⟨e', found', open', rfl, rfl, rfl⟩
  answered {stack s top seed} coherent chain discreet recorded := by
    cases settled : seed.settled with
    | true =>
      exact discreet.of_view fun d e' found' open' =>
        ⟨e', by rw [← memo_answered settled, found'], open', rfl, rfl, rfl⟩
    | false =>
      intro c d e e' found found' unsettled unsettled' deeper provisional
      rw [get?_answered settled] at found found'
      obtain ⟨e₀, first, rfl⟩ := Option.map_eq_some_iff.mp found
      obtain ⟨e₁, second, rfl⟩ := Option.map_eq_some_iff.mp found'
      dsimp only at unsettled unsettled' deeper provisional ⊢
      simp only [Bool.or_eq_true, decide_eq_true_eq] at provisional ⊢
      rcases provisional with before | above
      · rcases discreet c d e₀ e₁ first second unsettled unsettled' deeper before with again | marked
        · exact .inl (.inl again)
        · exact .inr (.inl marked)
      · rw [coherent.mem_callsAbove_iff second unsettled'] at above
        -- The inner one of the two is marked now. So is the outer one, unless it is the call whose seed is used.
        rcases Nat.lt_or_ge seed.depth e₀.depth with inside | outside
        · exact .inr (.inr ((coherent.mem_callsAbove_iff first unsettled _).mpr inside))
        · refine .inl (.inr ?_)
          rw [Memo.call_of_get? recorded]
          exact coherent.eq_of_depth first unsettled recorded settled (by omega)
  conclude {_ s top saved result} coherent discreet := discreet.of_view fun d e' found' open' => by
    obtain ⟨e, found, _⟩ := coherent.found_of_mem List.mem_cons_self
    rw [get?_conclude saved result coherent.ordered found] at found'
    split at found'
    · split at found'
      · cases found'
      · cases found'
        cases open'
    · exact ⟨e', found', open', rfl, rfl, rfl⟩

def Touched (c : Call) (s : Parse) : Prop :=
  ∃ e, s.memo.get? c = some e ∧ (e.reentered = true ∨ e.provisional = true)

def Covers (s u : Parse) : Prop := ∀ c e, s.memo.get? c = some e → e.settled = true →
  ∃ e', u.memo.get? c = some e' ∧ e'.settled = true ∧ e'.result = e.result ∧ e'.failures = e.failures

structure Adds (own : Failures) (u u' : Parse) : Prop where
  memo : u'.memo = u.memo
  calls : u'.stack = u.stack
  failures : u'.failures = u.failures.merge own

end Parse

open Parse

variable {stack base : List Call} {u u₁ u' : Parse} {own later : Failures}

theorem Extends.touched (further : Extends (c :: base) s s') (touched : s.Touched c) : s'.Touched c := by
  obtain ⟨e, found, marked⟩ := touched
  obtain ⟨e', found', reentered, provisional, rfl⟩ := further.pending List.mem_cons_self found
  exact ⟨_, found', marked.imp (by simp +contextual) (by simp +contextual)⟩

namespace Parse

theorem Covers.of_extends (covers : s'.Covers u) (further : Extends stack s s') : s.Covers u :=
  fun d e found settled => covers d e (further.settled found settled) settled

theorem Covers.congr (covers : s.Covers u) (left : s'.memo = s.memo) (right : u'.memo = u.memo) : s'.Covers u' := by
  intro d e found settled
  rw [left] at found
  rw [right]
  exact covers d e found settled

theorem Adds.trans (first : Adds own u u₁) (second : Adds later u₁ u') : Adds (own.merge later) u u' := by
  refine ⟨second.memo.trans first.memo, second.calls.trans first.calls, ?_⟩
  rw [second.failures, first.failures, Failures.merge_assoc]

theorem Adds.proper (adds : Adds own u u') (proper : u.failures.Proper) (properOwn : own.Proper) :
    u'.failures.Proper := by
  rw [adds.failures]
  exact proper.merge properOwn

theorem adds_answered (settled : e.settled = true) : Adds e.failures u (u.answered e) :=
  ⟨memo_answered settled, stack_answered e, failures_answered_of_settled settled⟩

end Parse

structure Poised (p : TypedGrammar) (input : Input) (stack : List Call) (s : Parse) : Prop where
  coherent : Coherent p input stack s
  discreet : s.Discreet
  proper : s.failures.Proper

theorem Poised.congr (poised : Poised p input stack s) (memo : s'.memo = s.memo) (same : s'.stack = s.stack)
    (proper : s'.failures.Proper) : Poised p input stack s' :=
  ⟨poised.coherent.congr memo same, (discreet_invariant p input).congr poised.discreet memo, proper⟩

variable {α β : Type}

/-- Work has led from one state to another one, inside the innermost of these calls. Unless the seed of this call or
of one further out was used, it comes to the same wherever all that is settled then is on record. -/
structure Replays (p : TypedGrammar) (input : Input) (c : Call) (base : List Call) (m : Run α) (s : Parse)
    (o : Outcome α) (s' : Parse) : Prop where
  poised : Poised p input (c :: base) s'
  further : Extends (c :: base) s s'
  replay : ∃ own : Failures, own.Proper ∧ s'.failures = s.failures.merge own ∧ (¬ s'.Touched c →
    ∀ u, u.failures.Proper → s'.Covers u → ∃ u', m .unlimited u = (o, u') ∧ Adds own u u')

namespace Replays

variable {m : Run α} {k : Run β} {o o₁ : Outcome α} {o' : Outcome β} {s₁ : Parse}

theorem stay (poised : Poised p input (c :: base) s) (properOwn : own.Proper)
    (run : ∀ u, u.failures.Proper → ∃ u', m .unlimited u = (o, u') ∧ Adds own u u')
    (here : m .unlimited s = (o, s')) : Replays p input c base m s o s' := by
  obtain ⟨s₁, same, adds⟩ := run s poised.proper
  rw [here] at same
  cases same
  refine ⟨poised.congr adds.memo adds.calls (adds.proper poised.proper properOwn), .of_memo adds.memo, own, properOwn,
    adds.failures, fun _ u proper _ => run u proper⟩

theorem trans {n : Run β} (first : Replays p input c base m s o s₁) (second : Replays p input c base n s₁ o' s')
    (joined : ∀ u u₁, m .unlimited u = (o, u₁) → k .unlimited u = n .unlimited u₁) :
    Replays p input c base k s o' s' := by
  obtain ⟨_, further, own, proper, failures, replay⟩ := first
  obtain ⟨poised, further', own', proper', failures', replay'⟩ := second
  refine ⟨poised, further.trans further', own.merge own', proper.merge proper', ?_,
    fun untouched u properLeft covers => ?_⟩
  · rw [failures', failures, Failures.merge_assoc]
  · obtain ⟨u₁, run, adds⟩ := replay (fun touched => untouched (further'.touched touched)) u properLeft
      (covers.of_extends further')
    obtain ⟨u', run', adds'⟩ := replay' untouched u₁ (adds.proper properLeft proper) (covers.congr rfl adds.memo)
    exact ⟨u', (joined u u₁ run).trans run', adds.trans adds'⟩

theorem afresh {t : Failures → Failures} (start : s.failures.Proper)
    (inner : Replays p input c base m { s with failures := {} } o s₁)
    (run : m .unlimited { s with failures := {} } = (o, s₁))
    (proper : ∀ own, own.Proper → (t own).Proper) (shape : ∀ u u₁ : Parse, u.failures.Proper →
      m .unlimited { u with failures := {} } = (o, u₁) →
        k .unlimited u = (o', { u₁ with failures := u.failures.merge (t u₁.failures) }))
    (here : k .unlimited s = (o', s')) : Replays p input c base k s o' s' := by
  have same := shape s s₁ start run
  rw [here] at same
  cases same
  obtain ⟨poised, further, own, properOwn, failures, replay⟩ := inner
  rw [Failures.none_merge properOwn] at failures
  rw [failures]
  refine ⟨poised.congr rfl rfl (start.merge (proper own properOwn)), ?_, t own, proper own properOwn, rfl, ?_⟩
  · have emptied : Extends (c :: base) s { s with failures := {} } := .of_memo rfl
    exact emptied.trans (further.trans (.of_memo rfl))
  · intro untouched u properLeft covers
    obtain ⟨u₁, again, adds⟩ := replay untouched { u with failures := {} } Failures.proper_none covers
    have left := adds.failures
    rw [Failures.none_merge properOwn] at left
    refine ⟨_, shape u u₁ properLeft again, adds.memo, adds.calls, ?_⟩
    rw [left]

end Replays

def Run.Repeats (p : TypedGrammar) (input : Input) (c : Call) (base : List Call) (α : Type) (m : Run α) : Prop :=
  ∀ s o s', Poised p input (c :: base) s → m .unlimited s = (o, s') → (∀ h, o ≠ .halted h) →
    Replays p input c base m s o s'

namespace Run.Repeats

theorem of_add {m : Run α} (o : Outcome α) (properOwn : own.Proper)
    (run : ∀ u, u.failures.Proper → ∃ u', m .unlimited u = (o, u') ∧ Adds own u u') : m.Repeats p input c base α := by
  intro s o' s' poised here _
  obtain ⟨s₁, same, _⟩ := run s poised.proper
  obtain rfl : o = o' := by
    rw [same] at here
    exact congrArg Prod.fst here
  exact .stay poised properOwn run here

theorem of_const {m : Run α} (o : Outcome α) (run : ∀ u, m .unlimited u = (o, u)) : m.Repeats p input c base α :=
  of_add o Failures.proper_none fun u proper => ⟨u, run u, rfl, rfl, (Failures.merge_none proper).symm⟩

theorem split {m : Run α} {matched : α → Int → Run β} {failed : Run β} (first : m.Repeats p input c base α)
    (second : ∀ a stop, (matched a stop).Repeats p input c base β) (other : failed.Repeats p input c base β) :
    (m.split matched failed).Repeats p input c base β := by
  intro s o s' poised run ended
  cases start : m .unlimited s with
  | mk o₁ s₁ =>
    cases o₁ with
    | halted h =>
      rw [Run.split_of_halted start] at run
      cases run
      exact absurd rfl (ended h)
    | failed =>
      rw [Run.split_of_failed start] at run
      have before := first s _ s₁ poised start nofun
      exact before.trans (other s₁ o s' before.poised run ended) fun u u₁ => Run.split_of_failed
    | matched a stop =>
      rw [Run.split_of_matched start] at run
      have before := first s _ s₁ poised start nofun
      exact before.trans (second a stop s₁ o s' before.poised run ended) fun u u₁ => Run.split_of_matched

theorem negate {m : Run Value} (index : Int) (what : String) (work : m.Repeats p input c base Value) :
    (Run.negate m index what).Repeats p input c base Value := by
  intro s o s' poised run ended
  have start : Poised p input (c :: base) { s with failures := {} } := poised.congr rfl rfl Failures.proper_none
  cases inner : m .unlimited { s with failures := {} } with
  | mk o₁ s₁ =>
    have run' := run
    simp only [Run.negate, inner] at run'
    cases o₁ with
    | halted h =>
      cases run'
      exact absurd rfl (ended h)
    | failed =>
      cases run'
      refine .afresh (t := fun _ => {}) poised.proper (work _ _ s₁ start inner (by simp)) inner
        (fun _ _ => Failures.proper_none) (fun u u₁ proper here => ?_) run
      simp only [Run.negate, here, Failures.merge_none proper]
    | matched v stop =>
      cases run'
      refine .afresh (t := fun _ => ({} : Failures).fail index what) poised.proper (work _ _ s₁ start inner (by simp))
        inner (fun _ _ => Failures.proper_none.fail index what) (fun u u₁ proper here => ?_) run
      simp only [Run.negate, here, Run.fail, Failures.fail_eq_merge_own proper]

theorem named {m : Run Value} (name : String) (index : Int) (work : m.Repeats p input c base Value) :
    (Run.named name index m).Repeats p input c base Value := by
  intro s o s' poised run ended
  have start : Poised p input (c :: base) { s with failures := {} } := poised.congr rfl rfl Failures.proper_none
  cases inner : m .unlimited { s with failures := {} } with
  | mk o₁ s₁ =>
    have run' := run
    simp only [Run.named, inner] at run'
    cases o₁ with
    | halted h =>
      cases run'
      exact absurd rfl (ended h)
    | failed =>
      cases run'
      refine .afresh (t := fun own => if own.furthest ≤ index then ⟨index, .ofList [name]⟩ else own) poised.proper
        (work _ _ s₁ start inner (by simp)) inner (fun _ proper => Tracks.proper_named proper name index)
        (fun u u₁ proper here => ?_) run
      simp only [Run.named, here]
      rw [Failures.merge_comm]
    | matched v stop =>
      cases run'
      refine .afresh (t := id) poised.proper (work _ _ s₁ start inner (by simp)) inner (fun _ proper => proper)
        (fun u u₁ proper here => ?_) run
      simp only [Run.named, here]
      rw [Failures.merge_comm]
      rfl

theorem finish (q : TypedProduction) (start : Int) (values : List Value) (stop : Int) :
    (TypedGrammar.finish q start values stop).Repeats p input c base Value := by
  cases made : q.value values with
  | ok v =>
    refine of_add (.matched v stop) Failures.proper_none fun u proper => ?_
    have run : ∃ events, TypedGrammar.finish q start values stop .unlimited u =
        (.matched v stop, { u with events }) := by
      simp only [TypedGrammar.finish, inRoomFor_unlimited, made]
      exact ⟨_, rfl⟩
    obtain ⟨events, run⟩ := run
    exact ⟨_, run, rfl, rfl, (Failures.merge_none proper).symm⟩
  | error e =>
    intro s o s' _ run ended
    simp only [TypedGrammar.finish, inRoomFor_unlimited, made] at run
    cases e with
    | fault f =>
      cases run
      exact absurd rfl (ended _)
    | misfit m =>
      cases run
      exact absurd rfl (ended _)

theorem halt (h : Halt) : (Run.halt h : Run α).Repeats p input c base α := by
  intro s o s' _ run ended
  cases run
  exact absurd rfl (ended h)

theorem kept : Run.Kept (Run.Repeats p input c base) where
  done _ _ := of_const _ fun _ => rfl
  noMatch := of_const _ fun _ => rfl
  halt := halt
  fail index what := of_add .failed (Failures.proper_none.fail index what) fun _ proper =>
    ⟨_, rfl, rfl, rfl, Failures.fail_eq_merge_own proper index what⟩
  finish := finish
  nested _ work s o s' poised run ended :=
    have replays := work s o s' poised run ended
    ⟨replays.poised, replays.further, replays.replay⟩
  split first second other := split first second other
  negate index what work := negate index what work
  named name index work := named name index work

end Run.Repeats

variable {lo : Int} {depth : Nat} {name : String} {j : Int} {typed : TypedRule} {o : Outcome Value}

namespace Sound

theorem poised_of_call (faithful : p.Faithful) (sound : Sound p input lo (c :: base) ⟨depth, .call name, j, s⟩)
    (discreet : s.Discreet) (run : p.callWithin input depth name j .unlimited s = (o, s'))
    (ended : ∀ h, o ≠ .halted h) : Poised p input (c :: base) s' ∧ Extends (c :: base) s s' ∧
      ∃ own : Failures, own.Proper ∧ s'.failures = s.failures.merge own := by
  have keeping := TypedGrammar.answering_keeping (discreet_invariant p input) faithful lo
  obtain ⟨o', s₁, t₁, run', _, ends⟩ :=
    sound.tracks_call keeping trivial s s s ⟨sound.twin, discreet⟩ sound.proper sound.proper
  rw [run] at run'
  cases run'
  rcases ends.halted_or_result with ⟨h, rfl, _⟩ | ⟨result, rfl, agree, _⟩
  · exact absurd rfl (ended h)
  · obtain ⟨own, proper, failures, _⟩ := agree.failures
    have ⟨keeping, discreet'⟩ := agree.related
    exact ⟨⟨keeping.coherent, discreet', agree.proper_left sound.proper⟩, keeping.later, own, proper, failures⟩

theorem concludes (faithful : p.Faithful) (sound : Sound p input lo stack ⟨depth + 1, .call name, j, s⟩)
    (discreet : s.Discreet) (fresh : s.memo.get? ⟨j, name⟩ = none) (known : p.typed? name = some typed)
    (run : p.callWithin input (depth + 1) name j .unlimited s = (o, s')) (ended : ∀ h, o ≠ .halted h) :
    ∃ result s₁, o = .ofResult result ∧ s' = (s₁.leave ⟨j, name⟩ s.failures).remember ⟨j, name⟩ result ∧
      Coherent p input (⟨j, name⟩ :: stack) s₁ ∧ s₁.Discreet := by
  have keeping := TypedGrammar.answering_keeping (discreet_invariant p input) faithful lo
  have entered := sound.enter fresh known
  have body := fun s₁ => TypedGrammar.Conduct.body known (entered.answers keeping trivial s₁)
  have outside := (List.nodup_cons.mp entered.standing.nodup).1
  have whole : Tracks
      (fun s' t' => Twin.Within p input (s.enter ⟨j, name⟩) ⟨j, name⟩ stack s' t' ∧ s'.Discreet) _ _ _ _ :=
    Tracks.andThen (Twin.within_tracks body) fun v stop holds =>
      Tracks.settle (Twin.growing (discreet_invariant p input) outside) (Twin.within_tracks body) holds
  have start : Twin.Within p input (s.enter ⟨j, name⟩) ⟨j, name⟩ stack (s.enter ⟨j, name⟩) (s.enter ⟨j, name⟩) :=
    ⟨rfl, rfl, entered.coherent, .refl _ _⟩
  obtain ⟨o₁, s₁, t₁, first, _, ends⟩ := whole _ _
    ⟨start, (discreet_invariant p input).enter sound.coherent discreet fresh⟩ Failures.proper_none Failures.proper_none
  rw [TypedGrammar.callWithin_of_fresh fresh known] at run
  rcases ends.halted_or_result with ⟨h, rfl, _⟩ | ⟨result, rfl, agree, _⟩
  · rw [evaluateCall_of_halted rfl first] at run
    cases run
    exact absurd rfl (ended h)
  · rw [evaluateCall_of_result rfl first] at run
    cases run
    exact ⟨result, s₁, rfl, rfl, agree.related.1.2.2.1, agree.related.2⟩

theorem settled_of_call (faithful : p.Faithful) (sound : Sound p input lo (c :: base) ⟨depth, .call name, j, s⟩)
    (discreet : s.Discreet) (run : p.callWithin input depth name j .unlimited s = (o, s'))
    (ended : ∀ h, o ≠ .halted h) (untouched : ¬ s'.Touched c) : ∃ e, s'.memo.get? ⟨j, name⟩ = some e ∧
      e.settled = true ∧ o = .ofResult e.result ∧ s'.failures = s.failures.merge e.failures := by
  obtain ⟨e₀, recorded, unsettled⟩ := sound.coherent.found_of_mem List.mem_cons_self
  cases found : s.memo.get? ⟨j, name⟩ with
  | some e =>
    rw [TypedGrammar.callWithin_of_found found, reuse_eq] at run
    cases run
    cases settled : e.settled with
    | true => exact ⟨e, by rw [memo_answered settled, found], settled, rfl, failures_answered_of_settled settled⟩
    | false =>
      refine absurd ⟨_, by rw [get?_answered settled, recorded]; rfl, ?_⟩ untouched
      rcases List.mem_cons.mp (sound.coherent.mem_of_unsettled found settled) with here | outer
      · exact .inl (by simp [Memo.call_of_get? found, here])
      · obtain ⟨above, below, split⟩ := List.append_of_mem outer
        have deep := sound.coherent.depth_eq found (show c :: base = (c :: above) ++ _ :: below by simp [split])
        have place := sound.coherent.depth_eq recorded (show c :: base = [] ++ c :: base from rfl)
        rw [split, List.length_append, List.length_cons] at place
        have above := (sound.coherent.mem_callsAbove_iff recorded unsettled e.depth).mpr (by omega)
        exact .inr (by simp [above])
  | none =>
    cases known : p.typed? name with
    | none =>
      rw [TypedGrammar.callWithin_of_unknown found known] at run
      cases run
      exact absurd rfl (ended _)
    | some typed =>
      cases depth with
      | zero =>
        simp only [TypedGrammar.callWithin, Run.nested_unlimited, found, known] at run
        cases run
        exact absurd rfl (ended _)
      | succ depth =>
        obtain ⟨result, s₁, rfl, rfl, coherent, discreet⟩ := sound.concludes faithful discreet found known run ended
        obtain ⟨e, found₁, unsettled₁, deep⟩ := coherent.pending (List.suffix_refl _)
        have view := get?_conclude s.failures result coherent.ordered found₁
        -- Else the call right outside has been marked as well, as marks are discreet.
        have provisional : e.provisional = false := by
          by_contra marked
          obtain ⟨e₁, recorded₁, open₁, place⟩ := coherent.pending (List.suffix_cons _ _)
          have other : c ≠ ⟨j, name⟩ := by
            intro same
            rw [same, found] at recorded
            cases recorded
          refine untouched ⟨e₁, by rw [view, if_neg other, recorded₁], ?_⟩
          have deeper : e.depth = e₁.depth + 1 := by rw [place, deep, List.length_cons]
          exact discreet c _ e₁ e recorded₁ found₁ open₁ unsettled₁ deeper (Bool.not_eq_false _ ▸ marked)
        refine ⟨{ e with failures := s₁.failures, result, settled := true }, ?_, rfl, rfl, failures_conclude⟩
        rw [view, if_pos rfl, if_neg (by simp [provisional])]

end Sound

open Classical in
noncomputable def TypedGrammar.callInside (p : TypedGrammar) (input : Input) (c : Call) (depth : Nat) (name : String)
    (j : Int) : Run Value :=
  if Call.Follows p.grammar ⟨j, name⟩ c ∧ j ≤ max c.start input.size then p.callWithin input depth name j
  else .halt .exhausted

namespace Sound

theorem placed_call {m : Moment} (sound : Sound p input lo (c :: base) m)
    (follows : Call.Follows p.grammar ⟨j, name⟩ c) (bounded : j ≤ max c.start input.size) :
    Sound p input lo (c :: base) ⟨m.depth, .call name, j, m.state⟩ := by
  have ⟨least, most⟩ := sound.standing.within c List.mem_cons_self
  have behind := follows.behind
  refine ⟨sound.standing, sound.coherent, sound.proper, sound.enough, .cons_cons follows sound.standing.chain, ?_, ?_⟩
  · dsimp only at behind ⊢
    omega
  · dsimp only
    omega

theorem repeats_callInside (faithful : p.Faithful) (standing : Standing p input lo (c :: base))
    (enough : p.typedRules.length * ((input.size - lo).toNat + 1) < depth + (c :: base).length) (name : String)
    (j : Int) : (p.callInside input c depth name j).Repeats p input c base Value := by
  unfold TypedGrammar.callInside
  split
  case isFalse => exact .halt _
  case isTrue inside =>
    intro s o s' poised run ended
    obtain ⟨follows, bounded⟩ := inside
    have start : Sound p input lo (c :: base) ⟨depth, .items [], c.start, s⟩ :=
      ⟨standing, poised.coherent, poised.proper, enough, c, base, rfl, Int.le_refl _, le_max_left _ _, nofun,
        fun _ => nofun⟩
    have sound := start.placed_call follows bounded
    obtain ⟨poised', further, own, proper, failures⟩ := sound.poised_of_call faithful poised.discreet run ended
    -- Only where no seed from the call outward was used is there anything to replay.
    by_cases touched : s'.Touched c
    · exact ⟨poised', further, own, proper, failures, fun untouched => absurd touched untouched⟩
    · obtain ⟨e, found, settled, rfl, failures⟩ := sound.settled_of_call faithful poised.discreet run ended touched
      refine ⟨poised', further, e.failures, poised'.coherent.proper found, failures, fun _ u _ covers => ?_⟩
      obtain ⟨e', found', settled', result, same⟩ := covers _ _ found settled
      refine ⟨u.answered e', ?_, same ▸ adds_answered settled'⟩
      rw [TypedGrammar.callWithin_of_found found', reuse_eq, result]

theorem body_meets (faithful : p.Faithful) (sound : Sound p input lo (c :: base) ⟨depth, .body typed, c.start, s⟩)
    (known : p.typed? c.rule = some typed) (call : String → Int → Run Value) (same : ∀ name j,
      Call.Follows p.grammar ⟨j, name⟩ c → j ≤ max c.start input.size → call name j = p.callWithin input depth name j) :
    Meets (Twin p input s (c :: base)) (· ≠ .exhausted)
      (fun v stop => p.Derives input (.expr (.reference c.rule)) c.start [v] stop) (p.body input call typed c.start)
      (fun d => p.body input (p.callWithin input d) typed c.start) s s := by
  have conduct := sound.conduct faithful s
  refine TypedGrammar.Conduct.body known ⟨faithful, conduct.blind, conduct.halts, ?_⟩ s s sound.twin sound.proper
    sound.proper
  intro name j behind bounded refers first listed
  rw [same name j ⟨behind, refers, first⟩ bounded]
  exact conduct.tracks behind bounded refers first listed

end Sound

theorem Meets.records {m : Run α} {n : Nat → Run α} {H : Halt → Prop} {Q : α → Int → Prop} {s₀ : Parse}
    {o : Outcome α} (meets : Meets (Twin p input s₀ stack) H Q m n s s) (run : m .unlimited s = (o, s'))
    (ended : ∀ h, o ≠ .halted h) :
    ∃ t', (∀ᶠ d in atTop, n d .unlimited s = (o, t')) ∧ t'.memo = s'.memo ∧ t'.stack = s'.stack ∧
      t'.failures = s'.failures := by
  obtain ⟨o', s₁, t₁, run', runs, ends⟩ := meets
  rw [run] at run'
  cases run'
  have agreed : Agree (Twin p input s₀ stack) s s s' t₁ → t₁.memo = s'.memo ∧ t₁.stack = s'.stack ∧
      t₁.failures = s'.failures := by
    intro ⟨twin, own, _, left, right⟩
    exact ⟨twin.memo.symm, twin.calls.symm, right.trans left.symm⟩
  cases ends with
  | halted => exact absurd rfl (ended _)
  | failed agree => exact ⟨t₁, runs, agreed agree⟩
  | matched agree => exact ⟨t₁, runs, agreed agree⟩

theorem Sound.again (faithful : p.Faithful) (sound : Sound p input lo (c :: base) ⟨depth, .body typed, c.start, s⟩)
    (discreet : s.Discreet) (known : p.typed? c.rule = some typed)
    (run : p.body input (p.callWithin input depth) typed c.start .unlimited s = (o, s')) (ended : ∀ h, o ≠ .halted h) :
    s'.Discreet ∧ (¬ s'.Touched c → ∃ own : Failures, own.Proper ∧ s'.failures = s.failures.merge own ∧
      ∀ {base' lo' u}, Sound p input lo' (c :: base') ⟨depth, .body typed, c.start, u⟩ → s'.Covers u →
        ∃ u', (∀ᶠ d in atTop, p.body input (p.callWithin input d) typed c.start .unlimited u = (o, u')) ∧
          Adds own u u') := by
  have inside : ∀ name j, Call.Follows p.grammar ⟨j, name⟩ c → j ≤ max c.start input.size →
      p.callInside input c depth name j = p.callWithin input depth name j := by
    intro name j follows bounded
    exact if_pos ⟨follows, bounded⟩
  -- The work is done by calls that can come up inside, and compared with all calls before and after.
  have work : (p.body input (p.callInside input c depth) typed c.start).Repeats p input c base Value :=
    Run.Repeats.kept.body (repeats_callInside faithful sound.standing sound.enough) typed c.start
  obtain ⟨t', runs, memo, calls, failures⟩ := (sound.body_meets faithful known _ fun _ _ _ _ => rfl).records run ended
  obtain ⟨o₁, s₁, t₁, run₁, runs₁, _⟩ := sound.body_meets faithful known _ inside
  obtain ⟨d, here, there⟩ := (runs.and runs₁).exists
  obtain ⟨rfl, rfl⟩ := Prod.mk.inj (here.symm.trans there)
  obtain ⟨t₂, runs₂, memo₂, _, failures₂⟩ := (sound.body_meets faithful known _ inside).records run₁ ended
  obtain ⟨d, here, there⟩ := (runs.and runs₂).exists
  obtain ⟨_, rfl⟩ := Prod.mk.inj (here.symm.trans there)
  obtain ⟨poised, further, own, proper, added, replay⟩ :=
    work s o s₁ ⟨sound.coherent, discreet, sound.proper⟩ run₁ ended
  have same : s'.memo = s₁.memo := memo.symm.trans memo₂
  refine ⟨(discreet_invariant p input).congr poised.discreet same, fun untouched => ⟨own, proper, ?_, ?_⟩⟩
  · rw [← failures, failures₂, added]
  · intro base' lo' u start covers
    have untouched : ¬ s₁.Touched c := by
      unfold Touched at untouched ⊢
      rwa [← same]
    obtain ⟨u₁, again, adds⟩ := replay untouched u start.proper (covers.congr same.symm rfl)
    obtain ⟨u', runs', memo', calls', failures'⟩ := (start.body_meets faithful known _ inside).records again ended
    exact ⟨u', runs', memo'.trans adds.memo, calls'.trans adds.calls, failures'.trans adds.failures⟩

end

end Packrat
