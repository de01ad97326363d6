import Packrat.Proofs.Parse.Derivation
import Packrat.Proofs.Parse.Failures
import Packrat.Proofs.Parse.Memo

namespace Packrat

namespace Parse

variable {s : Parse} {c d : Call}

@[simp] theorem memo_modifyEntry (f : Entry → Entry) : (s.modifyEntry c f).memo = s.memo.modify c f := rfl

@[simp] theorem stack_modifyEntry (f : Entry → Entry) : (s.modifyEntry c f).stack = s.stack := rfl

@[simp] theorem failures_modifyEntry (f : Entry → Entry) : (s.modifyEntry c f).failures = s.failures := rfl

theorem get?_modifyEntry (f : Entry → Entry) (same : ∀ e, (f e).call = e.call) :
    (s.modifyEntry c f).memo.get? d = if d = c then (s.memo.get? c).map f else s.memo.get? d :=
  Memo.get?_modify same

theorem memo_leave {saved : Failures} :
    (s.leave c saved).memo = (s.modifyEntry c fun e => { e with failures := s.failures }).memo := rfl

theorem stack_makeProvisional (calls : List Call) : (s.makeProvisional calls).stack = s.stack := by
  unfold makeProvisional
  induction calls generalizing s with
  | nil => rfl
  | cons c calls ih => rw [List.foldl_cons, ih, stack_modifyEntry]

theorem failures_makeProvisional (calls : List Call) :
    (s.makeProvisional calls).failures = s.failures := by
  unfold makeProvisional
  induction calls generalizing s with
  | nil => rfl
  | cons c calls ih => rw [List.foldl_cons, ih, failures_modifyEntry]

theorem ordered_makeProvisional (calls : List Call) (ordered : s.memo.Ordered) :
    (s.makeProvisional calls).memo.Ordered := by
  unfold makeProvisional
  induction calls generalizing s with
  | nil => exact ordered
  | cons c calls ih => exact ih (ordered.modify fun _ => rfl)

theorem memo_makeProvisional (calls : List Call) : (s.makeProvisional calls).memo =
    calls.foldl (fun m c => m.modify c fun e => { e with provisional := true }) s.memo := by
  unfold makeProvisional
  induction calls generalizing s with
  | nil => rfl
  | cons c calls ih => rw [List.foldl_cons, ih, memo_modifyEntry, List.foldl_cons]

theorem get?_makeProvisional (calls : List Call) :
    (s.makeProvisional calls).memo.get? d =
      (s.memo.get? d).map fun e => { e with provisional := e.provisional || decide (d ∈ calls) } := by
  unfold makeProvisional
  induction calls generalizing s with
  | nil => simp
  | cons c calls ih =>
    rw [List.foldl_cons, ih, get?_modifyEntry]
    · by_cases here : d = c
      · subst here
        cases s.memo.get? d <;> simp
      · simp [here]
    · exact fun _ => rfl

theorem get?_enter (fresh : s.memo.get? c = none) :
    (s.enter c).memo.get? d =
      if d = c then some { call := c, depth := s.stack.length } else s.memo.get? d := by
  simp only [enter]
  rw [Memo.get?_insert fresh]
  exact if_congr eq_comm rfl rfl

theorem get?_plantSeed (v : Value) (stop : Int) :
    (s.plantSeed c v stop).memo.get? d = if d = c then
      (s.memo.get? c).map fun e => { e with result := some (v, stop), rounds := e.rounds + 1 }
    else s.memo.get? d := get?_modifyEntry _ fun _ => rfl

theorem get?_conclude {e : Entry} (saved : Failures) (result : Result) (ordered : s.memo.Ordered)
    (found : s.memo.get? c = some e) (d : Call) :
    ((s.leave c saved).remember c result).memo.get? d = if d = c then
      if e.provisional then none else some { e with failures := s.failures, result, settled := true }
    else s.memo.get? d := by
  have left : (s.leave c saved).memo.get? c = some { e with failures := s.failures } := by
    rw [memo_leave, get?_modifyEntry, if_pos rfl, found]
    · rfl
    · exact fun _ => rfl
  have others : d ≠ c → (s.leave c saved).memo.get? d = s.memo.get? d := by
    intro other
    rw [memo_leave, get?_modifyEntry, if_neg other]
    exact fun _ => rfl
  have orderedLeft : (s.leave c saved).memo.Ordered := ordered.modify fun _ => rfl
  unfold remember
  rw [left]
  dsimp only
  by_cases provisional : e.provisional = true
  · rw [if_pos provisional]
    dsimp only
    rw [Memo.get?_erase orderedLeft]
    by_cases here : d = c
    · simp [here, provisional]
    · rw [if_neg here, if_neg here, others here]
  · rw [if_neg provisional, get?_modifyEntry]
    · by_cases here : d = c
      · simp [here, left, provisional]
      · rw [if_neg here, if_neg here, others here]
    · exact fun _ => rfl

theorem ordered_conclude {saved : Failures} {result : Result} (ordered : s.memo.Ordered) :
    ((s.leave c saved).remember c result).memo.Ordered := by
  have orderedLeft : (s.leave c saved).memo.Ordered := ordered.modify fun _ => rfl
  unfold remember
  split
  · split
    · exact orderedLeft.erase c
    · exact orderedLeft.modify fun _ => rfl
  · exact orderedLeft

theorem stack_conclude {saved : Failures} {result : Result} :
    ((s.leave c saved).remember c result).stack = s.stack.tail := by
  unfold remember
  split
  · split <;> rfl
  · rfl

theorem failures_conclude {saved : Failures} {result : Result} :
    ((s.leave c saved).remember c result).failures = saved.merge s.failures := by
  unfold remember
  split
  · split <;> rfl
  · rfl

def answered (e : Entry) (s : Parse) : Parse :=
  if e.settled then { s with failures := s.failures.merge e.failures }
  else (s.modifyEntry e.call fun e => { e with reentered := true }).makeProvisional (s.callsAbove e.depth)

theorem stack_answered (e : Entry) : (s.answered e).stack = s.stack := by
  unfold answered
  split
  · rfl
  · rw [stack_makeProvisional, stack_modifyEntry]

theorem memo_answered {e : Entry} (settled : e.settled = true) : (s.answered e).memo = s.memo := by
  unfold answered
  rw [if_pos settled]

theorem failures_answered_of_settled {e : Entry} (settled : e.settled = true) :
    (s.answered e).failures = s.failures.merge e.failures := by
  unfold answered
  rw [if_pos settled]

theorem failures_answered {e : Entry} (unsettled : e.settled = false) :
    (s.answered e).failures = s.failures := by
  unfold answered
  rw [if_neg (by simp [unsettled]), failures_makeProvisional, failures_modifyEntry]

theorem ordered_answered (e : Entry) (ordered : s.memo.Ordered) : (s.answered e).memo.Ordered := by
  unfold answered
  split
  · exact ordered
  · exact ordered_makeProvisional _ (ordered.modify fun _ => rfl)

theorem get?_answered {e : Entry} (unsettled : e.settled = false) :
    (s.answered e).memo.get? d = (s.memo.get? d).map fun e' =>
      { e' with reentered := e'.reentered || decide (d = e.call)
                provisional := e'.provisional || decide (d ∈ s.callsAbove e.depth) } := by
  unfold answered
  rw [if_neg (by simp [unsettled]), get?_makeProvisional, get?_modifyEntry]
  · by_cases here : d = e.call
    · subst here
      cases s.memo.get? e.call <;> simp
    · simp [here]
  · exact fun _ => rfl

end Parse

def Outcome.ofResult : Result → Outcome Value
  | some (v, stop) => .matched v stop
  | none => .failed

theorem Outcome.halted_or_result (o : Outcome Value) : (∃ h, o = .halted h) ∨ ∃ result, o = .ofResult result := by
  cases o with
  | matched v stop => exact .inr ⟨some (v, stop), rfl⟩
  | failed => exact .inr ⟨none, rfl⟩
  | halted h => exact .inl ⟨h, rfl⟩

theorem reuse_eq (e : Entry) (room : Room) (s : Parse) :
    Parse.reuse e room s = (.ofResult e.result, s.answered e) := by
  have state : s.answered e = if e.settled then { s with failures := s.failures.merge e.failures }
    else (s.modifyEntry e.call fun e => { e with reentered := true }).makeProvisional
      (s.callsAbove e.depth) := rfl
  unfold Parse.reuse
  rw [← state]
  cases e.result with
  | none => rfl
  | some found => rfl

namespace Entry

/-- The entry with marks that others set while its call is evaluated. -/
def Marked (before after : Entry) : Prop :=
  ∃ reentered provisional : Bool, after =
    { before with reentered := before.reentered || reentered
                  provisional := before.provisional || provisional }

theorem Marked.refl (e : Entry) : e.Marked e := ⟨false, false, by simp⟩

theorem Marked.trans {a b c : Entry} (first : a.Marked b) (second : b.Marked c) : a.Marked c := by
  obtain ⟨r, q, rfl⟩ := first
  obtain ⟨r', q', rfl⟩ := second
  exact ⟨r || r', q || q', by simp [Bool.or_assoc]⟩

end Entry

/-- What the state of a parse is like while the calls on this stack are evaluated. -/
structure Coherent (p : TypedGrammar) (input : Input) (stack : List Call) (s : Parse) : Prop where
  calls : s.stack = stack
  ordered : s.memo.Ordered
  proper : ∀ {c e}, s.memo.get? c = some e → e.failures.Proper
  derived : ∀ {c e v stop}, s.memo.get? c = some e → e.result = some (v, stop) →
    p.Derives input (.expr (.reference c.rule)) c.start [v] stop
  pending : ∀ {c below}, (c :: below) <:+ stack →
    ∃ e, s.memo.get? c = some e ∧ e.settled = false ∧ e.depth = below.length
  settled : ∀ {c e}, s.memo.get? c = some e → c ∉ stack → e.settled = true ∧ e.provisional = false

structure Extends (stack : List Call) (s s' : Parse) : Prop where
  settled : ∀ {c e}, s.memo.get? c = some e → e.settled = true → s'.memo.get? c = some e
  pending : ∀ {c e}, c ∈ stack → s.memo.get? c = some e → ∃ e', s'.memo.get? c = some e' ∧ e.Marked e'

namespace Extends

variable {stack : List Call} {s s₁ s₂ : Parse}

theorem refl (stack : List Call) (s : Parse) : Extends stack s s :=
  ⟨fun found _ => found, fun _ found => ⟨_, found, .refl _⟩⟩

theorem of_memo (memo : s₁.memo = s.memo) : Extends stack s s₁ := by
  refine ⟨fun found _ => ?_, fun _ found => ⟨_, ?_, .refl _⟩⟩
  · rw [memo]
    exact found
  · rw [memo]
    exact found

theorem trans (first : Extends stack s s₁) (second : Extends stack s₁ s₂) : Extends stack s s₂ := by
  refine ⟨fun found settled => second.settled (first.settled found settled) settled, ?_⟩
  intro c e member found
  obtain ⟨e₁, found₁, marked⟩ := first.pending member found
  obtain ⟨e₂, found₂, later⟩ := second.pending member found₁
  exact ⟨e₂, found₂, marked.trans later⟩

theorem of_cons {c : Call} (extends' : Extends (c :: stack) s s₁) : Extends stack s s₁ :=
  ⟨extends'.settled, fun member => extends'.pending (List.mem_cons_of_mem _ member)⟩

end Extends

namespace Coherent

variable {p : TypedGrammar} {input : Input} {stack : List Call} {s : Parse} {c : Call}

theorem congr {t : Parse} (coherent : Coherent p input stack s) (memo : t.memo = s.memo)
    (same : t.stack = s.stack) : Coherent p input stack t := by
  obtain ⟨stackEq, ordered, proper, derived, pending, settled⟩ := coherent
  exact ⟨same.trans stackEq, memo ▸ ordered, memo ▸ proper, memo ▸ derived, memo ▸ pending, memo ▸ settled⟩

theorem exists_suffix {stack : List Call} (member : c ∈ stack) : ∃ below, (c :: below) <:+ stack := by
  obtain ⟨above, below, split⟩ := List.append_of_mem member
  exact ⟨below, above, split.symm⟩

theorem found_of_mem (coherent : Coherent p input stack s) (member : c ∈ stack) :
    ∃ e, s.memo.get? c = some e ∧ e.settled = false := by
  obtain ⟨below, suffix⟩ := exists_suffix member
  obtain ⟨e, found, unsettled, _⟩ := coherent.pending suffix
  exact ⟨e, found, unsettled⟩

theorem unsettled_of_mem (coherent : Coherent p input stack s) {e : Entry} (member : c ∈ stack)
    (found : s.memo.get? c = some e) : e.settled = false := by
  obtain ⟨e', found', unsettled⟩ := coherent.found_of_mem member
  rw [found] at found'
  cases found'
  exact unsettled

theorem not_mem_of_settled (coherent : Coherent p input stack s) {e : Entry} (found : s.memo.get? c = some e)
    (settled : e.settled = true) : c ∉ stack := by
  intro member
  rw [coherent.unsettled_of_mem member found] at settled
  cases settled

theorem depth_eq (coherent : Coherent p input stack s) {e : Entry} (found : s.memo.get? c = some e)
    {above below : List Call} (split : stack = above ++ c :: below) : e.depth = below.length := by
  obtain ⟨e', found', _, depth⟩ := coherent.pending ⟨above, split.symm⟩
  rw [found] at found'
  cases found'
  exact depth

theorem not_mem_of_fresh (coherent : Coherent p input stack s) (fresh : s.memo.get? c = none) :
    c ∉ stack := by
  intro member
  obtain ⟨e, found, _⟩ := coherent.found_of_mem member
  rw [fresh] at found
  cases found

theorem mem_of_unsettled (coherent : Coherent p input stack s) {e : Entry}
    (found : s.memo.get? c = some e) (unsettled : e.settled = false) : c ∈ stack := by
  by_contra outside
  have := (coherent.settled found outside).1
  rw [unsettled] at this
  cases this

theorem initial (events : List Event) : Coherent p input [] { events } where
  calls := rfl
  ordered := .nil
  proper := by simp [Memo.get?]
  derived := by simp [Memo.get?]
  pending := by simp
  settled := by simp [Memo.get?]

theorem enter (coherent : Coherent p input stack s) (fresh : s.memo.get? c = none) :
    Coherent p input (c :: stack) (s.enter c) := by
  have outside := coherent.not_mem_of_fresh fresh
  refine ⟨?_, coherent.ordered.insert fresh, ?_, ?_, ?_, ?_⟩
  · simp [Parse.enter, coherent.calls]
  · intro d e found
    rw [Parse.get?_enter fresh] at found
    split at found
    · cases found
      exact Failures.proper_none
    · exact coherent.proper found
  · intro d e v stop found result
    rw [Parse.get?_enter fresh] at found
    split at found
    · cases found
      cases result
    · exact coherent.derived found result
  · intro d below suffix
    rw [Parse.get?_enter fresh]
    rcases List.suffix_cons_iff.mp suffix with same | suffix
    · cases same
      exact ⟨_, if_pos rfl, rfl, by simp [coherent.calls]⟩
    · have other : d ≠ c := fun same => outside (same ▸ suffix.subset List.mem_cons_self)
      rw [if_neg other]
      exact coherent.pending suffix
  · intro d e found outsideAll
    rw [List.mem_cons, not_or] at outsideAll
    rw [Parse.get?_enter fresh, if_neg outsideAll.1] at found
    exact coherent.settled found outsideAll.2

theorem extends_enter (fresh : s.memo.get? c = none) :
    Extends stack s (s.enter c) := by
  have other : ∀ {d e}, s.memo.get? d = some e → d ≠ c := by
    intro d e found same
    rw [same, fresh] at found
    cases found
  refine ⟨fun found _ => ?_, fun _ found => ⟨_, ?_, .refl _⟩⟩
  · rw [Parse.get?_enter fresh, if_neg (other found)]
    exact found
  · rw [Parse.get?_enter fresh, if_neg (other found)]
    exact found

theorem mark (coherent : Coherent p input stack s) {s' : Parse} {f : Call → Entry → Entry}
    (same : s'.stack = s.stack) (ordered : s'.memo.Ordered)
    (view : ∀ d, s'.memo.get? d = (s.memo.get? d).map (f d)) (marked : ∀ d (e : Entry), e.Marked (f d e))
    (rest : ∀ d e, d ∉ stack → f d e = e) :
    Coherent p input stack s' ∧ Extends stack s s' := by
  have source : ∀ {d e'}, s'.memo.get? d = some e' → ∃ e, s.memo.get? d = some e ∧ f d e = e' := by
    intro d e' found
    rw [view] at found
    exact Option.map_eq_some_iff.mp found
  refine ⟨⟨same.trans coherent.calls, ordered, ?_, ?_, ?_, ?_⟩, ?_, ?_⟩
  · intro d e' after
    obtain ⟨e, found, rfl⟩ := source after
    obtain ⟨r, q, marks⟩ := marked d e
    rw [marks]
    have proper := coherent.proper found
    exact proper
  · intro d e' v stop after result
    obtain ⟨e, found, rfl⟩ := source after
    obtain ⟨r, q, marks⟩ := marked d e
    rw [marks] at result
    exact coherent.derived found result
  · intro d below suffix
    obtain ⟨e, found, unsettled, depth⟩ := coherent.pending suffix
    obtain ⟨r, q, marks⟩ := marked d e
    refine ⟨f d e, by rw [view, found]; rfl, ?_, ?_⟩
    · rw [marks]
      exact unsettled
    · rw [marks]
      exact depth
  · intro d e' after outside
    obtain ⟨e, found, rfl⟩ := source after
    rw [rest d e outside]
    exact coherent.settled found outside
  · intro d e found settled
    rw [view, found, Option.map_some, rest d e (coherent.not_mem_of_settled found settled)]
  · intro d e _ found
    exact ⟨f d e, by rw [view, found]; rfl, marked d e⟩

theorem plantSeed (coherent : Coherent p input (c :: stack) s) (outside : c ∉ stack) {v : Value} {stop : Int}
    (derives : p.Derives input (.expr (.reference c.rule)) c.start [v] stop) :
    Coherent p input (c :: stack) (s.plantSeed c v stop) ∧ Extends stack s (s.plantSeed c v stop) := by
  obtain ⟨e, found, unsettled, depth⟩ := coherent.pending (List.suffix_refl _)
  -- The entry of the call changes in its result and its rounds only, and no other entry does.
  have here : (s.plantSeed c v stop).memo.get? c =
      some { e with result := some (v, stop), rounds := e.rounds + 1 } := by
    rw [Parse.get?_plantSeed, if_pos rfl, found]
    rfl
  have others : ∀ {d}, d ≠ c → (s.plantSeed c v stop).memo.get? d = s.memo.get? d := by
    intro d other
    rw [Parse.get?_plantSeed, if_neg other]
  refine ⟨⟨coherent.calls, coherent.ordered.modify fun _ => rfl, ?_, ?_, ?_, ?_⟩, ?_, ?_⟩
  · intro d e' found'
    by_cases same : d = c
    · rw [same, here] at found'
      cases found'
      have proper := coherent.proper found
      exact proper
    · rw [others same] at found'
      exact coherent.proper found'
  · intro d e' w end' found' result
    by_cases same : d = c
    · rw [same, here] at found'
      cases found'
      cases result
      rw [same]
      exact derives
    · rw [others same] at found'
      exact coherent.derived found' result
  · intro d below suffix
    rcases List.suffix_cons_iff.mp suffix with same | suffix
    · cases same
      exact ⟨_, here, unsettled, depth⟩
    · have other : d ≠ c := fun same => outside (same ▸ suffix.subset List.mem_cons_self)
      rw [others other]
      exact coherent.pending (suffix.trans (List.suffix_cons _ _))
  · intro d e' found' outsideAll
    have other : d ≠ c := fun same => outsideAll (same ▸ List.mem_cons_self)
    rw [others other] at found'
    exact coherent.settled found' outsideAll
  · intro d e' found' settled
    have other : d ≠ c := by
      intro same
      subst same
      rw [found] at found'
      cases found'
      rw [settled] at unsettled
      cases unsettled
    rw [others other]
    exact found'
  · intro d e' member found'
    have other : d ≠ c := fun same => outside (same ▸ member)
    exact ⟨e', by rw [others other]; exact found', .refl _⟩

theorem conclude (coherent : Coherent p input (c :: stack) s) (outside : c ∉ stack) (saved : Failures)
    {result : Result} (proper : s.failures.Proper)
    (derives : ∀ v stop, result = some (v, stop) →
      p.Derives input (.expr (.reference c.rule)) c.start [v] stop) :
    Coherent p input stack ((s.leave c saved).remember c result) ∧
      Extends stack s ((s.leave c saved).remember c result) := by
  obtain ⟨e, found, unsettled, depth⟩ := coherent.pending (List.suffix_refl _)
  have view := Parse.get?_conclude saved result coherent.ordered found
  have others : ∀ {d}, d ≠ c → ((s.leave c saved).remember c result).memo.get? d = s.memo.get? d := by
    intro d other
    rw [view, if_neg other]
  have here : ∀ {e'}, ((s.leave c saved).remember c result).memo.get? c = some e' →
      e.provisional = false ∧ e' = { e with failures := s.failures, result, settled := true } := by
    intro e' found'
    rw [view, if_pos rfl] at found'
    split at found'
    · cases found'
    · next complete => exact ⟨Bool.eq_false_iff.mpr complete, (Option.some.inj found').symm⟩
  -- In every field there is something new to show for the call itself, and for no other.
  refine ⟨⟨?_, Parse.ordered_conclude coherent.ordered, ?_, ?_, ?_, ?_⟩, ?_, ?_⟩
  · rw [Parse.stack_conclude, coherent.calls]
    rfl
  · intro d e' found'
    by_cases same : d = c
    · rw [same] at found'
      obtain ⟨_, rfl⟩ := here found'
      exact proper
    · rw [others same] at found'
      exact coherent.proper found'
  · intro d e' v stop found' known
    by_cases same : d = c
    · rw [same] at found' ⊢
      obtain ⟨_, rfl⟩ := here found'
      exact derives v stop known
    · rw [others same] at found'
      exact coherent.derived found' known
  · intro d below suffix
    have other : d ≠ c := fun same => outside (same ▸ suffix.subset List.mem_cons_self)
    rw [others other]
    exact coherent.pending (suffix.trans (List.suffix_cons _ _))
  · intro d e' found' outsideRest
    by_cases same : d = c
    · rw [same] at found'
      obtain ⟨complete, rfl⟩ := here found'
      exact ⟨rfl, complete⟩
    · rw [others same] at found'
      exact coherent.settled found' (by simp [same, outsideRest])
  · intro d e' found' settled
    have other : d ≠ c := by
      intro same
      subst same
      rw [found] at found'
      cases found'
      rw [settled] at unsettled
      cases unsettled
    rw [others other]
    exact found'
  · intro d e' member found'
    have other : d ≠ c := fun same => outside (same ▸ member)
    exact ⟨e', by rw [others other]; exact found', .refl _⟩

theorem mem_of_mem_callsAbove (coherent : Coherent p input stack s) {depth : Nat}
    (above : c ∈ s.callsAbove depth) : c ∈ stack := by
  rw [← coherent.calls]
  exact List.mem_of_mem_take above

theorem answered (coherent : Coherent p input stack s) {e : Entry} (found : s.memo.get? c = some e) :
    Coherent p input stack (s.answered e) ∧ Extends stack s (s.answered e) := by
  cases settled : e.settled with
  | true =>
    have same : s.answered e = { s with failures := s.failures.merge e.failures } := if_pos settled
    rw [same]
    exact ⟨coherent.congr rfl rfl, .of_memo rfl⟩
  | false =>
    refine coherent.mark (Parse.stack_answered e) (Parse.ordered_answered e coherent.ordered)
      (fun d => Parse.get?_answered settled) (fun d e' => ⟨_, _, rfl⟩) fun d e' outside => ?_
    have other : d ≠ e.call := by
      rw [Memo.call_of_get? found]
      intro same
      subst same
      exact outside (coherent.mem_of_unsettled found settled)
    have below : d ∉ s.callsAbove e.depth := fun above => outside (coherent.mem_of_mem_callsAbove above)
    simp [other, below]

end Coherent

end Packrat
