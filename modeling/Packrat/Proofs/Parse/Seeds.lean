import Packrat.Proofs.Parse.Termination
import Packrat.Proofs.Parse.Walk

namespace Packrat

open Relation

namespace Memo

variable {m : Memo} {f g : Entry → Entry} {c : Call}

theorem get?_map (same : ∀ e, (f e).call = e.call) : get? (m.map f) c = (get? m c).map f := by
  induction m with
  | nil => rfl
  | cons e rest ih =>
    simp only [List.map_cons, get?, same, ih]
    split
    · rfl
    · split <;> rfl

theorem map_insert (same : ∀ e, (f e).call = e.call) (entry : Entry) :
    (m.insert entry).map f = insert (f entry) (m.map f) := by
  induction m with
  | nil => rfl
  | cons e rest ih =>
    simp only [List.map_cons, insert, same]
    split
    · rfl
    · rw [List.map_cons, ih]

theorem map_modify (same : ∀ e, (f e).call = e.call) (swap : ∀ e, e.call = c → f (g e) = g (f e)) :
    (m.modify c g).map f = modify c g (m.map f) := by
  induction m with
  | nil => rfl
  | cons e rest ih =>
    simp only [List.map_cons, modify, same]
    split
    · next here => rw [List.map_cons, swap e here]
    · rw [List.map_cons, ih]

theorem map_erase (same : ∀ e, (f e).call = e.call) : (m.erase c).map f = erase c (m.map f) := by
  induction m with
  | nil => rfl
  | cons e rest ih =>
    simp only [List.map_cons, erase, same]
    split
    · rfl
    · rw [List.map_cons, ih]

end Memo

def Entry.reseeded (base : List Call) (seeds : Call → Result) (e : Entry) : Entry :=
  if e.call ∈ base then { e with result := seeds e.call } else e

namespace Entry

variable {base : List Call} {seeds : Call → Result}

theorem call_reseeded (e : Entry) : (e.reseeded base seeds).call = e.call := by
  unfold reseeded
  split <;> rfl

theorem reseeded_of_not_mem {e : Entry} (outside : e.call ∉ base) : e.reseeded base seeds = e := if_neg outside

end Entry

namespace Parse

def reseeded (base : List Call) (seeds : Call → Result) (s : Parse) : Parse :=
  { s with memo := s.memo.map (Entry.reseeded base seeds) }

variable {base : List Call} {seeds : Call → Result} {s : Parse} {c d : Call}

theorem get?_reseeded :
    (s.reseeded base seeds).memo.get? c = (s.memo.get? c).map (Entry.reseeded base seeds) :=
  Memo.get?_map Entry.call_reseeded

theorem get?_reseeded_of_not_mem (outside : c ∉ base) :
    (s.reseeded base seeds).memo.get? c = s.memo.get? c := by
  rw [get?_reseeded]
  cases found : s.memo.get? c with
  | none => rfl
  | some e =>
    have call := Memo.call_of_get? found
    exact congrArg some (Entry.reseeded_of_not_mem (call ▸ outside))

theorem reseeded_modifyEntry {g : Entry → Entry}
    (swap : ∀ e : Entry, e.call = c → (g e).reseeded base seeds = g (e.reseeded base seeds)) :
    (s.modifyEntry c g).reseeded base seeds = (s.reseeded base seeds).modifyEntry c g := by
  simp only [reseeded, modifyEntry, Memo.map_modify Entry.call_reseeded swap]

theorem reseeded_makeProvisional (calls : List Call) :
    (s.makeProvisional calls).reseeded base seeds = (s.reseeded base seeds).makeProvisional calls := by
  unfold makeProvisional
  induction calls generalizing s with
  | nil => rfl
  | cons c calls ih =>
    rw [List.foldl_cons, List.foldl_cons, ih, reseeded_modifyEntry]
    intro e _
    unfold Entry.reseeded
    split <;> rfl

theorem reseeded_answered (e : Entry) :
    (s.answered e).reseeded base seeds = (s.reseeded base seeds).answered e := by
  unfold answered
  split
  · rfl
  · rw [reseeded_makeProvisional, reseeded_modifyEntry]
    · rfl
    · intro e _
      unfold Entry.reseeded
      split <;> rfl

theorem reseeded_enter (outside : c ∉ base) :
    (s.enter c).reseeded base seeds = (s.reseeded base seeds).enter c := by
  have entered : ({ call := c, depth := s.stack.length } : Entry).reseeded base seeds =
      { call := c, depth := s.stack.length } := Entry.reseeded_of_not_mem outside
  simp only [reseeded, enter, Memo.map_insert Entry.call_reseeded, entered]

theorem reseeded_plantSeed (outside : c ∉ base) (v : Value) (stop : Int) :
    (s.plantSeed c v stop).reseeded base seeds = (s.reseeded base seeds).plantSeed c v stop := by
  unfold plantSeed
  rw [reseeded_modifyEntry]
  intro e here
  have outside : e.call ∉ base := here ▸ outside
  rw [Entry.reseeded_of_not_mem outside]
  exact Entry.reseeded_of_not_mem outside

theorem isReentered_reseeded (outside : c ∉ base) : (s.reseeded base seeds).isReentered c = s.isReentered c := by
  unfold isReentered
  rw [get?_reseeded_of_not_mem outside]

theorem reseeded_reportGrowth (outside : c ∉ base) (stop : Int) :
    (s.reportGrowth c stop).reseeded base seeds = (s.reseeded base seeds).reportGrowth c stop := by
  unfold reportGrowth
  rw [get?_reseeded_of_not_mem outside]
  rfl

theorem reseeded_leave (saved : Failures) :
    (s.leave c saved).reseeded base seeds = (s.reseeded base seeds).leave c saved := by
  have entry : (s.modifyEntry c fun e => { e with failures := s.failures }).reseeded base seeds =
      (s.reseeded base seeds).modifyEntry c fun e => { e with failures := s.failures } := by
    refine reseeded_modifyEntry fun e _ => ?_
    unfold Entry.reseeded
    split <;> rfl
  exact congrArg (fun u : Parse => { u with stack := s.stack.tail, failures := saved.merge s.failures }) entry

theorem reseeded_remember (outside : c ∉ base) (result : Result) :
    (s.remember c result).reseeded base seeds = (s.reseeded base seeds).remember c result := by
  unfold remember
  rw [get?_reseeded_of_not_mem outside]
  split
  · split
    · simp only [reseeded, Memo.map_erase Entry.call_reseeded]
    · refine reseeded_modifyEntry fun e here => ?_
      have outside : e.call ∉ base := here ▸ outside
      rw [Entry.reseeded_of_not_mem outside]
      exact Entry.reseeded_of_not_mem outside
  · rfl

def Provisional (c : Call) (s : Parse) : Prop := ∃ e, s.memo.get? c = some e ∧ e.provisional = true

theorem get?_leave (saved : Failures) (other : c ≠ d) : (s.leave d saved).memo.get? c = s.memo.get? c := by
  rw [memo_leave, get?_modifyEntry, if_neg other]
  exact fun _ => rfl

theorem get?_remember (ordered : s.memo.Ordered) (result : Result) (other : c ≠ d) :
    (s.remember d result).memo.get? c = s.memo.get? c := by
  unfold remember
  split
  · split
    · dsimp only
      rw [Memo.get?_erase ordered, if_neg other]
    · rw [get?_modifyEntry, if_neg other]
      exact fun _ => rfl
  · rfl

theorem ordered_remember (ordered : s.memo.Ordered) (result : Result) : (s.remember d result).memo.Ordered := by
  unfold remember
  split
  · split
    · exact ordered.erase d
    · exact ordered.modify fun _ => rfl
  · exact ordered

theorem stack_remember (result : Result) : (s.remember d result).stack = s.stack := by
  unfold remember
  split
  · split <;> rfl
  · rfl

theorem Provisional.congr {s' : Parse} (marked : s.Provisional c) (same : s'.memo.get? c = s.memo.get? c) :
    s'.Provisional c := by
  obtain ⟨e, found, marked⟩ := marked
  exact ⟨e, same.trans found, marked⟩

end Parse

/-- A state inside a call that was entered right above these calls, while their seeds are on record. -/
structure Above (base : List Call) (c : Call) (s : Parse) : Prop where
  ordered : s.memo.Ordered
  stands : ∃ inner, s.stack = inner ++ c :: base
  outside : c ∉ base
  recorded : ∃ e, s.memo.get? c = some e ∧ e.settled = false
  held : ∀ d ∈ base, ∃ e, s.memo.get? d = some e ∧ e.settled = false ∧ e.depth < base.length

namespace Above

variable {base : List Call} {c d : Call} {s s' : Parse}

theorem congr (above : Above base c s) (memo : s'.memo = s.memo) (same : s'.stack = s.stack) : Above base c s' := by
  obtain ⟨ordered, stands, outside, recorded, held⟩ := above
  exact ⟨memo ▸ ordered, same ▸ stands, outside, memo ▸ recorded, memo ▸ held⟩

theorem of_view (above : Above base c s) (ordered : s'.memo.Ordered)
    (stands : ∃ inner, s'.stack = inner ++ c :: base) (view : ∀ d ∈ c :: base, ∀ e, s.memo.get? d = some e →
      ∃ e', s'.memo.get? d = some e' ∧ e'.settled = e.settled ∧ e'.depth = e.depth) : Above base c s' := by
  refine ⟨ordered, stands, above.outside, ?_, fun d member => ?_⟩
  · obtain ⟨e, found, unsettled⟩ := above.recorded
    obtain ⟨e', found', settled, _⟩ := view c List.mem_cons_self e found
    exact ⟨e', found', settled.trans unsettled⟩
  · obtain ⟨e, found, unsettled, deep⟩ := above.held d member
    obtain ⟨e', found', settled, depth⟩ := view d (List.mem_cons_of_mem _ member) e found
    exact ⟨e', found', settled.trans unsettled, depth ▸ deep⟩

theorem fresh_not_mem (above : Above base c s) (fresh : s.memo.get? d = none) : d ∉ c :: base := by
  intro member
  rcases List.mem_cons.mp member with rfl | member
  · obtain ⟨e, found, _⟩ := above.recorded
    rw [fresh] at found
    cases found
  · obtain ⟨e, found, _⟩ := above.held d member
    rw [fresh] at found
    cases found

theorem mem_callsAbove (above : Above base c s) {depth : Nat} (deep : depth < base.length) :
    c ∈ s.callsAbove depth := by
  obtain ⟨inner, stands⟩ := above.stands
  unfold Parse.callsAbove
  have length : s.stack.length = inner.length + (base.length + 1) := by
    rw [stands, List.length_append, List.length_cons]
  rw [List.mem_take_iff_getElem]
  refine ⟨inner.length, by omega, ?_⟩
  simp [stands]

theorem answered (above : Above base c s) (e : Entry) : Above base c (s.answered e) := by
  cases settled : e.settled with
  | true => exact above.congr (Parse.memo_answered settled) (Parse.stack_answered e)
  | false =>
    refine above.of_view (Parse.ordered_answered e above.ordered) ?_ fun d _ e' found => ?_
    · rw [Parse.stack_answered]
      exact above.stands
    · rw [Parse.get?_answered settled, found]
      exact ⟨_, rfl, rfl, rfl⟩

theorem enter (above : Above base c s) (fresh : s.memo.get? d = none) : Above base c (s.enter d) := by
  obtain ⟨inner, stands⟩ := above.stands
  refine above.of_view (above.ordered.insert fresh) ⟨d :: inner, by simp [Parse.enter, stands]⟩ ?_
  intro d' member e found
  have other : d' ≠ d := fun same => above.fresh_not_mem fresh (same ▸ member)
  exact ⟨e, by rw [Parse.get?_enter fresh, if_neg other, found], rfl, rfl⟩

theorem plantSeed (above : Above base c s) (v : Value) (stop : Int) : Above base c (s.plantSeed d v stop) := by
  refine above.of_view (above.ordered.modify fun _ => rfl) above.stands fun d' _ e found => ?_
  rw [Parse.get?_plantSeed]
  split
  · next here =>
    rw [← here, found]
    exact ⟨_, rfl, rfl, rfl⟩
  · exact ⟨e, found, rfl, rfl⟩

theorem leave (above : Above base c s) {saved : Failures} (stands : ∃ inner, s.stack.tail = inner ++ c :: base) :
    Above base c (s.leave d saved) := by
  refine above.of_view (above.ordered.modify fun _ => rfl) stands fun d' _ e found => ?_
  rw [Parse.memo_leave, Parse.get?_modifyEntry]
  · split
    · next here =>
      rw [← here, found]
      exact ⟨_, rfl, rfl, rfl⟩
    · exact ⟨e, found, rfl, rfl⟩
  · exact fun _ => rfl

theorem remember (above : Above base c s) (outside : d ∉ c :: base) (result : Result) :
    Above base c (s.remember d result) := by
  refine above.of_view (Parse.ordered_remember above.ordered result) ?_ fun d' member e found => ?_
  · rw [Parse.stack_remember]
    exact above.stands
  · have other : d' ≠ d := fun same => outside (same ▸ member)
    exact ⟨e, by rw [Parse.get?_remember above.ordered result other, found], rfl, rfl⟩

end Above

structure Onward (base : List Call) (c : Call) (s s' : Parse) : Prop where
  above : Above base c s'
  calls : s'.stack = s.stack
  marked : s.Provisional c → s'.Provisional c

namespace Onward

variable {base : List Call} {c d : Call} {s s₁ s₂ : Parse}

theorem of_memo (above : Above base c s) (memo : s₁.memo = s.memo) (same : s₁.stack = s.stack) :
    Onward base c s s₁ := by
  exact ⟨above.congr memo same, same, fun marked => marked.congr (by rw [memo])⟩

theorem refl (above : Above base c s) : Onward base c s s := of_memo above rfl rfl

theorem trans (first : Onward base c s s₁) (second : Onward base c s₁ s₂) : Onward base c s s₂ :=
  ⟨second.above, second.calls.trans first.calls, fun marked => second.marked (first.marked marked)⟩

theorem answered (above : Above base c s) (e : Entry) : Onward base c s (s.answered e) := by
  refine ⟨above.answered e, Parse.stack_answered e, fun ⟨e', found, marked⟩ => ?_⟩
  cases settled : e.settled with
  | true => exact ⟨e', by rw [Parse.memo_answered settled, found], marked⟩
  | false =>
    refine ⟨_, by rw [Parse.get?_answered settled, found]; rfl, ?_⟩
    simp only [marked, Bool.true_or]

theorem plantSeed (above : Above base c s) (v : Value) (stop : Int) : Onward base c s (s.plantSeed d v stop) := by
  refine ⟨above.plantSeed v stop, rfl, fun ⟨e, found, marked⟩ => ?_⟩
  unfold Parse.Provisional
  rw [Parse.get?_plantSeed]
  split
  · next here =>
    rw [← here, found]
    exact ⟨_, rfl, marked⟩
  · exact ⟨e, found, marked⟩

theorem conclude (above : Above base c s) (fresh : s.memo.get? d = none) (inside : Onward base c (s.enter d) s₁)
    (saved : Failures) : Onward base c s (s₁.leave d saved) ∧
      ∀ result, Onward base c s ((s₁.leave d saved).remember d result) := by
  have outside := above.fresh_not_mem fresh
  have other : c ≠ d := fun same => outside (same ▸ List.mem_cons_self)
  have stack : s₁.stack.tail = s.stack := by
    rw [inside.calls]
    rfl
  have left : Above base c (s₁.leave d saved) := inside.above.leave (stack ▸ above.stands)
  have marked : s.Provisional c → (s₁.leave d saved).Provisional c := fun before =>
    (inside.marked (before.congr (by rw [Parse.get?_enter fresh, if_neg other]))).congr (Parse.get?_leave saved other)
  refine ⟨⟨left, stack, marked⟩, fun result => ⟨left.remember outside result, ?_, fun before => ?_⟩⟩
  · rw [Parse.stack_conclude, stack]
  · exact (marked before).congr (Parse.get?_remember left.ordered result other)

end Onward

/-- Inside a call, the work makes the call provisional, or else it does the same whichever seeds the calls
further out have. -/
def Run.Indifferent (base : List Call) (seeds : Call → Result) (c : Call) (α : Type) (m : Run α) : Prop :=
  ∀ room s, Above base c s → Onward base c s (m room s).2 ∧ ((m room s).2.Provisional c ∨
    m room (s.reseeded base seeds) = ((m room s).1, (m room s).2.reseeded base seeds))

namespace Run

variable {base : List Call} {seeds : Call → Result} {c d : Call} {α β : Type}

namespace Indifferent

theorem of_const {m : Run α} (o : Outcome α) (f : Parse → Parse) (run : ∀ room s, m room s = (o, f s))
    (memo : ∀ s, (f s).memo = s.memo) (same : ∀ s, (f s).stack = s.stack)
    (swap : ∀ s : Parse, f (s.reseeded base seeds) = (f s).reseeded base seeds) :
    m.Indifferent base seeds c α := by
  intro room s above
  rw [run, run]
  exact ⟨.of_memo above (memo s) (same s), .inr (by rw [swap])⟩

theorem nested {m : Run α} (levels : Nat) (work : m.Indifferent base seeds c α) :
    (Run.nested levels m).Indifferent base seeds c α := by
  intro room s above
  unfold Run.nested
  cases room.take? levels with
  | none => exact ⟨.refl above, .inr rfl⟩
  | some left => exact work left s above

theorem split {m : Run α} {matched : α → Int → Run β} {failed : Run β} (first : m.Indifferent base seeds c α)
    (second : ∀ a stop, (matched a stop).Indifferent base seeds c β) (other : failed.Indifferent base seeds c β) :
    (m.split matched failed).Indifferent base seeds c β := by
  intro room s above
  obtain ⟨onward, same⟩ := first room s above
  -- Once the call is provisional it stays so, whatever comes next.
  have next : ∀ {n : Run β} {s₁}, Onward base c s s₁ → n.Indifferent base seeds c β → Onward base c s (n room s₁).2 ∧
      (s₁.Provisional c → (n room s₁).2.Provisional c) ∧ ((n room s₁).2.Provisional c ∨
        n room (s₁.reseeded base seeds) = ((n room s₁).1, (n room s₁).2.reseeded base seeds)) := by
    intro n s₁ onward later
    obtain ⟨onward', same'⟩ := later room s₁ onward.above
    exact ⟨onward.trans onward', onward'.marked, same'⟩
  cases run : m room s with
  | mk o s₁ =>
    rw [run] at onward same
    cases o with
    | halted h =>
      rw [split_of_halted run]
      exact ⟨onward, same.imp_right split_of_halted⟩
    | failed =>
      rw [split_of_failed run]
      obtain ⟨onward', marked, same'⟩ := next onward other
      refine ⟨onward', same.elim (fun before => .inl (marked before)) fun same => ?_⟩
      rw [split_of_failed same]
      exact same'
    | matched a stop =>
      rw [split_of_matched run]
      obtain ⟨onward', marked, same'⟩ := next onward (second a stop)
      refine ⟨onward', same.elim (fun before => .inl (marked before)) fun same => ?_⟩
      rw [split_of_matched same]
      exact same'

theorem afresh {m : Run α} (work : m.Indifferent base seeds c α) {room : Room} {s s₁ : Parse} {o : Outcome α}
    (above : Above base c s) (run : m room { s with failures := {} } = (o, s₁)) : Onward base c s s₁ ∧
      (s₁.Provisional c ∨ m room { s.reseeded base seeds with failures := {} } = (o, s₁.reseeded base seeds)) := by
  have start : Onward base c s { s with failures := {} } := .of_memo above rfl rfl
  obtain ⟨onward, same⟩ := work room _ start.above
  rw [run] at onward same
  exact ⟨start.trans onward, same⟩

theorem negate {m : Run Value} (index : Int) (what : String) (work : m.Indifferent base seeds c Value) :
    (Run.negate m index what).Indifferent base seeds c Value := by
  intro room s above
  cases run : m room { s with failures := {} } with
  | mk o s₁ =>
    obtain ⟨onward, same⟩ := work.afresh above run
    have after : ∀ failures, Onward base c s { s₁ with failures } :=
      fun failures => onward.trans (.of_memo onward.above rfl rfl)
    cases o with
    | halted h =>
      refine ⟨by simpa only [Run.negate, run] using onward, ?_⟩
      exact same.imp (by simp only [Run.negate, run, imp_self]) fun same => by simp only [Run.negate, run, same]
    | failed =>
      refine ⟨by simpa only [Run.negate, run] using after _, ?_⟩
      exact same.imp (by simp only [Run.negate, run]; exact id) fun same => by simp only [Run.negate, run, same]; rfl
    | matched v stop =>
      refine ⟨by simpa only [Run.negate, run, Run.fail] using after _, ?_⟩
      exact same.imp (by simp only [Run.negate, run]; exact id) fun same => by simp only [Run.negate, run, same]; rfl

theorem named {m : Run Value} (name : String) (index : Int) (work : m.Indifferent base seeds c Value) :
    (Run.named name index m).Indifferent base seeds c Value := by
  intro room s above
  cases run : m room { s with failures := {} } with
  | mk o s₁ =>
    obtain ⟨onward, same⟩ := work.afresh above run
    have after : ∀ failures, Onward base c s { s₁ with failures } :=
      fun failures => onward.trans (.of_memo onward.above rfl rfl)
    cases o with
    | halted h =>
      refine ⟨by simpa only [Run.named, run] using onward, ?_⟩
      exact same.imp (by simp only [Run.named, run, imp_self]) fun same => by simp only [Run.named, run, same]
    | failed =>
      refine ⟨by simpa only [Run.named, run] using after _, ?_⟩
      exact same.imp (by simp only [Run.named, run]; exact id) fun same => by simp only [Run.named, run, same]; rfl
    | matched v stop =>
      refine ⟨by simpa only [Run.named, run] using after _, ?_⟩
      exact same.imp (by simp only [Run.named, run]; exact id) fun same => by simp only [Run.named, run, same]; rfl

theorem finish (q : TypedProduction) (start : Int) (values : List Value) (stop : Int) :
    (TypedGrammar.finish q start values stop).Indifferent base seeds c Value := by
  intro room s above
  unfold TypedGrammar.finish inRoomFor
  split
  · dsimp only
    split <;> exact ⟨.of_memo above rfl rfl, .inr rfl⟩
  · exact ⟨.refl above, .inr rfl⟩

theorem kept : Run.Kept (Run.Indifferent base seeds c) where
  done _ _ := of_const _ id (fun _ _ => rfl) (fun _ => rfl) (fun _ => rfl) fun _ => rfl
  noMatch := of_const _ id (fun _ _ => rfl) (fun _ => rfl) (fun _ => rfl) fun _ => rfl
  halt _ := of_const _ id (fun _ _ => rfl) (fun _ => rfl) (fun _ => rfl) fun _ => rfl
  fail index what := of_const _ (fun s => { s with failures := s.failures.fail index what }) (fun _ _ => rfl)
    (fun _ => rfl) (fun _ => rfl) fun _ => rfl
  finish := finish
  nested levels work := nested levels work
  split first second other := split first second other
  negate index what work := negate index what work
  named name index work := named name index work

theorem growFrom {body : Run Value} (work : body.Indifferent base seeds c Value) (outside : d ∉ base) (rounds : Nat)
    (v : Value) (stop : Int) : (growFrom body d rounds v stop).Indifferent base seeds c Value := by
  induction rounds generalizing v stop with
  | zero => exact kept.halt _
  | succ rounds ih =>
    intro room s above
    have planted : Onward base c s (s.plantSeed d v stop) := .plantSeed above v stop
    obtain ⟨onward, same⟩ := work room _ planted.above
    rw [Parse.reseeded_plantSeed outside] at same
    cases run : body room (s.plantSeed d v stop) with
    | mk o s₁ =>
      rw [run] at onward same
      have further := planted.trans onward
      have reported : Onward base c s (s₁.reportGrowth d stop) := further.trans (.of_memo onward.above rfl rfl)
      simp only [Packrat.growFrom, run]
      cases o with
      | halted h => exact ⟨further, same.imp_right fun same => by simp only [same]⟩
      | failed =>
        refine ⟨reported, same.imp_right fun same => ?_⟩
        simp only [same, Parse.reseeded_reportGrowth outside]
      | matched v' stop' =>
        dsimp only
        split
        · next shorter =>
          refine ⟨reported, same.imp_right fun same => ?_⟩
          simp only [same, if_pos shorter, Parse.reseeded_reportGrowth outside]
        · next longer =>
          obtain ⟨onward', same'⟩ := ih v' stop' room s₁ onward.above
          refine ⟨further.trans onward', ?_⟩
          rcases same with marked | same
          · exact .inl (onward'.marked marked)
          · simpa only [same, if_neg longer] using same'

theorem settle {body : Run Value} (work : body.Indifferent base seeds c Value) (outside : d ∉ base) (size : Nat)
    (v : Value) (stop : Int) : (settle body d size v stop).Indifferent base seeds c Value := by
  intro room s above
  simp only [Packrat.settle, Parse.isReentered_reseeded outside]
  split
  · exact nested 1 (growFrom work outside _ v stop) room s above
  · exact kept.done v stop room s above

theorem evaluateCall {body : Run Value} (work : body.Indifferent base seeds c Value) (size : Nat) {room : Room}
    {s : Parse} (above : Above base c s) (fresh : s.memo.get? d = none) :
    Onward base c s (evaluateCall body d size room s).2 ∧ ((evaluateCall body d size room s).2.Provisional c ∨
      evaluateCall body d size room (s.reseeded base seeds) =
        ((evaluateCall body d size room s).1, (evaluateCall body d size room s).2.reseeded base seeds)) := by
  have outside : d ∉ base := fun member => above.fresh_not_mem fresh (List.mem_cons_of_mem _ member)
  have whole := kept.andThen work fun v stop => settle work outside size v stop
  obtain ⟨onward, same⟩ := whole room _ (above.enter fresh)
  rw [Parse.reseeded_enter outside] at same
  by_cases fits : room.holds 2
  · have other : c ≠ d := fun same => above.fresh_not_mem fresh (same ▸ List.mem_cons_self)
    obtain ⟨left, remembered⟩ := Onward.conclude above fresh onward s.failures
    cases run : body.andThen (Packrat.settle body d size) room (s.enter d) with
    | mk o s₁ =>
      rw [run] at same left remembered
      rcases Outcome.halted_or_result o with ⟨h, rfl⟩ | ⟨result, rfl⟩
      · rw [evaluateCall_of_halted fits run]
        refine ⟨left, same.imp (fun marked => marked.congr (Parse.get?_leave _ other)) fun same => ?_⟩
        rw [evaluateCall_of_halted fits same, Parse.reseeded_leave]
        rfl
      · rw [evaluateCall_of_result fits run]
        refine ⟨remembered result, same.imp (fun marked => ?_) fun same => ?_⟩
        · exact (marked.congr (Parse.get?_leave _ other)).congr (Parse.get?_remember left.above.ordered result other)
        · rw [evaluateCall_of_result fits same, Parse.reseeded_remember outside, Parse.reseeded_leave]
          rfl
  · have stopped : ∀ u, Packrat.evaluateCall body d size room u = (.halted .nestedTooDeeply, u) := fun u => by
      simp only [Packrat.evaluateCall, inRoomFor, if_neg fits]
    rw [stopped, stopped]
    exact ⟨.refl above, .inr rfl⟩

theorem lookup {evaluation : Run Value}
    (fresh : ∀ {room s}, Above base c s → s.memo.get? d = none → Onward base c s (evaluation room s).2 ∧
      ((evaluation room s).2.Provisional c ∨ evaluation room (s.reseeded base seeds) =
        ((evaluation room s).1, (evaluation room s).2.reseeded base seeds))) :
    Run.Indifferent base seeds c Value fun room s =>
      match s.memo.get? d with
      | some entry => Parse.reuse entry room s
      | none => evaluation room s := by
  intro room s above
  cases found : s.memo.get? d with
  | none =>
    have outside : d ∉ base := fun member => above.fresh_not_mem found (List.mem_cons_of_mem _ member)
    simp only [Parse.get?_reseeded_of_not_mem outside, found]
    exact fresh above found
  | some e =>
    simp only [found, reuse_eq]
    refine ⟨.answered above e, ?_⟩
    by_cases member : d ∈ base
    · obtain ⟨e', found', unsettled, deep⟩ := above.held d member
      rw [found] at found'
      cases found'
      obtain ⟨e₁, recorded, _⟩ := above.recorded
      refine .inl ⟨_, by rw [Parse.get?_answered unsettled, recorded]; rfl, ?_⟩
      simp only [above.mem_callsAbove deep, decide_true, Bool.or_true]
    · rw [Parse.get?_reseeded_of_not_mem member, found]
      exact .inr (by rw [Parse.reseeded_answered])

theorem callWithin (p : TypedGrammar) (input : Input) (depth : Nat) (name : String) (i : Int) :
    (p.callWithin input depth name i).Indifferent base seeds c Value := by
  have unknown : ∀ {h : Halt} {s}, Above base c s → Onward base c s s ∧ (s.Provisional c ∨
      ((Outcome.halted h, s.reseeded base seeds) : Outcome Value × Parse) = (.halted h, s.reseeded base seeds)) :=
    fun above => ⟨.refl above, .inr rfl⟩
  induction depth generalizing name i with
  | zero =>
    unfold TypedGrammar.callWithin
    refine nested 1 (lookup fun above _ => ?_)
    cases p.typed? name with
    | none => exact unknown above
    | some typed => exact unknown above
  | succ depth ih =>
    unfold TypedGrammar.callWithin
    refine nested 1 (lookup fun above found => ?_)
    cases p.typed? name with
    | none => exact unknown above
    | some typed => exact evaluateCall (kept.body ih typed i) input.size above found

end Indifferent

end Run

namespace Parse

def withSeeds (seeds : Call → Result) (s : Parse) : Parse :=
  { s with memo := s.memo.map fun e => if e.settled then e else { e with result := seeds e.call } }

theorem withSeeds_eq_reseeded {p : TypedGrammar} {input : Input} {stack : List Call} {s : Parse}
    (coherent : Coherent p input stack s) (seeds : Call → Result) : s.withSeeds seeds = s.reseeded stack seeds := by
  have same : ∀ e ∈ s.memo, (if e.settled then e else { e with result := seeds e.call }) = e.reseeded stack seeds := by
    intro e listed
    have found := Memo.get?_of_mem coherent.ordered listed
    unfold Entry.reseeded
    by_cases member : e.call ∈ stack
    · simp [coherent.unsettled_of_mem member found, member]
    · simp [(coherent.settled found member).1, member]
  unfold withSeeds reseeded
  rw [List.map_congr_left same]

end Parse

namespace Above

variable {p : TypedGrammar} {input : Input} {stack : List Call} {s : Parse} {c : Call}

theorem of_coherent (coherent : Coherent p input stack s) (fresh : s.memo.get? c = none) :
    Above stack c (s.enter c) := by
  have outside := coherent.not_mem_of_fresh fresh
  refine ⟨coherent.ordered.insert fresh, ⟨[], ?_⟩, outside, ⟨_, by rw [Parse.get?_enter fresh, if_pos rfl], rfl⟩, ?_⟩
  · simp only [Parse.enter, coherent.calls, List.nil_append]
  · intro d member
    obtain ⟨below, suffix⟩ := Coherent.exists_suffix member
    obtain ⟨e, found, unsettled, depth⟩ := coherent.pending suffix
    have other : d ≠ c := fun same => outside (same ▸ member)
    refine ⟨e, by rw [Parse.get?_enter fresh, if_neg other, found], unsettled, ?_⟩
    have length := suffix.length_le
    rw [List.length_cons] at length
    omega

theorem evaluateCall_reseeded {body : Run Value} {seeds : Call → Result} {size : Nat} {room : Room} {e : Entry}
    (work : body.Indifferent stack seeds c Value) (coherent : Coherent p input stack s)
    (fresh : s.memo.get? c = none) (stored : (evaluateCall body c size room s).2.memo.get? c = some e)
    (complete : e.settled = true) : evaluateCall body c size room (s.reseeded stack seeds) =
      ((evaluateCall body c size room s).1, (evaluateCall body c size room s).2.reseeded stack seeds) := by
  have outside := coherent.not_mem_of_fresh fresh
  have whole := Run.Indifferent.kept.andThen work fun v stop => Run.Indifferent.settle work outside size v stop
  obtain ⟨onward, same⟩ := whole room _ (of_coherent coherent fresh)
  rw [Parse.reseeded_enter outside] at same
  by_cases fits : room.holds 2
  · cases run : body.andThen (settle body c size) room (s.enter c) with
    | mk o s₁ =>
      rw [run] at onward same
      obtain ⟨e₁, found₁, unsettled⟩ := onward.above.recorded
      rcases Outcome.halted_or_result o with ⟨h, rfl⟩ | ⟨result, rfl⟩
      · have left : (s₁.leave c s.failures).memo.get? c = some { e₁ with failures := s₁.failures } := by
          rw [Parse.memo_leave, Parse.get?_modifyEntry, if_pos rfl, found₁]
          · rfl
          · exact fun _ => rfl
        rw [evaluateCall_of_halted fits run, left] at stored
        cases stored
        rw [unsettled] at complete
        cases complete
      · rw [evaluateCall_of_result fits run] at stored ⊢
        rw [Parse.get?_conclude _ _ onward.above.ordered found₁, if_pos rfl] at stored
        rcases same with ⟨e₂, found₂, marked⟩ | same
        · rw [found₁] at found₂
          cases found₂
          rw [if_pos marked] at stored
          cases stored
        · rw [evaluateCall_of_result fits same, Parse.reseeded_remember outside, Parse.reseeded_leave]
          rfl
  · simp only [evaluateCall, Run.inRoomFor, if_neg fits, fresh] at stored
    cases stored

end Above

namespace TypedGrammar

variable {p : TypedGrammar} {input : Input} {s : Parse} {name : String} {i : Int}

theorem callWithin_reseeded {stack : List Call} {depth : Nat} {room : Room} {e : Entry} (seeds : Call → Result)
    (coherent : Coherent p input stack s) (fresh : s.memo.get? ⟨i, name⟩ = none)
    (stored : (p.callWithin input depth name i room s).2.memo.get? ⟨i, name⟩ = some e)
    (complete : e.settled = true) : p.callWithin input depth name i room (s.reseeded stack seeds) =
      ((p.callWithin input depth name i room s).1,
        (p.callWithin input depth name i room s).2.reseeded stack seeds) := by
  have freshToo : (s.reseeded stack seeds).memo.get? ⟨i, name⟩ = none := by
    rw [Parse.get?_reseeded_of_not_mem (coherent.not_mem_of_fresh fresh), fresh]
  unfold callWithin Run.nested at stored ⊢
  cases taken : room.take? 1 with
  | none => rfl
  | some left =>
    simp only [taken, fresh, freshToo] at stored ⊢
    cases known : p.typed? name with
    | none => rfl
    | some typed =>
      rw [known] at stored
      cases depth with
      | zero => rfl
      | succ depth =>
        exact Above.evaluateCall_reseeded
          (Run.Indifferent.kept.body (Run.Indifferent.callWithin p input depth) typed i) coherent fresh stored complete

/-- At any moment of a parse, a call that is remembered for good comes to the same result, adds the same
failures and leaves the same entry whichever seeds the calls that are being evaluated have. -/
theorem call_eq_of_settled {actions : List (String × Action)}
    (accepted : Typing.typedRules p.grammar actions = .ok p.typedRules) (reached : Completed p input s)
    {m : Moment} (leads : ReflTransGen (p.Leads input) (p.opening input name i s) m) (seeds : Call → Result)
    {depth : Nat} {rule : String} {j : Int} {room : Room} {e : Entry}
    (fresh : m.state.memo.get? ⟨j, rule⟩ = none)
    (stored : (p.callWithin input depth rule j room m.state).2.memo.get? ⟨j, rule⟩ = some e)
    (complete : e.settled = true) :
    (p.callWithin input depth rule j room (m.state.withSeeds seeds)).1 =
        (p.callWithin input depth rule j room m.state).1 ∧
      (p.callWithin input depth rule j room (m.state.withSeeds seeds)).2.failures =
        (p.callWithin input depth rule j room m.state).2.failures ∧
      (p.callWithin input depth rule j room (m.state.withSeeds seeds)).2.memo.get? ⟨j, rule⟩ = some e := by
  have faithful : p.Faithful := faithful_of_typedRules accepted
  obtain ⟨coherent, proper⟩ := reached.coherent faithful
  obtain ⟨stack, sound⟩ := (sound_opening coherent proper).steps faithful leads
  have outside := sound.coherent.not_mem_of_fresh fresh
  rw [Parse.withSeeds_eq_reseeded sound.coherent,
    callWithin_reseeded seeds sound.coherent fresh stored complete]
  refine ⟨rfl, rfl, ?_⟩
  rw [Parse.get?_reseeded_of_not_mem outside, stored]

def items : TypedGrammar where
  grammar := {
    rules := [⟨"list", [⟨[.reference "list", .literal "x"], none⟩, ⟨[.reference "item"], none⟩], none, true, none, ""⟩,
      ⟨"item", [⟨[.literal "a"], none⟩], none, true, none, ""⟩]
    tokens := []
    states := []
    name := "items"
    distinctRules := by decide
    distinctTokens := Grammar.distinctTokens_nil
    disjoint := by decide
    distinctInStates := Grammar.distinctInStates_nil }
  typedRules := [
    ("item", ⟨"item", .named "str", [⟨[.literal "a"], [true], [], none, .named "str"⟩], none⟩),
    ("list", ⟨"list", .named "str", [⟨[.reference "list", .literal "x"], [true, false], [], none, .named "str"⟩,
      ⟨[.reference "item"], [true], [], none, .named "str"⟩], none⟩)]

theorem eq_failed {α : Type} {r : Outcome α × Parse} (failed : (r.1 matches .failed) = true) : r = (.failed, r.2) := by
  obtain ⟨o, s⟩ := r
  cases o with
  | failed => rfl
  | matched | halted => cases failed

theorem item_eq_of_settled : ∃ m e, Typing.typedRules items.grammar [] = .ok items.typedRules ∧
    Completed items (.text #['a', 'x']) {} ∧
    ReflTransGen (items.Leads (.text #['a', 'x'])) (items.opening (.text #['a', 'x']) "list" 0 {}) m ∧
    m.state.memo.get? ⟨0, "item"⟩ = none ∧
    (items.callWithin (.text #['a', 'x']) 1 "item" 0 .unlimited m.state).2.memo.get? ⟨0, "item"⟩ = some e ∧
    e.settled = true ∧ ∀ seeds : Call → Result,
      (items.callWithin (.text #['a', 'x']) 1 "item" 0 .unlimited (m.state.withSeeds seeds)).1 =
          (items.callWithin (.text #['a', 'x']) 1 "item" 0 .unlimited m.state).1 ∧
        (items.callWithin (.text #['a', 'x']) 1 "item" 0 .unlimited (m.state.withSeeds seeds)).2.failures =
          (items.callWithin (.text #['a', 'x']) 1 "item" 0 .unlimited m.state).2.failures ∧
        (items.callWithin (.text #['a', 'x']) 1 "item" 0 .unlimited (m.state.withSeeds seeds)).2.memo.get? ⟨0, "item"⟩ =
          some e := by
  have leads : ∃ m, ReflTransGen (items.Leads (.text #['a', 'x'])) (items.opening (.text #['a', 'x']) "list" 0 {}) m ∧
      m.state.memo.get? ⟨0, "item"⟩ = none ∧
      ((items.callWithin (.text #['a', 'x']) 1 "item" 0 .unlimited m.state).2.memo.get? ⟨0, "item"⟩).map (·.settled) =
        some true := by
    refine ⟨_, .head (.body rfl rfl) (.head .productions (.single (.nextProduction (eq_failed ?_)))), ?_, ?_⟩
    · decide +kernel
    · decide +kernel
    · decide +kernel
  obtain ⟨m, leads, fresh, stored⟩ := leads
  obtain ⟨e, stored, complete⟩ := Option.map_eq_some_iff.mp stored
  refine ⟨m, e, rfl, .fresh [], leads, fresh, stored, complete, fun seeds => ?_⟩
  have accepted : Typing.typedRules items.grammar [] = .ok items.typedRules := rfl
  exact call_eq_of_settled accepted (.fresh []) leads seeds fresh stored complete

end TypedGrammar

end Packrat
