import Packrat.Proofs.Parse.Lasting
import Packrat.Proofs.Parse.Order

namespace Packrat

open Relation

namespace Parse

structure Tidy (s : Parse) : Prop where
  single : (s.memo.map Entry.call).Nodup
  noted : ∀ c ∈ s.stack, ∃ e ∈ s.memo, e.call = c
  pending : ∀ e ∈ s.memo, e.settled = false ↔ e.call ∈ s.stack
  depth : ∀ e ∈ s.memo, ∀ k, s.stack.reverse[k]? = some e.call → e.depth = k
  distinct : s.stack.Nodup
  rising : s.stack.reverse.Pairwise fun outer inner => outer.start ≤ inner.start
  sure : ∀ e ∈ s.memo, e.settled = true → e.provisional = false

/-- What a call does to the books: it settles calls that were not known of, and marks calls that are still being
evaluated. All else stays as it was. -/
structure Settles (s s' : Parse) : Prop where
  stack : s'.stack = s.stack
  kept : ∀ e ∈ s.memo, e.settled = true → e ∈ s'.memo
  marked : ∀ e ∈ s.memo, e.settled = false → ∃ e' ∈ s'.memo, e.Marked e'
  added : ∀ e' ∈ s'.memo, (∀ e ∈ s.memo, e.call ≠ e'.call) → e'.settled = true

end Parse

theorem Call.pairwise_start {g : Grammar} {stack : List Call} (chain : stack.IsChain (Follows g)) :
    stack.Pairwise fun inner outer => outer.start ≤ inner.start := by
  induction stack with
  | nil => exact .nil
  | cons c below ih => exact .cons (fun _ member => start_le_of_mem chain member) (ih chain.tail)

theorem Call.split_of_place {stack : List Call} {k : Nat} {c : Call} (place : stack.reverse[k]? = some c) :
    ∃ above below, stack = above ++ c :: below ∧ below.length = k := by
  obtain ⟨bound, rfl⟩ := List.getElem?_eq_some_iff.mp place
  refine ⟨(stack.reverse.drop (k + 1)).reverse, (stack.reverse.take k).reverse, ?_, ?_⟩
  · have split := (List.take_append_drop k stack.reverse).symm
    rw [List.drop_eq_getElem_cons bound] at split
    simpa using congrArg List.reverse split
  · rw [List.length_reverse, List.length_take]
    omega

namespace Coherent

variable {p : TypedGrammar} {input : Input} {stack : List Call} {s s' : Parse}

theorem tidy (coherent : Coherent p input stack s) (chain : stack.IsChain (Call.Follows p.grammar))
    (nodup : stack.Nodup) : s.Tidy := by
  obtain rfl := coherent.calls
  have found : ∀ {e}, e ∈ s.memo → s.memo.get? e.call = some e := Memo.get?_of_mem coherent.ordered
  refine ⟨?_, ?_, ?_, ?_, nodup, List.pairwise_reverse.mpr (Call.pairwise_start chain), ?_⟩
  · exact List.pairwise_map.mpr (coherent.ordered.imp And.right)
  · intro c member
    obtain ⟨e, here, _⟩ := coherent.found_of_mem member
    exact ⟨e, Memo.mem_of_get? here, Memo.call_of_get? here⟩
  · intro e member
    exact ⟨coherent.mem_of_unsettled (found member), fun onStack => coherent.unsettled_of_mem onStack (found member)⟩
  · intro e member k place
    obtain ⟨above, below, split, length⟩ := Call.split_of_place place
    exact (coherent.depth_eq (found member) split).trans length
  · intro e member settled
    exact (coherent.settled (found member) (coherent.not_mem_of_settled (found member) settled)).2

theorem settles (before : Coherent p input stack s) (after : Coherent p input stack s') (later : Extends stack s s') :
    s.Settles s' := by
  have found : ∀ {e}, e ∈ s.memo → s.memo.get? e.call = some e := Memo.get?_of_mem before.ordered
  refine ⟨after.calls.trans before.calls.symm, ?_, ?_, ?_⟩
  · intro e member settled
    exact Memo.mem_of_get? (later.settled (found member) settled)
  · intro e member unsettled
    obtain ⟨e', here, marked⟩ := later.pending (before.mem_of_unsettled (found member) unsettled) (found member)
    exact ⟨e', Memo.mem_of_get? here, marked⟩
  · intro e' member unknown
    refine (after.settled (Memo.get?_of_mem after.ordered member) fun onStack => ?_).1
    obtain ⟨e, here, _⟩ := before.found_of_mem onStack
    exact unknown e (Memo.mem_of_get? here) (Memo.call_of_get? here)

end Coherent

namespace Sound

variable {p : TypedGrammar} {input : Input} {lo : Int} {stack : List Call} {m : Moment} {s' : Parse}

theorem tidy (sound : Sound p input lo stack m) : m.state.Tidy :=
  sound.coherent.tidy sound.standing.chain sound.standing.nodup

theorem tidy_run (faithful : p.Faithful) (sound : Sound p input lo stack m) (finishes : p.Finishes input m s') :
    s'.Tidy :=
  (sound.lasting_run faithful ((Invariant.top p input).lasting faithful) trivial finishes).1.tidy
    sound.standing.chain sound.standing.nodup

theorem settles_run (faithful : p.Faithful) (sound : Sound p input lo stack m) {name : String}
    (work : m.work = .call name) (finishes : p.Finishes input m s') : m.state.Settles s' := by
  obtain ⟨depth, w, i, s⟩ := m
  obtain rfl : w = .call name := work
  obtain ⟨o, run, ended⟩ := finishes
  obtain ⟨o', run, ended⟩ := Run.of_single run ended
  have tracks := sound.tracks_call (TypedGrammar.answering faithful input lo) trivial s
  have twins : ∀ {s' t'}, Twin p input s stack s' t' → Coherent p input stack s' ∧ Extends stack s s' :=
    fun twin => ⟨twin.coherent, twin.later⟩
  obtain ⟨after, later⟩ := (tracks s s sound.twin sound.proper sound.proper).lasting
    (I := fun s' => Coherent p input stack s' ∧ Extends stack s s') twins run ended
  exact sound.coherent.settles after later

end Sound

theorem Run.single_eq {w : Run Value} {room : Room} {s s' : Parse} {o : Outcome Value} (run : w room s = (o, s'))
    (ended : ∀ h, o ≠ .halted h) : ∃ o', w.single room s = (o', s') ∧ ∀ h, o' ≠ .halted h := by
  unfold Run.single Run.andThen
  rw [run]
  cases o with
  | matched v stop => exact ⟨_, rfl, nofun⟩
  | failed => exact ⟨_, rfl, nofun⟩
  | halted h => exact absurd rfl (ended h)

namespace TypedGrammar

variable {p : TypedGrammar} {input : Input} {s : Parse} {name : String} {i : Int}

/-- The books are in order before and after each call that comes to an end, and before and after whatever work such a
call leads to. Calls only ever settle what was not known of. -/
theorem keeps_books {actions : List (String × Action)}
    (accepted : Typing.typedRules p.grammar actions = .ok p.typedRules) (reached : Completed p input s) :
    (∀ room o s', p.apply input name i room s = (o, s') → (∀ h, o ≠ .halted h) → s'.Tidy ∧ s.Settles s') ∧
    ∀ m, ReflTransGen (p.Leads input) (p.opening input name i s) m →
      m.state.Tidy ∧ ∀ s', p.Finishes input m s' →
        s'.Tidy ∧ ∀ called, m.work = .call called → m.state.Settles s' := by
  have faithful : p.Faithful := faithful_of_typedRules accepted
  obtain ⟨coherent, proper⟩ := reached.coherent faithful
  have inside : ∀ m, ReflTransGen (p.Leads input) (p.opening input name i s) m →
      m.state.Tidy ∧ ∀ s', p.Finishes input m s' →
        s'.Tidy ∧ ∀ called, m.work = .call called → m.state.Settles s' := by
    intro m leads
    obtain ⟨stack, sound⟩ := (sound_opening coherent proper).steps faithful leads
    exact ⟨sound.tidy, fun s' finishes =>
      ⟨sound.tidy_run faithful finishes, fun called work => sound.settles_run faithful work finishes⟩⟩
  refine ⟨?_, inside⟩
  intro room o s' run ended
  have finishes : p.Finishes input (p.opening input name i s) s' :=
    Run.single_eq ((steady_apply name i).run_unlimited run ended) ended
  obtain ⟨tidy, settles⟩ := (inside _ .refl).2 s' finishes
  exact ⟨tidy, settles name rfl⟩

theorem crossed_books : ∃ (p : TypedGrammar) (input : Input) (v : Value) (s : Parse),
    Typing.typedRules p.grammar [] = .ok p.typedRules ∧ Completed p input {} ∧
    p.apply input "A" 0 .unlimited {} = (.matched v 3, s) ∧ s.memo.map Entry.call = [⟨0, "A"⟩] ∧
    s.Tidy ∧ ({} : Parse).Settles s := by
  have runs : ∃ rules o s, Typing.typedRules Parser.crossed [] = .ok rules ∧
      (⟨Parser.crossed, rules⟩ : TypedGrammar).apply (.text #['a', 'y', 'x']) "A" 0 .unlimited {} = (o, s) ∧
      Parser.stop? o = some 3 ∧ s.memo.map Entry.call = [⟨0, "A"⟩] := by
    exact ⟨_, _, _, rfl, Prod.mk.eta.symm, by decide +kernel, by decide +kernel⟩
  obtain ⟨rules, o, s, accepted, run, matched, settled⟩ := runs
  obtain ⟨v, rfl⟩ : ∃ v, o = .matched v 3 := by
    cases o <;> cases matched
    exact ⟨_, rfl⟩
  have fresh : Completed ⟨Parser.crossed, rules⟩ (.text #['a', 'y', 'x']) {} := .fresh []
  obtain ⟨tidy, settles⟩ := (keeps_books accepted fresh).1 .unlimited _ s run nofun
  exact ⟨_, _, v, s, accepted, fresh, run, settled, tidy, settles⟩

end TypedGrammar

end Packrat
