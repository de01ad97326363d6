import Packrat.Proofs.Parse.Lasting
import Packrat.Proofs.Parser

namespace Packrat

open Relation

variable {p : TypedGrammar} {input : Input} {stack : List Call} {s : Parse} {c : Call} {e : Entry}

theorem Coherent.exists_frames (coherent : Coherent p input stack s)
    (chain : (c :: stack).IsChain (Call.Follows p.grammar)) (found : s.memo.get? c = some e)
    (unsettled : e.settled = false) : ∃ above below, stack = above ++ c :: below ∧ e.depth = below.length ∧
      ∀ d ∈ c :: above, d.start = c.start ∧ TransGen p.grammar.LeftCalls c.rule d.rule ∧
        TransGen p.grammar.LeftCalls d.rule c.rule := by
  have member := coherent.mem_of_unsettled found unsettled
  obtain ⟨above, below, split⟩ := List.append_of_mem member
  have depth := coherent.depth_eq found split
  have itself := Call.reaches_of_mem chain member rfl
  refine ⟨above, below, split, depth, fun d within => ?_⟩
  rcases List.mem_cons.mp within with rfl | within
  · exact ⟨rfl, itself, itself⟩
  · obtain ⟨inner, outer, rfl⟩ := List.append_of_mem within
    have inside : d ∈ stack := by simp [split]
    -- Seen from this call, the one that comes up again is further out.
    have suffix : (d :: (outer ++ c :: below)) <:+ (c :: stack) := ⟨c :: inner, by simp [split]⟩
    have further : c ∈ outer ++ c :: below := by simp
    have chain' := chain.suffix suffix
    have before := Call.start_le_of_mem chain inside
    have behind := Call.start_le_of_mem chain' further
    have same : d.start = c.start := by omega
    exact ⟨same, Call.reaches_of_mem chain' further same.symm, Call.reaches_of_mem chain inside same⟩

namespace Parse

def Marks (g : Grammar) (s : Parse) : Prop :=
  ∀ c e, s.memo.get? c = some e → e.reentered = true ∨ e.provisional = true → TransGen g.LeftCalls c.rule c.rule

variable {g : Grammar} {s' : Parse} {d : Call}

theorem Marks.of_get? (marks : s.Marks g) (view : ∀ d e', s'.memo.get? d = some e' → ∃ e, s.memo.get? d = some e ∧
    e.reentered = e'.reentered ∧ e.provisional = e'.provisional) : s'.Marks g := by
  intro d e' found' marked
  obtain ⟨e, found, reentered, provisional⟩ := view d e' found'
  exact marks d e found (by rwa [reentered, provisional])

theorem callsAbove_of_split {above below : List Call} (calls : s.stack = above ++ c :: below) :
    s.callsAbove below.length = above := by
  unfold callsAbove
  rw [calls, List.length_append, List.length_cons, Nat.add_sub_cancel, List.take_left]

theorem marks_invariant (p : TypedGrammar) (input : Input) : Invariant p input (Marks p.grammar) where
  congr marks same := marks.of_get? fun d e' found' => ⟨e', by rw [← same, found'], rfl, rfl⟩
  enter {_ s c} _ marks fresh := by
    intro d e found marked
    rw [get?_enter fresh] at found
    split at found
    · cases found
      simp at marked
    · exact marks d e found marked
  plantSeed {_ s c v stop} _ marks := marks.of_get? fun d e' found' => by
    rw [get?_plantSeed] at found'
    split at found'
    · next here =>
      obtain ⟨e, found, rfl⟩ := Option.map_eq_some_iff.mp found'
      exact ⟨e, here ▸ found, rfl, rfl⟩
    · exact ⟨e', found', rfl, rfl⟩
  answered {stack s c e} coherent chain marks found := by
    cases settled : e.settled with
    | true => exact marks.of_get? fun d e' found' => ⟨e', by rw [← memo_answered settled, found'], rfl, rfl⟩
    | false =>
      obtain ⟨above, below, split, depth, frames⟩ := coherent.exists_frames chain found settled
      intro d e' found' marked
      rw [get?_answered settled] at found'
      obtain ⟨e₀, found₀, rfl⟩ := Option.map_eq_some_iff.mp found'
      rw [Memo.call_of_get? found, depth, callsAbove_of_split (coherent.calls.trans split)] at marked
      simp only [Bool.or_eq_true, decide_eq_true_eq] at marked
      by_cases within : d ∈ c :: above
      · obtain ⟨_, there, back⟩ := frames d within
        exact back.trans there
      · rw [List.mem_cons, not_or] at within
        exact marks d e₀ found₀ (by simpa [within] using marked)
  conclude {_ s c saved result} coherent marks := by
    obtain ⟨e, found, _⟩ := coherent.found_of_mem List.mem_cons_self
    refine marks.of_get? fun d e' found' => ?_
    rw [get?_conclude saved result coherent.ordered found] at found'
    split at found'
    · next here =>
      split at found'
      · cases found'
      · cases found'
        exact ⟨e, here ▸ found, rfl, rfl⟩
    · exact ⟨e', found', rfl, rfl⟩

end Parse

end Packrat
