import Packrat.Proofs.Lexer.Table
import Packrat.Proofs.Lexer.Tokens

namespace Packrat

namespace Pattern.Scope

def FirstMatch (scope : Scope) (index : Nat) (t : TokenRule) (w : List Char) : Prop :=
  scope.tokens[index]? = some t ∧ Matches scope t.pattern w ∧
    ∀ i < index, ∀ u, scope.tokens[i]? = some u → ¬ Matches scope u.pattern w

end Pattern.Scope

open Pattern

namespace Pattern.Assembled

variable {scope : Scope} {root index length : Nat} {m : Automaton} {w rest : List Char}

section

variable (assembled : Assembled scope root scope.tokens m)
include assembled

theorem mem_accepted : (∃ i ∈ (LexState.closure m [root]).run m w, (m.state i).accept = some index) ↔
    ∃ t, scope.tokens[index]? = some t ∧ Matches scope t.pattern w := by
  have inside : ∀ i ∈ [root], i < m.size := List.forall_mem_singleton.mpr assembled.inside
  rw [← assembled.accepts, Automaton.mem_between]
  refine exists_congr fun i => ?_
  rw [LexState.mem_run assembled.sound inside, mem_accepting, and_comm]
  simp

theorem accepted_eq_some_iff :
    ((LexState.closure m [root]).run m w).accepted m = some index ↔ ∃ t, scope.FirstMatch index t w := by
  rw [LexState.accepted, List.min?_eq_some_iff]
  simp only [List.mem_filterMap, ← LexState.mem_def, assembled.mem_accepted]
  constructor
  · rintro ⟨⟨t, listed, inside⟩, least⟩
    refine ⟨t, listed, inside, fun i lt u there held => ?_⟩
    exact Nat.not_le_of_lt lt (least i ⟨u, there, held⟩)
  · rintro ⟨t, listed, inside, first⟩
    refine ⟨⟨t, listed, inside⟩, fun i other => Nat.le_of_not_lt fun lt => ?_⟩
    obtain ⟨u, there, held⟩ := other
    exact first i lt u there held

theorem accepted_eq_none_iff : ((LexState.closure m [root]).run m w).accepted m = none ↔
    ∀ t ∈ scope.tokens, ¬ Matches scope t.pattern w := by
  rw [LexState.accepted, List.min?_eq_none_iff, List.eq_nil_iff_forall_not_mem]
  simp only [List.mem_filterMap, ← LexState.mem_def, assembled.mem_accepted]
  constructor
  · intro none t listed inside
    obtain ⟨index, here⟩ := List.mem_iff_getElem?.mp listed
    exact none index ⟨t, here, inside⟩
  · rintro none index ⟨t, here, inside⟩
    exact none t (List.mem_of_getElem? here) inside

theorem silent_iff : (LexState.closure m [root]).Silent m rest ↔
    ∀ j ≤ rest.length, 0 < j → ∀ t ∈ scope.tokens, ¬ Matches scope t.pattern (rest.take j) := by
  constructor
  · intro silent j within _
    exact assembled.accepted_eq_none_iff.mp (silent j within)
  · intro nothing j within
    apply assembled.accepted_eq_none_iff.mpr
    cases j with
    | zero => exact fun t listed => assembled.consumes t listed
    | succ j => exact nothing (j + 1) within (Nat.succ_pos j)

theorem acceptsLast_iff : (LexState.closure m [root]).AcceptsLast m rest length index ↔
    length ≤ rest.length ∧ (∃ t, scope.FirstMatch index t (rest.take length)) ∧
      ∀ j ≤ rest.length, length < j → ∀ t ∈ scope.tokens, ¬ Matches scope t.pattern (rest.take j) := by
  constructor
  · intro last
    refine ⟨last.within, assembled.accepted_eq_some_iff.mp last.here, fun j within longer => ?_⟩
    exact assembled.accepted_eq_none_iff.mp (last.behind j within longer)
  · rintro ⟨within, here, longer⟩
    refine ⟨within, assembled.accepted_eq_some_iff.mpr here, fun j inside behind => ?_⟩
    exact assembled.accepted_eq_none_iff.mpr (longer j inside behind)

end

end Pattern.Assembled

namespace TokenSet

variable {tokens : List TokenRule} {rules : List String} {state : Option String} {set : TokenSet} {t : TokenRule}
  {rest : List Char} {length : Nat}

theorem exists_automaton (compiled : Reporting.Gives (ofTokens tokens rules state) set) : set.tokens = tokens ∧
    ∃ root m, Assembled ⟨tokens, rules⟩ root tokens m ∧ set.table = .ofAutomaton root m := by
  obtain ⟨⟨root, m⟩, lifted, further⟩ := compiled.of_bind
  obtain ⟨_, _, done⟩ := further.of_bind
  cases done.of_pure
  exact ⟨rfl, root, m, assembled_automaton lifted.of_lift, rfl⟩

theorem not_matches_nil (compiled : Reporting.Gives (ofTokens tokens rules state) set) (listed : t ∈ tokens) :
    ¬ Matches ⟨tokens, rules⟩ t.pattern [] := by
  obtain ⟨_, root, m, assembled, _⟩ := exists_automaton compiled
  exact assembled.consumes t listed

theorem longestMatch_eq {root : Nat} {m : Automaton} {done : List TokenRule} {scope : Pattern.Scope}
    (assembled : Assembled scope root done m) :
    LexTable.longestMatch (.ofAutomaton root m) rest = (LexState.closure m [root]).munch m 0 none rest :=
  LexTable.scan_eq_munch assembled.sound assembled.inside (LexState.reached_zero root m)

theorem next_eq_some_iff (compiled : Reporting.Gives (ofTokens tokens rules state) set) :
    set.next rest = some (t, length) ↔ length ≤ rest.length ∧
      (∃ index, Scope.FirstMatch ⟨tokens, rules⟩ index t (rest.take length)) ∧
      ∀ j ≤ rest.length, length < j → ∀ u ∈ tokens, ¬ Matches ⟨tokens, rules⟩ u.pattern (rest.take j) := by
  obtain ⟨same, root, m, assembled, table⟩ := exists_automaton compiled
  have steps : set.next rest = some (t, length) ↔
      ∃ index, (LexState.closure m [root]).munch m 0 none rest = some (index, length) ∧ tokens[index]? = some t := by
    unfold next
    rw [table, longestMatch_eq assembled, same]
    simp only [Option.bind_eq_bind, Option.bind_eq_some_iff]
    grind
  rw [steps]
  simp only [LexState.munch_eq_some_iff, assembled.acceptsLast_iff]
  constructor
  · rintro ⟨index, last, here⟩
    obtain ⟨k, total, within, ⟨u, first⟩, longer⟩ := last.resolve_right (by simp)
    rw [Nat.zero_add] at total
    subst total
    have same : u = t := Option.some.inj (first.1.symm.trans here)
    exact ⟨within, ⟨index, same ▸ first⟩, longer⟩
  · rintro ⟨within, ⟨index, first⟩, longer⟩
    exact ⟨index, .inl ⟨length, (Nat.zero_add _).symm, within, ⟨t, first⟩, longer⟩, first.1⟩

theorem next_eq_none_iff (compiled : Reporting.Gives (ofTokens tokens rules state) set) : set.next rest = none ↔
    ∀ j ≤ rest.length, 0 < j → ∀ u ∈ tokens, ¬ Matches ⟨tokens, rules⟩ u.pattern (rest.take j) := by
  obtain ⟨same, root, m, assembled, table⟩ := exists_automaton compiled
  have found : set.table.longestMatch rest = _ := table ▸ longestMatch_eq assembled
  rw [← assembled.silent_iff]
  constructor
  · intro nothing
    cases last : (LexState.closure m [root]).munch m 0 none rest with
    | none => exact (LexState.munch_eq_none_iff.mp last).1
    | some best =>
      obtain ⟨index, length⟩ := best
      obtain ⟨k, _, accepts⟩ := (LexState.munch_eq_some_iff.mp last).resolve_right (by simp)
      obtain ⟨_, ⟨t, first⟩, _⟩ := assembled.acceptsLast_iff.mp accepts
      have here : set.tokens[index]? = some t := same ▸ first.1
      simp [next, found, last, here] at nothing
  · intro silent
    have nothing : (LexState.closure m [root]).munch m 0 none rest = none :=
      LexState.munch_eq_none_iff.mpr ⟨silent, rfl⟩
    simp [next, found, nothing]

end TokenSet

namespace Lexer

def slice (text : String) (start stop : Nat) : List Char := (text.toList.take stop).drop start

variable {tokens : List TokenRule} {rules : List String} {state : Option String} {set : TokenSet}

theorem slice_add (text : String) (offset length : Nat) :
    slice text offset (offset + length) = (text.toList.drop offset).take length := by
  rw [slice, List.drop_take, Nat.add_sub_cancel_left]

theorem forall_slice_iff (P : List Char → Prop) (text : String) (offset length : Nat) :
    (∀ later, offset + length < later → later ≤ text.length → P (slice text offset later)) ↔
      ∀ j ≤ (text.toList.drop offset).length, length < j → P ((text.toList.drop offset).take j) := by
  rw [List.length_drop, String.length_toList]
  constructor
  · intro each j within more
    rw [← slice_add]
    exact each (offset + j) (by omega) (by omega)
  · intro each later after within
    obtain ⟨j, rfl⟩ := Nat.exists_eq_add_of_le (show offset ≤ later by omega)
    rw [slice_add]
    exact each j (by omega) (by omega)

theorem next_eq (lexer : Lexer) (text : String) (offset : Nat) : lexer.next text offset =
    .ok ((lexer.main.next (text.toList.drop offset)).map fun found => (found.1, (offset : Int) + found.2)) := by
  unfold next
  rw [readFrom_of_nonneg _ (Int.natCast_nonneg offset)]
  rfl

/-- A lexer finds the longest match at an offset, and of the tokens that match as much the first; it finds nothing
exactly where no token matches any of what is left. -/
theorem next_longest (compiled : Reporting.Gives (TokenSet.ofTokens tokens rules state) set)
    (states : List (String × TokenSet)) (text : String) (offset : Nat) :
    (∀ (t : TokenRule) (e : Int), Lexer.next ⟨set, states⟩ text offset = .ok (some (t, e)) ↔
      ∃ stop : Nat, e = stop ∧ offset ≤ stop ∧ stop ≤ text.length ∧
        (∃ index, Scope.FirstMatch ⟨tokens, rules⟩ index t (slice text offset stop)) ∧
        ∀ later, stop < later → later ≤ text.length →
          ∀ u ∈ tokens, ¬ Matches ⟨tokens, rules⟩ u.pattern (slice text offset later)) ∧
    (Lexer.next ⟨set, states⟩ text offset = .ok none ↔
      ∀ stop, offset < stop → stop ≤ text.length →
        ∀ u ∈ tokens, ¬ Matches ⟨tokens, rules⟩ u.pattern (slice text offset stop)) := by
  have behind_iff := forall_slice_iff (fun w => ∀ u ∈ tokens, ¬ Matches ⟨tokens, rules⟩ u.pattern w) text offset
  simp only [next_eq, Except.ok.injEq, Option.map_eq_some_iff, Option.map_eq_none_iff]
  constructor
  · intro t e
    constructor
    · rintro ⟨⟨u, length⟩, found, same⟩
      cases same
      obtain ⟨within, first, longer⟩ := (TokenSet.next_eq_some_iff compiled).mp found
      -- A match is not empty, so the offset lies inside the text.
      have taken : length ≠ 0 := by
        rintro rfl
        obtain ⟨_, here, matched, _⟩ := first
        exact TokenSet.not_matches_nil compiled (List.mem_of_getElem? here) matched
      rw [List.length_drop, String.length_toList] at within
      exact ⟨offset + length, rfl, by omega, by omega, slice_add text offset length ▸ first,
        (behind_iff length).mpr longer⟩
    · rintro ⟨stop, same, behind, within, first, longer⟩
      obtain ⟨length, rfl⟩ := Nat.exists_eq_add_of_le behind
      have inside : length ≤ (text.toList.drop offset).length := by
        rw [List.length_drop, String.length_toList]
        omega
      rw [slice_add] at first
      have found := (TokenSet.next_eq_some_iff compiled).mpr
        ⟨inside, first, (behind_iff length).mp longer⟩
      exact ⟨(t, length), found, same ▸ rfl⟩
  · rw [TokenSet.next_eq_none_iff compiled]
    exact (behind_iff 0).symm

theorem separated_lowercase : Span.Separated [⟨97, 123⟩] := ⟨by decide, by simp⟩

def letters : List TokenRule := [
  { name := "letter", pattern := .oneOf ⟨[⟨97, 123⟩], false, separated_lowercase⟩ },
  { name := "word", pattern := .repetition true (.reference "letter") }]

theorem letters_longest : ∃ set, Reporting.Gives (TokenSet.ofTokens letters [] none) set ∧
    ∃ letter word, letters = [letter, word] ∧
      (∃ index, Scope.FirstMatch ⟨letters, []⟩ index letter (slice "a bc" 0 1)) ∧
      (∃ index, Scope.FirstMatch ⟨letters, []⟩ index word (slice "a bc" 2 4)) ∧
      ∀ stop, 1 < stop → stop ≤ 4 → ∀ u ∈ letters, ¬ Matches ⟨letters, []⟩ u.pattern (slice "a bc" 1 stop) := by
  have found : ∃ set, Reporting.Gives (TokenSet.ofTokens letters [] none) set ∧
      ∃ letter word, letters = [letter, word] ∧ Lexer.next ⟨set, []⟩ "a bc" 0 = .ok (some (letter, 1)) ∧
        Lexer.next ⟨set, []⟩ "a bc" 2 = .ok (some (word, 4)) ∧ Lexer.next ⟨set, []⟩ "a bc" 1 = .ok none :=
    ⟨_, ⟨[], _, rfl⟩, _, _, rfl, rfl, rfl, rfl⟩
  obtain ⟨set, compiled, letter, word, all, first, longer, nothing⟩ := found
  obtain ⟨_, ended, _, _, here, _⟩ := ((next_longest compiled [] "a bc" 0).1 letter 1).mp first
  obtain ⟨_, ended', _, _, there, _⟩ := ((next_longest compiled [] "a bc" 2).1 word 4).mp longer
  rw [← Int.natCast_inj.mp ended] at here
  rw [← Int.natCast_inj.mp ended'] at there
  exact ⟨set, compiled, letter, word, all, here, there, (next_longest compiled [] "a bc" 1).2.mp nothing⟩

end Lexer

end Packrat
