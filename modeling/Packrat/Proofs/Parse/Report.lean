import Packrat.Parse.Report
import Packrat.Proofs.Lexer.Tiling
import Packrat.Proofs.Text.Position

namespace Packrat

namespace Token

inductive Row : Int → List Token → Int → Prop where
  | nil {start stop : Int} (order : start ≤ stop) : Row start [] stop
  | cons {start stop : Int} {t : Token} {rest : List Token} (behind : start ≤ t.start) (extent : t.start < t.stop)
    (later : Row t.stop rest stop) : Row start (t :: rest) stop

namespace Row

variable {start stop : Int} {tokens : List Token}

theorem weaken {least : Int} (row : Row start tokens stop) (le : least ≤ start) : Row least tokens stop := by
  cases row with
  | nil order => exact .nil (Int.le_trans le order)
  | cons behind extent later => exact .cons (Int.le_trans le behind) extent later

theorem le (row : Row start tokens stop) : start ≤ stop := by
  induction row with
  | nil order => exact order
  | cons behind extent _ ih => omega

theorem extent (row : Row start tokens stop) : ∀ t ∈ tokens, start ≤ t.start ∧ t.start < t.stop ∧ t.stop ≤ stop := by
  induction row with
  | nil => simp
  | @cons _ _ t _ behind extent later ih =>
    refine List.forall_mem_cons.mpr ⟨⟨behind, extent, later.le⟩, fun u listed => ?_⟩
    have := ih u listed
    omega

theorem ascends (row : Row start tokens stop) : tokens.Pairwise fun t u => t.start < u.start := by
  induction row with
  | nil => exact .nil
  | cons _ extent later ih =>
    refine .cons (fun u listed => ?_) ih
    have := later.extent u listed
    omega

theorem up_to_last (row : Row start tokens stop) : Row start tokens ((tokens.getLast?.map (·.stop)).getD start) := by
  induction row with
  | nil => exact .nil (Int.le_refl _)
  | @cons start _ t rest behind extent _ ih =>
    have last : ((t :: rest).getLast?.map (·.stop)).getD start = (rest.getLast?.map (·.stop)).getD t.stop := by
      rw [List.getLast?_cons]
      cases rest.getLast? <;> rfl
    rw [last]
    exact .cons behind extent ih

end Row

end Token

namespace Lexer

open Reporting

variable {lexer : Lexer} {set : TokenSet} {place : Place} {room : Room} {pos : Nat} {rest : List Char}

def Advances (pos : Nat) (rest : List Char) (stop : Nat) (left : List Char) : Prop :=
  pos < stop ∧ stop + left.length = pos + rest.length

theorem Advances.trans {stop stop' : Nat} {left left' : List Char} (first : Advances pos rest stop left)
    (second : Advances stop left stop' left') : Advances pos rest stop' left' :=
  ⟨Nat.lt_trans first.1 second.1, second.2.trans first.2⟩

theorem advances_matchToken (sound : lexer.Sound) (has : lexer.Has set)
    {run : String → Room → Nat → List Char → Reporting Failure (List Value × Nat × List Char)}
    (runs : ∀ {state room pos rest parts stop left}, Gives (run state room pos rest) (parts, stop, left) →
      Advances pos rest stop left) {m : Match} (gives : Gives (matchToken run place set room pos rest) m) :
    Advances pos rest m.stop m.rest := by
  unfold matchToken at gives
  obtain ⟨left, _, gives⟩ := gives.of_bind
  obtain ⟨_, _, gives⟩ := gives.of_bind
  cases next : set.next rest with
  | none =>
    rw [next] at gives
    exact gives.not_throw.elim
  | some found =>
    obtain ⟨token, length⟩ := found
    have consumed := sound.consumes has next
    have first : Advances pos rest (pos + length) (rest.drop length) := by
      rw [Advances, List.length_drop]
      omega
    rw [next] at gives
    obtain ⟨_, _, gives⟩ := gives.of_bind
    cases enters : token.enter with
    | none =>
      rw [enters] at gives
      obtain ⟨_, _, gives⟩ := gives.of_bind
      rw [gives.of_pure]
      exact first
    | some state =>
      rw [enters] at gives
      obtain ⟨_, _, gives⟩ := gives.of_bind
      obtain ⟨⟨parts, stop, left⟩, inside, gives⟩ := gives.of_bind
      obtain ⟨_, _, gives⟩ := gives.of_bind
      rw [gives.of_pure]
      exact first.trans (runs inside)

theorem advances_runState (sound : lexer.Sound) {fuel : Nat} {parts values : List Value} {state : String} {stop : Nat}
    {left : List Char} (gives : Gives (runState lexer place fuel parts state room pos rest) (values, stop, left)) :
    Advances pos rest stop left := by
  induction fuel generalizing parts state room pos rest values stop left with
  | zero => exact gives.not_throw.elim
  | succ fuel ih =>
    rw [runState] at gives
    obtain ⟨m, matched, gives⟩ := gives.of_bind
    have first := advances_matchToken sound (has_lookup lexer state) ih matched
    split at gives
    · cases gives.of_pure
      exact first
    · exact first.trans (ih gives)

theorem row_tokenizeFrom (sound : lexer.Sound) {lines : List Nat} {fuel index : Nat} {found result : List Token}
    (gives : Gives (lexer.tokenizeFrom room lines fuel index found pos rest) result) :
    ∃ later, result = found.reverse ++ later ∧ Token.Row pos later (pos + rest.length : Nat) := by
  have none : ∀ {pos : Nat} {rest : List Char}, Token.Row pos [] (pos + rest.length : Nat) := .nil (by omega)
  induction fuel generalizing index found pos rest with
  | zero => exact ⟨[], by rw [gives.of_pure, List.append_nil], none⟩
  | succ fuel ih =>
    cases rest with
    | nil => exact ⟨[], by rw [gives.of_pure, List.append_nil], none⟩
    | cons c rest =>
      rw [tokenizeFrom] at gives
      · obtain ⟨m, matched, gives⟩ := gives.of_bind
        obtain ⟨further, within⟩ := advances_matchToken sound (.inl rfl) (advances_runState sound) matched
        -- Behind a match the rest of the text still ends where it did.
        rw [← within]
        split at gives
        · obtain ⟨later, same, row⟩ := ih gives
          exact ⟨later, same, row.weaken (by omega)⟩
        · obtain ⟨later, same, row⟩ := ih gives
          refine ⟨_ :: later, by rw [same, List.reverse_cons, List.append_assoc, List.singleton_append], ?_⟩
          exact .cons (Int.le_refl _) (by dsimp only; omega) row
      · simp

theorem row_tokenize (sound : lexer.Sound) {text : String} {found : List Token}
    (gives : Gives (lexer.tokenize room text) found) : Token.Row 0 found text.length := by
  obtain ⟨later, rfl, row⟩ := row_tokenizeFrom sound gives
  simpa [String.length_toList] using row

end Lexer

namespace Input

variable {found : List Token} {source : Source} {text : String} {i : Nat}

theorem offsetAt_of_lt (within : i < found.length) : (tokens found.toArray).offsetAt source i = found[i].start := by
  simp [offsetAt, within]

theorem offsetAt_of_le (behind : found.length ≤ i) :
    (tokens found.toArray).offsetAt source i = (tokens found.toArray).offsetAt source found.length := by
  simp [offsetAt, behind]

theorem row_offsetAt (row : Token.Row 0 found text.length) (known : source = none ∨ source = some text.toList) :
    Token.Row 0 found ((tokens found.toArray).offsetAt source found.length) := by
  rcases known with rfl | rfl
  · simpa [offsetAt] using row.up_to_last
  · simpa [offsetAt, String.length_toList] using row

theorem offsetAt_ascends (row : Token.Row 0 found text.length) (known : source = none ∨ source = some text.toList) :
    (∀ i j, i < j → j < found.length →
      (tokens found.toArray).offsetAt source i < (tokens found.toArray).offsetAt source j) ∧
    ∀ i j, i ≤ j → found.length ≤ j →
      (tokens found.toArray).offsetAt source i ≤ (tokens found.toArray).offsetAt source j := by
  refine ⟨fun i j order within => ?_, fun i j order behind => ?_⟩
  · rw [offsetAt_of_lt within, offsetAt_of_lt (Nat.lt_trans order within)]
    exact List.pairwise_iff_getElem.mp row.ascends i j _ within order
  · rw [offsetAt_of_le behind]
    by_cases within : i < found.length
    · have extent := (row_offsetAt row known).extent _ (List.getElem_mem within)
      rw [offsetAt_of_lt within]
      omega
    · rw [offsetAt_of_le (Nat.le_of_not_lt within)]

theorem offsetAt_end_le (row : Token.Row 0 found text.length) (known : source = none ∨ source = some text.toList) :
    (tokens found.toArray).offsetAt source found.length ≤ text.length := by
  rcases known with rfl | rfl
  · cases last : found.getLast? with
    | none => simp [offsetAt, last]
    | some t =>
      have := row.extent t (List.mem_of_getLast? last)
      simp only [offsetAt, List.getElem?_toArray, List.getElem?_length, List.back?_toArray, last,
        Option.map_some, Option.getD_some]
      omega
  · simp [offsetAt, String.length_toList]

theorem offsetAt_within (row : Token.Row 0 found text.length)
    (known : source = none ∨ source = some text.toList) (i : Nat) :
    ∃ place ≤ text.length, (tokens found.toArray).offsetAt source i = (place : Nat) := by
  have whole := row_offsetAt row known
  have last := offsetAt_end_le row known
  have bounds : 0 ≤ (tokens found.toArray).offsetAt source i ∧
    (tokens found.toArray).offsetAt source i ≤ text.length := by
    by_cases within : i < found.length
    · have := whole.extent _ (List.getElem_mem within)
      rw [offsetAt_of_lt within]
      omega
    · rw [offsetAt_of_le (Nat.le_of_not_lt within)]
      exact ⟨whole.le, last⟩
  exact ⟨((tokens found.toArray).offsetAt source i).toNat, by omega, by omega⟩

end Input

open Reporting Position

/-- The position of an offset says where it is: by a line and a column that follow the text, that ascend with the
offset, and from which it can be told. The offsets of the tokens of a text ascend with their indices, up to the end. -/
theorem positions_tell_offsets (text : String) :
    (∀ index : Int, ∀ offset ≤ text.length, (located text index offset).At text offset ∧
      offsetOf text (located text index offset).line (located text index offset).column = offset) ∧
    (∀ index index' : Int, ∀ offset other : Nat, offset < other → other ≤ text.length →
      (located text index offset).Precedes (located text index' other)) ∧
    (∀ index index' : Int, ∀ offset ≤ text.length, ∀ other ≤ text.length, offset ≠ other →
      ((located text index offset).line, (located text index offset).column) ≠
        ((located text index' other).line, (located text index' other).column)) ∧
    ∀ tokens rules states lexer, Gives (Lexer.ofTokens tokens rules states) lexer → ∀ set, lexer.Has set →
      ∀ room found, Gives (Lexer.tokenize ⟨set, lexer.states⟩ room text) found →
        ∀ source, source = none ∨ source = some text.toList →
          (∀ i j, i < j → j < found.length → ((Input.tokens found.toArray).position source i).offset <
            ((Input.tokens found.toArray).position source j).offset) ∧
          (∀ i j, i ≤ j → found.length ≤ j → ((Input.tokens found.toArray).position source i).offset ≤
            ((Input.tokens found.toArray).position source j).offset) ∧
          (source = some text.toList → ∀ i, ∃ offset ≤ text.length,
            ((Input.tokens found.toArray).position source i).At text offset) := by
  refine ⟨fun index offset within => ?_, fun index index' offset other order within => ?_,
    fun index index' offset within other inside apart same => ?_, ?_⟩
  · have here := at_located index within
    exact ⟨here, here.offsetOf_eq within⟩
  · exact (at_located index (by omega)).precedes (at_located index' within) order within
  · exact apart ((at_located index within).eq_of_place (at_located index' inside) within inside same)
  · intro tokens rules states lexer compiled set has room found gives source known
    have row := Lexer.row_tokenize ((Lexer.sound_of_ofTokens compiled).of_has has) gives
    obtain ⟨ascend, last⟩ := Input.offsetAt_ascends row known
    refine ⟨ascend, last, ?_⟩
    rintro rfl i
    obtain ⟨place, within, same⟩ := Input.offsetAt_within row known i
    refine ⟨place, within, ?_⟩
    rw [Input.position, same]
    exact at_located i within

def letterLines : List TokenRule :=
  [{ name := "letter", pattern := .oneOf ⟨[⟨97, 123⟩], false, Lexer.separated_lowercase⟩ },
    { name := "newline", pattern := .literal "\n", skip := true }]

theorem letterLines_tell_offsets :
    ∃ lexer found, Gives (Lexer.ofTokens letterLines [] []) lexer ∧ lexer.Has lexer.main ∧
    Gives (Lexer.tokenize lexer .unlimited "a\n\nb\n") found ∧ found.length = 2 ∧
    ((Input.tokens found.toArray).position (some "a\n\nb\n".toList) 0).offset <
      ((Input.tokens found.toArray).position (some "a\n\nb\n".toList) 1).offset ∧
    ((Input.tokens found.toArray).position (some "a\n\nb\n".toList) 1).offset ≤
      ((Input.tokens found.toArray).position (some "a\n\nb\n".toList) 2).offset ∧
    (Input.tokens found.toArray).position (some "a\n\nb\n".toList) 1 = ⟨1, 3, 3, 1⟩ ∧
    (Input.tokens found.toArray).position (some "a\n\nb\n".toList) 2 = ⟨2, 5, 4, 1⟩ ∧
    (located "a\n\nb\n" 1 3).At "a\n\nb\n" 3 ∧ (located "a\n\nb\n" 1 3).Precedes (located "a\n\nb\n" 2 5) := by
  have made : ∃ lexer found, Gives (Lexer.ofTokens letterLines [] []) lexer ∧
      Gives (Lexer.tokenize lexer .unlimited "a\n\nb\n") found ∧
      found = [⟨"letter", "a", 0, 1, .none⟩, ⟨"letter", "b", 3, 4, .none⟩] :=
    ⟨_, _, ⟨[], _, rfl⟩, ⟨[], _, rfl⟩, rfl⟩
  obtain ⟨lexer, found, compiled, gives, rfl⟩ := made
  obtain ⟨tells, precedes, _, tokens⟩ := positions_tell_offsets "a\n\nb\n"
  obtain ⟨ascends, last, _⟩ := tokens _ _ _ lexer compiled lexer.main (.inl rfl) _ _ gives _ (.inr rfl)
  exact ⟨lexer, _, compiled, .inl rfl, gives, rfl, ascends 0 1 (by decide) (by decide),
    last 1 2 (by decide) (by decide),
    by decide +kernel, by decide +kernel, (tells 1 3 (by decide)).1, precedes 1 2 3 5 (by decide) (by decide)⟩

end Packrat
