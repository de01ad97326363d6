import Packrat.Proofs.Lexer.Longest
import Packrat.Proofs.Lists

namespace Packrat

namespace TokenRule

def IsPure (t : TokenRule) : Prop :=
  ∀ action, t.action = some action → ∀ v, ∃ made, action.run (.positional v) = .ok made

def valueOf (t : TokenRule) (v otherwise : Value) : Value :=
  match t.action with
  | some action => match action.run (.positional v) with
    | .ok made => made
    | .error _ => .none
  | none => otherwise

end TokenRule

namespace Lexer

/-- A match of a token from `start` to `stop`, with the matches in the lexer state that it enters. -/
structure Tile where
  token : TokenRule
  start : Nat
  stop : Nat
  inner : List Tile

def Tile.text (text : String) (tile : Tile) : String := String.ofList (slice text tile.start tile.stop)

mutual
def Tile.value (text : String) : Tile → Value
  | ⟨token, start, stop, inner⟩ =>
    match token.enter with
    | some _ => token.valueOf (.list (innerValues text inner)) (.list (innerValues text inner))
    | none => token.valueOf (.text (String.ofList (slice text start stop))) .none

/-- The values of tiles in a lexer state, without those to skip and the one that leaves. A token that makes no
value stands for its text. -/
def innerValues (text : String) : List Tile → List Value
  | [] => []
  | tile :: rest =>
    if tile.token.skip || tile.token.leave then innerValues text rest
    else if tile.token.makesValue then tile.value text :: innerValues text rest
    else .text (tile.text text) :: innerValues text rest
end

def Tile.toToken (text : String) (tile : Tile) : Token :=
  ⟨tile.token.name, tile.text text, tile.start, tile.stop, tile.value text⟩

def kept (tiles : List Tile) : List Tile := tiles.filter (!·.token.skip)

def errorAt (text : String) (tiles : List Tile) (force : TokenSet) (place : Nat) : ParseError where
  kind := .lexicalError
  position := .ofOffset (kept tiles).length place (lineBreaks text)
  expected := force.expected
  found := match text.toList[place]? with
    | some c => some (Text.quote (String.singleton c))
    | none => some "end of input"

section

variable (lexer : Lexer) (text : String)

mutual
/-- A tile is what the set of tokens matches where the tile starts. If that token enters a lexer state, what is
matched in there belongs to the tile. -/
inductive Fits : TokenSet → Tile → Prop where
  | plain {set token start length} (next : set.next (text.toList.drop start) = some (token, length))
    (stays : token.enter = none) : Fits set ⟨token, start, start + length, []⟩
  | entering {set token start length state inside inner stop}
    (next : set.next (text.toList.drop start) = some (token, length)) (enters : token.enter = some state)
    (known : lexer.states.lookup state = some inside) (runs : Runs inside (start + length) inner stop) :
    Fits set ⟨token, start, stop, inner⟩

inductive Runs : TokenSet → Nat → List Tile → Nat → Prop where
  | leave {set tile} (fits : Fits set tile) (leaves : tile.token.leave = true) : Runs set tile.start [tile] tile.stop
  | next {set tile tiles stop} (fits : Fits set tile) (remains : tile.token.leave = false)
    (rest : Runs set tile.stop tiles stop) : Runs set tile.start (tile :: tiles) stop
end

/-- Tiles of the main set, each behind the one before, that cover all that is left of the text. -/
inductive Tiles : Nat → List Tile → Prop where
  | done : Tiles text.length []
  | next {tile tiles} (fits : Fits lexer text lexer.main tile) (rest : Tiles tile.stop tiles) :
    Tiles tile.start (tile :: tiles)

mutual
inductive Sticks : TokenSet → Nat → TokenSet → Nat → Prop where
  | here {set start} (nothing : set.next (text.toList.drop start) = none) : Sticks set start set start
  | inside {set token start length state inside force place}
    (next : set.next (text.toList.drop start) = some (token, length)) (enters : token.enter = some state)
    (known : lexer.states.lookup state = some inside) (sticks : RunSticks inside (start + length) force place) :
    Sticks set start force place

inductive RunSticks : TokenSet → Nat → TokenSet → Nat → Prop where
  | first {set start force place} (sticks : Sticks set start force place) : RunSticks set start force place
  | next {set tile force place} (fits : Fits lexer text set tile) (remains : tile.token.leave = false)
    (rest : RunSticks set tile.stop force place) : RunSticks set tile.start force place
end

/-- Behind tiles of the main set, the tokens that are in force match nothing. -/
inductive Stops : Nat → List Tile → TokenSet → Nat → Prop where
  | here {start force place} (more : start < text.length) (sticks : Sticks lexer text lexer.main start force place) :
    Stops start [] force place
  | next {tile tiles force place} (fits : Fits lexer text lexer.main tile) (rest : Stops tile.stop tiles force place) :
    Stops tile.start (tile :: tiles) force place

def Has (set : TokenSet) : Prop := set = lexer.main ∨ ∃ state, lexer.states.lookup state = some set

/-- What construction sees to: whatever matches consumes something, and lexer states that are entered are there. -/
structure Sound : Prop where
  consumes : ∀ {set rest token length}, lexer.Has set → set.next rest = some (token, length) →
    0 < length ∧ length ≤ rest.length
  enters : ∀ {set rest token length state}, lexer.Has set → set.next rest = some (token, length) →
    token.enter = some state → ∃ inside, lexer.states.lookup state = some inside

end

variable {lexer : Lexer} {text : String} {set force : TokenSet} {tile : Tile} {tiles : List Tile}
    {start stop place : Nat}

theorem has_lookup (lexer : Lexer) (state : String) : lexer.Has ((lexer.states.lookup state).getD lexer.main) := by
  cases known : lexer.states.lookup state with
  | none => exact .inl rfl
  | some set => exact .inr ⟨state, known⟩

theorem Sound.of_has (sound : lexer.Sound) (has : lexer.Has set) : Sound ⟨set, lexer.states⟩ := by
  have within : ∀ {other}, Has ⟨set, lexer.states⟩ other → lexer.Has other := by
    rintro other (rfl | known)
    · exact has
    · exact .inr known
  exact ⟨fun here => sound.consumes (within here), fun here => sound.enters (within here)⟩

theorem Sound.within (sound : lexer.Sound) (has : lexer.Has set) {token : TokenRule} {length : Nat}
    (next : set.next (text.toList.drop start) = some (token, length)) : 0 < length ∧ start + length ≤ text.length := by
  obtain ⟨some, within⟩ := sound.consumes has next
  rw [List.length_drop, String.length_toList] at within
  omega

mutual
theorem Fits.extent (sound : lexer.Sound) : ∀ {set tile}, lexer.Has set → lexer.Fits text set tile →
    tile.start < tile.stop ∧ tile.stop ≤ text.length
  | _, _, has, .plain next _ => by
    have := sound.within has next
    dsimp only
    omega
  | _, _, has, .entering next _ known runs => by
    have := sound.within has next
    have := Runs.extent sound (.inr ⟨_, known⟩) runs
    dsimp only
    omega

theorem Runs.extent (sound : lexer.Sound) : ∀ {set start tiles stop}, lexer.Has set →
    lexer.Runs text set start tiles stop → start < stop ∧ stop ≤ text.length
  | _, _, _, _, has, .leave fits _ => Fits.extent sound has fits
  | _, _, _, _, has, .next fits _ rest => by
    have := Fits.extent sound has fits
    have := Runs.extent sound has rest
    omega
end

mutual
theorem Sticks.within (sound : lexer.Sound) : ∀ {set start force place}, lexer.Has set → start ≤ text.length →
    lexer.Sticks text set start force place → place ≤ text.length
  | _, _, _, _, _, behind, .here _ => behind
  | _, _, _, _, has, _, .inside next _ known sticks =>
    RunSticks.within sound (.inr ⟨_, known⟩) (sound.within has next).2 sticks

theorem RunSticks.within (sound : lexer.Sound) : ∀ {set start force place}, lexer.Has set → start ≤ text.length →
    lexer.RunSticks text set start force place → place ≤ text.length
  | _, _, _, _, has, behind, .first sticks => Sticks.within sound has behind sticks
  | _, _, _, _, has, _, .next fits _ rest => RunSticks.within sound has (fits.extent sound has).2 rest
end

theorem Stops.within (sound : lexer.Sound) (stops : lexer.Stops text start tiles force place) :
    place ≤ text.length := by
  induction stops with
  | here more sticks => exact sticks.within sound (.inl rfl) (Nat.le_of_lt more)
  | next _ _ ih => exact ih

theorem Tiles.extent (sound : lexer.Sound) (covered : lexer.Tiles text start tiles) :
    ∀ tile ∈ tiles, tile.start < tile.stop := by
  induction covered with
  | done => simp
  | next fits _ ih => exact List.forall_mem_cons.mpr ⟨(fits.extent sound (.inl rfl)).1, ih⟩

section Progress

def Settles (lexer : Lexer) (text : String) (start : Nat) : Prop :=
  ∀ set, lexer.Has set → (∃ tiles stop, lexer.Runs text set start tiles stop) ∨
    ∃ force place, lexer.RunSticks text set start force place

theorem fits_or_sticks (sound : lexer.Sound) (has : lexer.Has set) (start : Nat)
    (later : ∀ next, start < next → next ≤ text.length → lexer.Settles text next) :
    (∃ tile, tile.start = start ∧ lexer.Fits text set tile) ∨
      ∃ force place, lexer.Sticks text set start force place := by
  cases next : set.next (text.toList.drop start) with
  | none => exact .inr ⟨set, start, .here next⟩
  | some found =>
    obtain ⟨token, length⟩ := found
    have within := sound.within has next
    cases enter : token.enter with
    | none => exact .inl ⟨_, rfl, .plain next enter⟩
    | some state =>
      obtain ⟨inside, known⟩ := sound.enters has next enter
      rcases later (start + length) (by omega) within.2 inside (.inr ⟨state, known⟩) with
        ⟨inner, stop, runs⟩ | ⟨force, place, sticks⟩
      · exact .inl ⟨_, rfl, .entering next enter known runs⟩
      · exact .inr ⟨force, place, .inside next enter known sticks⟩

theorem settles (sound : lexer.Sound) (start : Nat) : lexer.Settles text start := by
  -- Whatever is entered begins further on, and so does what follows a tile.
  induction left : text.length - start using Nat.strong_induction_on generalizing start with
  | _ left ih =>
    have later : ∀ next, start < next → next ≤ text.length → lexer.Settles text next :=
      fun next further within => ih _ (by omega) next rfl
    intro set has
    rcases fits_or_sticks sound has start later with ⟨tile, rfl, fits⟩ | ⟨force, place, sticks⟩
    · cases leaves : tile.token.leave with
      | true => exact .inl ⟨[tile], tile.stop, .leave fits leaves⟩
      | false =>
        obtain ⟨further, within⟩ := fits.extent sound has
        rcases later tile.stop further within set has with ⟨tiles, stop, runs⟩ | ⟨force, place, sticks⟩
        · exact .inl ⟨tile :: tiles, stop, .next fits leaves runs⟩
        · exact .inr ⟨force, place, .next fits leaves sticks⟩
    · exact .inr ⟨force, place, .first sticks⟩

theorem tiles_or_stops (sound : lexer.Sound) {start : Nat} (within : start ≤ text.length) :
    (∃ tiles, lexer.Tiles text start tiles) ∨ ∃ tiles force place, lexer.Stops text start tiles force place := by
  induction left : text.length - start using Nat.strong_induction_on generalizing start with
  | _ left ih =>
    by_cases more : start < text.length
    · rcases fits_or_sticks sound (.inl rfl) start fun next _ _ => settles sound next with
        ⟨tile, rfl, fits⟩ | ⟨force, place, sticks⟩
      · obtain ⟨further, inside⟩ := fits.extent sound (.inl rfl)
        rcases ih _ (by omega) inside rfl with ⟨tiles, rest⟩ | ⟨tiles, force, place, rest⟩
        · exact .inl ⟨tile :: tiles, .next fits rest⟩
        · exact .inr ⟨tile :: tiles, force, place, .next fits rest⟩
      · exact .inr ⟨[], force, place, .here more sticks⟩
    · obtain rfl : start = text.length := by omega
      exact .inl ⟨[], .done⟩

end Progress

section Result

open Reporting

theorem Tile.text_eq (behind : tile.start ≤ tile.stop) :
    String.ofList ((text.toList.drop tile.start).take (tile.stop - tile.start)) = tile.text text := by
  obtain ⟨length, same⟩ := Nat.exists_eq_add_of_le behind
  rw [Tile.text, same, slice_add, Nat.add_sub_cancel_left]

theorem comesTo_callAction {t : TokenRule} (safe : t.IsPure) (v otherwise : Value) :
    ComesTo (callAction t.action v otherwise) (.ok (t.valueOf v otherwise)) := by
  unfold callAction TokenRule.valueOf
  cases given : t.action with
  | none => exact .pure otherwise
  | some action =>
    obtain ⟨made, run⟩ := safe action given v
    dsimp only
    rw [run]
    exact .lift _

theorem matchToken_unlimited
    (run : String → Room → Nat → List Char → Reporting Failure (List Value × Nat × List Char)) (spot : Place)
    (set : TokenSet) (pos : Nat) (rest : List Char) : matchToken run spot set .unlimited pos rest =
      match set.next rest with
      | none => throw (.lexical (lexicalError spot set pos rest))
      | some (token, length) => do
        report (.tokenMatched token.name (String.ofList (rest.take length)) pos)
        match token.enter with
        | some state => do
          let (parts, stop, rest) ← run state .unlimited (pos + length) (rest.drop length)
          return ⟨token, stop, rest, ← callAction token.action (.list parts) (.list parts)⟩
        | none => return ⟨token, pos + length, rest.drop length,
            ← callAction token.action (.text (String.ofList (rest.take length))) .none⟩ := rfl

theorem mem_of_next {rest : List Char} {t : TokenRule} {length : Nat} (next : set.next rest = some (t, length)) :
    t ∈ set.tokens := by
  unfold TokenSet.next at next
  simp only [Option.bind_eq_bind, Option.bind_eq_some_iff] at next
  obtain ⟨_, _, token, found, same⟩ := next
  cases same
  exact List.mem_of_getElem? found

def IsPure (lexer : Lexer) : Prop := ∀ {set}, lexer.Has set → ∀ t ∈ set.tokens, t.IsPure

variable {spot : Place}

mutual
theorem Fits.comesTo (sound : lexer.Sound) (safe : lexer.IsPure) : ∀ {set tile} (fuel : Nat), lexer.Has set →
    lexer.Fits text set tile → text.length - tile.start ≤ fuel →
      ComesTo (matchToken (runState lexer spot fuel []) spot set .unlimited tile.start (text.toList.drop tile.start))
        (.ok ⟨tile.token, tile.stop, text.toList.drop tile.stop, tile.value text⟩)
  | _, ⟨token, start, _, _⟩, fuel, has, .plain next stays, enough => by
    rw [matchToken_unlimited, next]
    refine (ComesTo.report _).bind ?_
    rw [stays]
    refine (comesTo_callAction (safe has token (mem_of_next next)) _ _).bind ?_
    rw [List.drop_drop, Tile.value, stays, slice_add]
    exact .pure _
  | _, ⟨token, start, stop, inner⟩, fuel, has, .entering next enters known runs, enough => by
    have within := sound.within has next
    rw [matchToken_unlimited, next]
    refine (ComesTo.report _).bind ?_
    rw [enters]
    dsimp only at enough ⊢
    have parts := Runs.comesTo sound safe fuel (.inr ⟨_, known⟩) (by rw [known]; rfl) runs [] (by omega)
    rw [List.drop_drop]
    refine parts.bind ?_
    rw [Tile.value, enters]
    exact (comesTo_callAction (safe has token (mem_of_next next)) _ _).bind (.pure _)

theorem Runs.comesTo (sound : lexer.Sound) (safe : lexer.IsPure) : ∀ {set start tiles stop state} (fuel : Nat),
    lexer.Has set → (lexer.states.lookup state).getD lexer.main = set → lexer.Runs text set start tiles stop →
      ∀ parts : List Value, text.length - start < fuel →
        ComesTo (runState lexer spot fuel parts state .unlimited start (text.toList.drop start))
          (.ok (parts.reverse ++ innerValues text tiles, stop, text.toList.drop stop))
  | _, _, [tile], _, state, fuel + 1, has, same, .leave fits leaves, parts, enough => by
    rw [runState, same]
    refine (Fits.comesTo sound safe fuel has fits (by omega)).bind ?_
    dsimp only
    rw [if_pos leaves, innerValues, leaves, Bool.or_true, if_pos rfl, innerValues, List.append_nil]
    exact .pure _
  | _, _, tile :: tiles, _, state, fuel + 1, has, same, .next fits remains rest, parts, enough => by
    have extent := fits.extent sound has
    rw [runState, same]
    refine (Fits.comesTo sound safe fuel has fits (by omega)).bind ?_
    dsimp only
    rw [if_neg (by simp [remains]), Tile.text_eq (Nat.le_of_lt extent.1)]
    have later := fun parts => Runs.comesTo sound safe fuel has same rest parts (by omega)
    rw [innerValues, remains, Bool.or_false]
    cases tile.token.skip with
    | true => exact later parts
    | false =>
      cases tile.token.makesValue with
      | true => simpa using later (tile.value text :: parts)
      | false => simpa using later (.text (tile.text text) :: parts)
end

mutual
theorem Sticks.comesTo (sound : lexer.Sound) (safe : lexer.IsPure) : ∀ {set start force place} (fuel : Nat),
    lexer.Has set → lexer.Sticks text set start force place → text.length - start ≤ fuel →
      ComesTo (matchToken (runState lexer spot fuel []) spot set .unlimited start (text.toList.drop start))
        (.error (.lexical (lexicalError spot force place (text.toList.drop place))))
  | _, _, _, _, fuel, has, .here nothing, enough => by
    rw [matchToken_unlimited, nothing]
    exact .throw _
  | _, _, _, _, fuel, has, .inside next enters known sticks, enough => by
    have within := sound.within has next
    rw [matchToken_unlimited, next]
    refine (ComesTo.report _).bind ?_
    rw [enters, List.drop_drop]
    exact (RunSticks.comesTo sound safe fuel (.inr ⟨_, known⟩) (by rw [known]; rfl) sticks [] (by omega)).bind_error

theorem RunSticks.comesTo (sound : lexer.Sound) (safe : lexer.IsPure) : ∀ {set start force place state} (fuel : Nat),
    lexer.Has set → (lexer.states.lookup state).getD lexer.main = set → lexer.RunSticks text set start force place →
      ∀ parts : List Value, text.length - start < fuel →
        ComesTo (runState lexer spot fuel parts state .unlimited start (text.toList.drop start))
          (.error (.lexical (lexicalError spot force place (text.toList.drop place))))
  | _, _, _, _, state, fuel + 1, has, same, .first sticks, parts, enough => by
    rw [runState, same]
    exact (Sticks.comesTo sound safe fuel has sticks (by omega)).bind_error
  | _, _, _, _, state, fuel + 1, has, same, .next fits remains rest, parts, enough => by
    have extent := fits.extent sound has
    rw [runState, same]
    refine (Fits.comesTo sound safe fuel has fits (by omega)).bind ?_
    dsimp only
    rw [if_neg (by simp [remains])]
    exact RunSticks.comesTo sound safe fuel has same rest _ (by omega)
end

variable {lines : List Nat}

theorem le_length_drop (text : String) (start : Nat) : text.length - start ≤ (text.toList.drop start).length + 1 := by
  rw [List.length_drop, String.length_toList]
  exact Nat.le_succ _

theorem tokenizeFrom_of_lt (more : start < text.length) (fuel index : Nat) (found : List Token) :
    lexer.tokenizeFrom .unlimited lines (fuel + 1) index found start (text.toList.drop start) =
      matchToken (lexer.runState ⟨lines, index⟩ ((text.toList.drop start).length + 1) []) ⟨lines, index⟩
        lexer.main .unlimited start (text.toList.drop start) >>= fun m =>
      if m.token.skip then lexer.tokenizeFrom .unlimited lines fuel index found m.stop m.rest
      else
        let part := String.ofList ((text.toList.drop start).take (m.stop - start))
        lexer.tokenizeFrom .unlimited lines fuel (index + 1) (⟨m.token.name, part, start, m.stop, m.value⟩ :: found)
          m.stop m.rest := by
  cases rest : text.toList.drop start with
  | nil =>
    rw [List.drop_eq_nil_iff, String.length_toList] at rest
    omega
  | cons c cs => rfl

theorem Tiles.comesTo (sound : lexer.Sound) (safe : lexer.IsPure) (covered : lexer.Tiles text start tiles) (fuel : Nat)
    (enough : text.length - start ≤ fuel) (index : Nat) (found : List Token) :
    ComesTo (lexer.tokenizeFrom .unlimited lines fuel index found start (text.toList.drop start))
      (.ok (found.reverse ++ (kept tiles).map (Tile.toToken text))) := by
  induction covered generalizing fuel index found with
  | done =>
    rw [List.drop_eq_nil_iff.mpr (by rw [String.length_toList])]
    cases fuel <;> simpa [tokenizeFrom, kept] using ComesTo.pure found.reverse
  | @next tile tiles fits rest ih =>
    have extent := fits.extent sound (.inl rfl)
    obtain ⟨fuel, rfl⟩ := Nat.exists_eq_add_of_le' (show 1 ≤ fuel by omega)
    rw [tokenizeFrom_of_lt (by omega)]
    refine ComesTo.bind (fits.comesTo sound safe _ (.inl rfl) (le_length_drop text _)) ?_
    dsimp only
    rw [Tile.text_eq (Nat.le_of_lt extent.1)]
    cases skip : tile.token.skip with
    | true => simpa [kept, skip] using ih fuel (by omega) index found
    | false => simpa [kept, skip, Tile.toToken] using ih fuel (by omega) (index + 1) (tile.toToken text :: found)

theorem Stops.comesTo (sound : lexer.Sound) (safe : lexer.IsPure) (stops : lexer.Stops text start tiles force place)
    (fuel : Nat) (enough : text.length - start ≤ fuel) (index : Nat) (found : List Token) :
    ComesTo (lexer.tokenizeFrom .unlimited lines fuel index found start (text.toList.drop start))
      (.error (.lexical (lexicalError ⟨lines, index + (kept tiles).length⟩ force place (text.toList.drop place)))) := by
  induction stops generalizing fuel index found with
  | here more sticks =>
    obtain ⟨fuel, rfl⟩ := Nat.exists_eq_add_of_le' (show 1 ≤ fuel by omega)
    rw [tokenizeFrom_of_lt more]
    exact ComesTo.bind_error (sticks.comesTo sound safe _ (.inl rfl) (le_length_drop text _))
  | @next tile tiles force place fits rest ih =>
    have extent := fits.extent sound (.inl rfl)
    obtain ⟨fuel, rfl⟩ := Nat.exists_eq_add_of_le' (show 1 ≤ fuel by omega)
    rw [tokenizeFrom_of_lt (by omega)]
    refine ComesTo.bind (fits.comesTo sound safe _ (.inl rfl) (le_length_drop text _)) ?_
    dsimp only
    cases skip : tile.token.skip with
    | true => simpa [kept, skip] using ih fuel (by omega) index found
    | false => simpa [kept, skip, Nat.add_assoc, Nat.add_comm] using ih fuel (by omega) (index + 1) (_ :: found)

end Result

section Construction

open Reporting

variable {tokens : List TokenRule} {rules : List String} {states : List (String × List TokenRule)}

theorem Has.compiled (compiled : Gives (ofTokens tokens rules states) lexer) (has : lexer.Has set) :
    ∃ declared state, (declared = tokens ∨ ∃ name, (name, declared) ∈ states) ∧
      Gives (TokenSet.ofTokens declared rules state) set ∧ set.check (lexer.states.map (·.1)) = .ok () := by
  obtain ⟨main, first, compiled⟩ := compiled.of_bind
  obtain ⟨sets, others, compiled⟩ := compiled.of_bind
  obtain ⟨_, checked, compiled⟩ := compiled.of_bind
  obtain ⟨_, checkedMain, compiled⟩ := compiled.of_bind
  cases compiled.of_pure
  rcases has with rfl | ⟨name, known⟩
  · exact ⟨tokens, none, .inl rfl, first, ok_of_mapError checkedMain.of_lift⟩
  · have listed := mem_of_lookup known
    obtain ⟨⟨state, declared⟩, member, made⟩ := exists_of_forall₂ others.of_mapM.flip listed
    obtain ⟨_, built, done⟩ := Gives.of_bind made
    cases done.of_pure
    exact ⟨declared, some name, .inr ⟨name, member⟩, built, ok_of_forM (ok_of_mapError checked.of_lift) listed⟩

theorem checkToken_enters {names : List String} {state : Option String} {t : TokenRule} {entered : String}
    (checked : TokenSet.checkToken names state t = .ok ()) (enters : t.enter = some entered) : entered ∈ names := by
  unfold TokenSet.checkToken at checked
  rw [enters] at checked
  by_contra missing
  simp [Option.filter, missing] at checked

theorem sound_of_ofTokens (compiled : Gives (ofTokens tokens rules states) lexer) : lexer.Sound where
  consumes has next := by
    obtain ⟨declared, state, _, built, _⟩ := has.compiled compiled
    obtain ⟨within, ⟨index, first⟩, _⟩ := (TokenSet.next_eq_some_iff built).mp next
    refine ⟨Nat.pos_of_ne_zero fun empty => ?_, within⟩
    rw [empty] at first
    exact TokenSet.not_matches_nil built (List.mem_of_getElem? first.1) first.2.1
  enters has next enters := by
    obtain ⟨_, _, _, _, checked⟩ := has.compiled compiled
    obtain ⟨_, each, _⟩ := ok_of_bind checked
    exact exists_lookup (checkToken_enters (ok_of_forM each (mem_of_next next)) enters)

theorem isPure_of_ofTokens (compiled : Gives (ofTokens tokens rules states) lexer)
    (safe : ∀ t, t ∈ tokens ∨ (∃ state ∈ states, t ∈ state.2) → t.IsPure) : lexer.IsPure := by
  intro set has t listed
  obtain ⟨declared, state, from', built, _⟩ := has.compiled compiled
  rw [(TokenSet.exists_automaton built).1] at listed
  rcases from' with rfl | ⟨name, member⟩
  · exact safe t (.inl listed)
  · exact safe t (.inr ⟨_, member, listed⟩)

end Construction

theorem quote_ne_end (t : String) : Text.quote t ≠ "end of input" := by
  intro same
  have first := congrArg (·.toList.head?) same
  simp only [Text.quote, Text.quoteCodes, Text.quoteFor, String.toList_ofList, List.cons_append,
    List.head?_cons] at first
  split at first <;> simp at first

theorem lexicalError_eq (text : String) (tiles : List Tile) (force : TokenSet) (place : Nat) :
    lexicalError ⟨lineBreaks text, 0 + (kept tiles).length⟩ force place (text.toList.drop place) =
      errorAt text tiles force place := by
  unfold lexicalError errorAt
  rw [Nat.zero_add, ← List.head?_drop]
  cases text.toList.drop place <;> rfl

theorem found_errorAt (within : place ≤ text.length) :
    (errorAt text tiles force place).found = some "end of input" ↔ place = text.length := by
  unfold errorAt
  cases here : text.toList[place]? with
  | none =>
    rw [List.getElem?_eq_none_iff, String.length_toList] at here
    simpa using Nat.le_antisymm within here
  | some c =>
    obtain ⟨more, _⟩ := List.getElem?_eq_some_iff.mp here
    rw [String.length_toList] at more
    simpa [quote_ne_end] using Nat.ne_of_lt more

/-- A lexer divides a text into tiles, and its tokens are those that are not skipped. Where there is no such tiling,
it fails at the first place where the tokens in force match nothing. -/
theorem tokenize_tiles {tokens : List TokenRule} {rules : List String} {states : List (String × List TokenRule)}
    (compiled : Reporting.Gives (ofTokens tokens rules states) lexer)
    (safe : ∀ t, t ∈ tokens ∨ (∃ state ∈ states, t ∈ state.2) → t.IsPure) (text : String) :
    (∃ result, Reporting.ComesTo (lexer.tokenize .unlimited text) result) ∧
    (∀ found, Reporting.ComesTo (lexer.tokenize .unlimited text) (.ok found) ↔
      ∃ tiles, lexer.Tiles text 0 tiles ∧ (∀ tile ∈ tiles, tile.start < tile.stop) ∧
        found = (kept tiles).map (Tile.toToken text)) ∧
    ∀ failure, Reporting.ComesTo (lexer.tokenize .unlimited text) (.error failure) ↔
      ∃ tiles force place, lexer.Stops text 0 tiles force place ∧
        failure = .lexical (errorAt text tiles force place) ∧
        ((errorAt text tiles force place).found = some "end of input" ↔ place = text.length) := by
  have sound := sound_of_ofTokens compiled
  have pure : lexer.IsPure := isPure_of_ofTokens compiled safe
  have enough : text.length - 0 ≤ text.toList.length := by
    rw [String.length_toList]
    exact Nat.sub_le _ _
  have tiled : ∀ tiles, lexer.Tiles text 0 tiles →
      Reporting.ComesTo (lexer.tokenize .unlimited text) (.ok ((kept tiles).map (Tile.toToken text))) :=
    fun tiles covered => covered.comesTo sound pure _ enough 0 []
  have stopped : ∀ tiles force place, lexer.Stops text 0 tiles force place →
      Reporting.ComesTo (lexer.tokenize .unlimited text) (.error (.lexical (errorAt text tiles force place))) := by
    intro tiles force place stops
    rw [← lexicalError_eq]
    exact stops.comesTo sound pure _ enough 0 []
  have progress : (∃ tiles, lexer.Tiles text 0 tiles) ∨ ∃ tiles force place, lexer.Stops text 0 tiles force place :=
    tiles_or_stops sound (Nat.zero_le _)
  refine ⟨?_, fun found => ⟨fun comes => ?_, ?_⟩, fun failure => ⟨fun comes => ?_, ?_⟩⟩
  · rcases progress with ⟨tiles, covered⟩ | ⟨tiles, force, place, stops⟩
    · exact ⟨_, tiled tiles covered⟩
    · exact ⟨_, stopped tiles force place stops⟩
  · rcases progress with ⟨tiles, covered⟩ | ⟨tiles, force, place, stops⟩
    · exact ⟨tiles, covered, covered.extent sound, Except.ok.inj (comes.unique (tiled tiles covered))⟩
    · cases comes.unique (stopped tiles force place stops)
  · rintro ⟨tiles, covered, _, rfl⟩
    exact tiled tiles covered
  · rcases progress with ⟨tiles, covered⟩ | ⟨tiles, force, place, stops⟩
    · cases comes.unique (tiled tiles covered)
    · exact ⟨tiles, force, place, stops, Except.error.inj (comes.unique (stopped tiles force place stops)),
        found_errorAt (stops.within sound)⟩
  · rintro ⟨tiles, force, place, stops, rfl, _⟩
    exact stopped tiles force place stops

def brackets : List TokenRule × List (String × List TokenRule) :=
  let letter : TokenRule := { name := "letter", pattern := .oneOf ⟨[⟨97, 123⟩], false, separated_lowercase⟩ }
  let bracket : TokenRule := { name := "open", pattern := .literal "(", enter := some "inside" }
  ([bracket, { letter with skip := true }],
    [("inside", [bracket, { name := "close", pattern := .literal ")", leave := true }, letter])])

theorem brackets_tiles : ∃ lexer, Reporting.Gives (ofTokens brackets.1 [] brackets.2) lexer ∧
    (∀ t, t ∈ brackets.1 ∨ (∃ state ∈ brackets.2, t ∈ state.2) → t.IsPure) ∧
    (∃ tiles, lexer.Tiles "a(b(c))" 0 tiles ∧ (kept tiles).map (Tile.toToken "a(b(c))") =
      [⟨"open", "(b(c))", 1, 7, .list [.text "b", .list [.text "c"]]⟩]) ∧
    ∃ tiles force, lexer.Stops "a(b(c)" 0 tiles force 6 := by
  have found : ∃ lexer, Reporting.Gives (ofTokens brackets.1 [] brackets.2) lexer ∧
      Reporting.ComesTo (lexer.tokenize .unlimited "a(b(c))")
        (.ok [⟨"open", "(b(c))", 1, 7, .list [.text "b", .list [.text "c"]]⟩]) ∧
      ∃ e, e.found = some "end of input" ∧
        Reporting.ComesTo (lexer.tokenize .unlimited "a(b(c)") (.error (.lexical e)) :=
    ⟨_, ⟨[], _, rfl⟩, fun _ => rfl, _, rfl, fun _ => rfl⟩
  obtain ⟨lexer, compiled, whole, e, ended, cut⟩ := found
  have safe : ∀ t, t ∈ brackets.1 ∨ (∃ state ∈ brackets.2, t ∈ state.2) → t.IsPure := by
    have none : ∀ t, t ∈ brackets.1 ∨ (∃ state ∈ brackets.2, t ∈ state.2) → t.action = none := by
      simp only [brackets, List.mem_cons, List.not_mem_nil, or_false, exists_eq_left]
      rintro t ((rfl | rfl) | rfl | rfl | rfl) <;> rfl
    intro t listed action given
    rw [none t listed] at given
    cases given
  obtain ⟨tiles, covered, _, same⟩ := ((tokenize_tiles compiled safe "a(b(c))").2.1 _).mp whole
  obtain ⟨before, force, place, stops, error, last⟩ := ((tokenize_tiles compiled safe "a(b(c)").2.2 _).mp cut
  cases error
  obtain rfl : place = 6 := last.mp ended
  exact ⟨lexer, compiled, safe, ⟨tiles, covered, same.symm⟩, before, force, stops⟩

end Lexer

end Packrat
