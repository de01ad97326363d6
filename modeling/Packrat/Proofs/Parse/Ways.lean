import Packrat.Proofs.Parse.Frames
import Packrat.Proofs.Parse.Order
import Packrat.Proofs.Parse.Pieces
import Packrat.Proofs.Parse.Seeds

namespace Packrat

open Relation

section

variable {p : TypedGrammar} {input : Input} {lo : Int} {stack : List Call} {m m' m₁ m₂ : Moment}
  {s : Parse} {c : Call}

inductive Way (p : TypedGrammar) (input : Input) : Moment → List Moment → Moment → Prop where
  | here (m : Moment) : Way p input m [] m
  | next {m m₁ m₂ : Moment} {path : List Moment} (leads : p.Leads input m m₁) (rest : Way p input m₁ path m₂) :
    Way p input m (m₁ :: path) m₂

namespace Moment

def Evaluates (m : Moment) (c : Call) : Prop := (∃ typed, m.work = .body typed) ∧ m.state.stack.head? = some c

def Grows (m : Moment) (c : Call) : Prop := ∃ typed left v, m.work = .growth c typed left v

/-- One moment comes up when the work of another one is finished, and is not the evaluation of a body. -/
def Follows (p : TypedGrammar) (input : Input) (m₁ m₂ : Moment) : Prop :=
  (∃ s, p.Finishes input m₁ s ∧ m₂.state.memo = s.memo) ∧ ∀ typed, m₂.work ≠ .body typed

end Moment

theorem Sound.eq_or_follows (faithful : p.Faithful) (sound : Sound p input lo stack m) (finishes : p.Finishes input m s)
    (first : p.Leads input m m₁) (second : p.Leads input m m₂) :
    m₁ = m₂ ∨ Moment.Follows p input m₁ m₂ ∨ Moment.Follows p input m₂ m₁ := by
  cases sound.pieces faithful (Invariant.top p input) first finishes with
  | one _ _ only => exact .inl ((only m₁ first).trans (only m₂ second).symm)
  | two ends _ same other _ _ only =>
    rcases only m₁ first with rfl | rfl <;> rcases only m₂ second with rfl | rfl
    · exact .inl rfl
    · exact .inr (.inl ⟨⟨_, ends, same⟩, other⟩)
    · exact .inr (.inr ⟨⟨_, ends, same⟩, other⟩)
    · exact .inl rfl

def Parse.Known (g : Grammar) (c : Call) (s : Parse) : Prop := s.Marks g ∧ ∃ e, s.memo.get? c = some e

theorem Parse.known_invariant (straight : ¬ TransGen p.grammar.LeftCalls c.rule c.rule) (input : Input) :
    Invariant p input (Parse.Known p.grammar c) where
  congr known same := by
    obtain ⟨marks, e, found⟩ := known
    exact ⟨(marks_invariant p input).congr marks same, e, by rw [same, found]⟩
  enter {_ s d} coherent known fresh := by
    obtain ⟨marks, e, found⟩ := known
    have other : c ≠ d := by
      intro same
      rw [same, fresh] at found
      cases found
    exact ⟨(marks_invariant p input).enter coherent marks fresh, e, by rw [get?_enter fresh, if_neg other, found]⟩
  plantSeed {_ s d v stop} coherent known := by
    obtain ⟨marks, e, found⟩ := known
    refine ⟨(marks_invariant p input).plantSeed coherent marks, ?_⟩
    rw [get?_plantSeed]
    split
    · next here => exact ⟨_, by rw [← here, found]; rfl⟩
    · exact ⟨e, found⟩
  answered {_ s d e'} coherent chain known found' := by
    obtain ⟨marks, e, found⟩ := known
    refine ⟨(marks_invariant p input).answered coherent chain marks found', ?_⟩
    cases settled : e'.settled with
    | true => exact ⟨e, by rw [memo_answered settled, found]⟩
    | false => exact ⟨_, by rw [get?_answered settled, found]; rfl⟩
  conclude {_ s d saved result} coherent known := by
    obtain ⟨marks, e, found⟩ := known
    refine ⟨(marks_invariant p input).conclude coherent marks, ?_⟩
    obtain ⟨e', found', _⟩ := coherent.found_of_mem List.mem_cons_self
    rw [get?_conclude saved result coherent.ordered found']
    split
    · next here =>
      have plain : e'.provisional ≠ true := fun marked => straight (marks c e' (here ▸ found') (.inr marked))
      exact ⟨_, if_neg plain⟩
    · exact ⟨e, found⟩

namespace Sound

theorem grows_of_leads (faithful : p.Faithful) (straight : ¬ TransGen p.grammar.LeftCalls c.rule c.rule)
    (sound : Sound p input lo stack m) (marks : m.state.Marks p.grammar) (leads : p.Leads input m m')
    (grows : m'.Grows c) : m.Grows c := by
  have lasting := (Parse.marks_invariant p input).lasting faithful
  have marks' := sound.lasting_step faithful lasting marks leads
  obtain ⟨typed, left, v, work⟩ := grows
  cases leads with
  | growth fresh known matched again =>
    cases work
    unfold Parse.isReentered at again
    dsimp only at marks'
    cases found : Memo.get? _ _ with
    | none =>
      rw [found] at again
      cases again
    | some e =>
      rw [found] at again
      exact absurd (marks' _ e found (.inl again)) straight
  | longer _ _ =>
    cases work
    exact ⟨_, _, _, rfl⟩
  | _ => cases work

theorem not_evaluates (sound : Sound p input lo stack m) (known : m.state.Known p.grammar c) (still : ¬ m.Grows c)
    (leads : p.Leads input m m') : ¬ m'.Evaluates c := by
  intro ⟨⟨typed, work⟩, top⟩
  obtain ⟨_, e, found⟩ := known
  cases leads with
  | body fresh _ =>
    cases Option.some.inj top
    rw [fresh] at found
    cases found
  | again =>
    obtain ⟨below, rfl, _⟩ := sound.placed
    have calls := sound.coherent.calls
    dsimp only [Parse.plantSeed, Parse.stack_modifyEntry] at top calls
    rw [calls] at top
    cases Option.some.inj top
    exact still ⟨_, _, _, rfl⟩
  | _ => cases work

theorem not_evaluates_of_way (faithful : p.Faithful) (straight : ¬ TransGen p.grammar.LeftCalls c.rule c.rule)
    (sound : Sound p input lo stack m) (known : m.state.Known p.grammar c) (still : ¬ m.Grows c) {path : List Moment}
    (way : Way p input m path m') (further : path ≠ []) : ¬ m'.Evaluates c := by
  have lasting := (Parse.known_invariant straight input).lasting faithful
  induction way generalizing stack with
  | here => exact absurd rfl further
  | next leads rest ih =>
    cases rest with
    | here => exact sound.not_evaluates known still leads
    | next leads' rest' =>
      obtain ⟨stack', sound'⟩ := sound.step faithful leads
      have still' := fun grows => still (sound.grows_of_leads faithful straight known.1 leads grows)
      exact ih sound' (sound.lasting_step faithful lasting known leads) still' (List.cons_ne_nil _ _)

theorem known_of_evaluates (sound : Sound p input lo stack m) (marks : m.state.Marks p.grammar)
    (evaluates : m.Evaluates c) : m.state.Known p.grammar c := by
  obtain ⟨_, top⟩ := evaluates
  rw [sound.coherent.calls] at top
  obtain ⟨e, found, _⟩ := sound.coherent.found_of_mem (List.mem_of_head? top)
  exact ⟨marks, e, found⟩

theorem known_of_way (faithful : p.Faithful) (straight : ¬ TransGen p.grammar.LeftCalls c.rule c.rule)
    (sound : Sound p input lo stack m) (marks : m.state.Marks p.grammar) {path : List Moment}
    (way : Way p input m path m') (evaluates : m'.Evaluates c) (finishes : p.Finishes input m s) :
    s.Known p.grammar c := by
  have invariant := Parse.known_invariant straight input
  induction way generalizing stack s with
  | here => exact (sound.lasting_run faithful (invariant.lasting faithful)
    (sound.known_of_evaluates marks evaluates) finishes).2
  | next leads rest ih =>
    obtain ⟨stack', sound'⟩ := sound.step faithful leads
    obtain ⟨s', finishes', kept⟩ := sound.finishes_of_leads faithful invariant leads finishes
    have marks' := sound.lasting_step faithful ((Parse.marks_invariant p input).lasting faithful) marks leads
    exact kept (ih sound' marks' evaluates finishes')

theorem not_follows (faithful : p.Faithful) (straight : ¬ TransGen p.grammar.LeftCalls c.rule c.rule)
    (sound : Sound p input lo stack m) (marks : m.state.Marks p.grammar) (still : ¬ m.Grows c) {n₁ n₂ : Moment}
    {path₁ path₂ : List Moment} (leads₁ : p.Leads input m n₁) (way₁ : Way p input n₁ path₁ m₁)
    (evaluates₁ : m₁.Evaluates c)
    (leads₂ : p.Leads input m n₂) (way₂ : Way p input n₂ path₂ m₂) (evaluates₂ : m₂.Evaluates c) :
    ¬ Moment.Follows p input n₁ n₂ := by
  intro ⟨⟨s, done, same⟩, other⟩
  obtain ⟨_, sound₁⟩ := sound.step faithful leads₁
  obtain ⟨_, sound₂⟩ := sound.step faithful leads₂
  have marks₁ := sound.lasting_step faithful ((Parse.marks_invariant p input).lasting faithful) marks leads₁
  have known := sound₁.known_of_way faithful straight marks₁ way₁ evaluates₁ done
  have known₂ := (Parse.known_invariant straight input).congr known same
  have still₂ : ¬ n₂.Grows c := fun grows => still (sound.grows_of_leads faithful straight marks leads₂ grows)
  refine sound₂.not_evaluates_of_way faithful straight known₂ still₂ way₂ ?_ evaluates₂
  intro here
  subst here
  cases way₂
  obtain ⟨⟨typed, work⟩, _⟩ := evaluates₂
  exact other typed work

theorem way_unique (faithful : p.Faithful) (straight : ¬ TransGen p.grammar.LeftCalls c.rule c.rule)
    (sound : Sound p input lo stack m) (marks : m.state.Marks p.grammar) (still : ¬ m.Grows c)
    (finishes : p.Finishes input m s) {path path' : List Moment} (way : Way p input m path m₁)
    (evaluates : m₁.Evaluates c) (way' : Way p input m path' m₂) (evaluates' : m₂.Evaluates c) : path = path' := by
  induction way generalizing stack s path' with
  | here =>
    by_contra other
    refine sound.not_evaluates_of_way faithful straight
      (sound.known_of_evaluates marks evaluates) still way' ?_ evaluates'
    exact Ne.symm other
  | next leads rest ih =>
    cases way' with
    | here =>
      have known := sound.known_of_evaluates marks evaluates'
      exact absurd evaluates (sound.not_evaluates_of_way faithful straight known still (.next leads rest)
        (List.cons_ne_nil _ _))
    | next leads' rest' =>
      -- Where the ways part, the work of one comes after the other, which has recorded the call by then.
      rcases sound.eq_or_follows faithful finishes leads leads' with rfl | follows | follows
      · obtain ⟨_, sound'⟩ := sound.step faithful leads
        obtain ⟨s', finishes', _⟩ := sound.finishes_of_leads faithful (Invariant.top p input) leads finishes
        have marks' := sound.lasting_step faithful ((Parse.marks_invariant p input).lasting faithful) marks leads
        have still' := fun grows => still (sound.grows_of_leads faithful straight marks leads grows)
        rw [ih sound' marks' still' finishes' evaluates rest']
      · exact absurd follows
          (sound.not_follows faithful straight marks still leads rest evaluates leads' rest' evaluates')
      · exact absurd follows
          (sound.not_follows faithful straight marks still leads' rest' evaluates' leads rest evaluates)

end Sound

end

namespace Parser

/-- The analysis of left recursion covers whatever work leads to. -/
structure Covers (parser : Parser) (input : Input) (opening : Moment) : Prop where
  /-- Where a call comes up again, all calls from there to the innermost one begin at the same place, with rules of
  one cycle. -/
  frames : ∀ {depth rule j t e},
    ReflTransGen (parser.typed.Leads input) opening ⟨depth, .call rule, j, t⟩ → t.memo.get? ⟨j, rule⟩ = some e →
      e.settled = false → ∃ above below, t.stack = above ++ ⟨j, rule⟩ :: below ∧ e.depth = below.length ∧
        ∃ cycle ∈ parser.leftRecursion.cycles, ∀ d ∈ ⟨j, rule⟩ :: above, d.start = j ∧ d.rule ∈ cycle
  unmarked : ∀ {m c e}, ReflTransGen (parser.typed.Leads input) opening m →
    parser.recursion? c.rule = some .none → m.state.memo.get? c = some e → e.reentered = false ∧ e.provisional = false
  /-- In work that is finished, there are no two ways to evaluations of the body of such a call. -/
  once : ∀ {c s path path' m m'}, parser.recursion? c.rule = some .none → parser.typed.Finishes input opening s →
    Way parser.typed input opening path m → m.Evaluates c → Way parser.typed input opening path' m' → m'.Evaluates c →
      path = path'
  recorded : ∀ {c s path m}, parser.recursion? c.rule = some .none → parser.typed.Finishes input opening s →
    Way parser.typed input opening path m → m.Evaluates c →
      opening.state.memo.get? c = none ∧ ∃ e, s.memo.get? c = some e
  lasts : ∀ {c e s}, parser.recursion? c.rule = some .none → parser.typed.Finishes input opening s →
    opening.state.memo.get? c = some e → ∃ e', s.memo.get? c = some e'

variable {g : Grammar} {actions : List (String × Action)} {parser : Parser} {input : Input} {s : Parse}

theorem left_recursion_covers (compiled : Reporting.Gives (ofGrammar g actions) parser)
    (reached : Completed parser.typed input s) (name : String) (i : Int) :
    parser.Covers input (parser.typed.opening input name i s) := by
  have faithful : parser.typed.Faithful := faithful_of_ofGrammar compiled
  have invariant := Parse.marks_invariant parser.typed input
  have lasting := invariant.lasting faithful
  obtain ⟨coherent, proper⟩ := reached.coherent faithful
  have opened : Sound parser.typed input i [] (parser.typed.opening input name i s) :=
    TypedGrammar.sound_opening coherent proper
  have marks : s.Marks parser.typed.grammar := reached.lasting faithful lasting fun _ _ _ found => by cases found
  have still : ∀ {c}, ¬ (parser.typed.opening input name i s).Grows c := fun ⟨_, _, _, work⟩ => by cases work
  refine ⟨?_, ?_, ?_, ?_, ?_⟩
  · intro depth rule j t e leads found unsettled
    obtain ⟨stack, sound⟩ := opened.steps faithful leads
    obtain ⟨above, below, split, deep, frames⟩ := sound.coherent.exists_frames sound.placed.1 found unsettled
    obtain ⟨_, itself, _⟩ := frames _ List.mem_cons_self
    obtain ⟨cycle, listed, within⟩ := exists_cycle compiled itself
    refine ⟨above, below, sound.coherent.calls.trans split, deep, cycle, listed, fun d member => ?_⟩
    obtain ⟨same, there, back⟩ := frames d member
    exact ⟨same, within d.rule there.to_reflTransGen back.to_reflTransGen⟩
  · intro m c e leads none found
    have straight := not_reaches_self compiled none
    have unmarked := mt (opened.lasting_steps faithful lasting marks leads c e found) straight
    simpa [not_or] using unmarked
  · intro c s' path path' m m' none finishes way evaluates way' evaluates'
    exact opened.way_unique faithful (not_reaches_self compiled none) marks still finishes way evaluates way' evaluates'
  · intro c s' path m none finishes way evaluates
    have straight := not_reaches_self compiled none
    refine ⟨?_, (opened.known_of_way faithful straight marks way evaluates finishes).2⟩
    cases found : (parser.typed.opening input name i s).state.memo.get? c with
    | none => rfl
    | some e =>
      refine absurd evaluates (opened.not_evaluates_of_way faithful straight ⟨marks, e, found⟩ still way ?_)
      rintro rfl
      cases way
      obtain ⟨⟨typed, work⟩, _⟩ := evaluates
      cases work
  · intro c e s' none finishes found
    have known := (Parse.known_invariant (not_reaches_self compiled none) input).lasting faithful
    exact (opened.lasting_run faithful known ⟨marks, e, found⟩ finishes).2.2

theorem items_covered : ∃ parser s, Reporting.Gives (ofGrammar TypedGrammar.items.grammar []) parser ∧
    Completed parser.typed (.text #['a', 'x']) {} ∧
    (∃ depth t e, ReflTransGen (parser.typed.Leads (.text #['a', 'x']))
        (parser.typed.opening (.text #['a', 'x']) "list" 0 {}) ⟨depth, .call "list", 0, t⟩ ∧
      t.memo.get? ⟨0, "list"⟩ = some e ∧ e.settled = false) ∧
    parser.recursion? "item" = some .none ∧
    parser.typed.Finishes (.text #['a', 'x']) (parser.typed.opening (.text #['a', 'x']) "list" 0 {}) s ∧
    (∃ path m, Way parser.typed (.text #['a', 'x']) (parser.typed.opening (.text #['a', 'x']) "list" 0 {}) path m ∧
      m.Evaluates ⟨0, "item"⟩) ∧
    parser.Covers (.text #['a', 'x']) (parser.typed.opening (.text #['a', 'x']) "list" 0 {}) := by
  have compiled : ∃ parser, Reporting.Gives (ofGrammar TypedGrammar.items.grammar []) parser := ⟨_, [], _, rfl⟩
  obtain ⟨parser, compiled⟩ := compiled
  have covers : parser.Covers (.text #['a', 'x']) (parser.typed.opening (.text #['a', 'x']) "list" 0 {}) :=
    left_recursion_covers compiled (.fresh []) "list" 0
  have none : parser.recursion? "item" = some .none := by
    rw [recursion?_of_mem compiled (by decide)]
    decide
  have same : parser.typed = TypedGrammar.items := by
    obtain ⟨grammar, typed, _⟩ := parts_of_ofGrammar compiled
    have rules : TypedGrammar.items.typedRules = parser.typed.typedRules := Except.ok.inj typed
    have parts : parser.typed = ⟨parser.grammar, parser.typed.typedRules⟩ := rfl
    rw [parts, grammar, ← rules]
  have again : ∃ depth t e, ReflTransGen (TypedGrammar.items.Leads (.text #['a', 'x']))
      (TypedGrammar.items.opening (.text #['a', 'x']) "list" 0 {}) ⟨depth, .call "list", 0, t⟩ ∧
        t.memo.get? ⟨0, "list"⟩ = some e ∧ e.settled = false :=
    ⟨_, _, _, .head (.body rfl rfl) (.head .productions (.head .production (.head .item (.single (.reference rfl))))),
      rfl, rfl⟩
  have finishes : ∃ s, TypedGrammar.items.Finishes (.text #['a', 'x'])
      (TypedGrammar.items.opening (.text #['a', 'x']) "list" 0 {}) s := by
    refine ⟨_, Run.EndsIn.single.mpr ⟨_, Prod.mk.eta.symm, ended_of_stop? (?_ : stop? _ = some 2)⟩⟩
    decide +kernel
  have way : ∃ path m, Way TypedGrammar.items (.text #['a', 'x'])
      (TypedGrammar.items.opening (.text #['a', 'x']) "list" 0 {}) path m ∧ m.Evaluates ⟨0, "item"⟩ := by
    refine ⟨_, _, .next (.body rfl rfl) (.next .productions (.next (.nextProduction (TypedGrammar.eq_failed ?_))
      (.next .production (.next .item (.next (.reference rfl) (.next (.body ?_ rfl) (.here _))))))), ⟨_, rfl⟩, ?_⟩
    · decide +kernel
    · decide +kernel
    · decide +kernel
  obtain ⟨s, finishes⟩ := finishes
  exact ⟨parser, s, compiled, .fresh [], same ▸ again, none, same ▸ finishes, same ▸ way, covers⟩

end Parser

end Packrat
