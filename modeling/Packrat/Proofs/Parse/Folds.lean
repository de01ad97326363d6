import Packrat.Proofs.Parse.Order

namespace Packrat

open Filter Relation

namespace Expr

def isCallOf (name : String) : Expr → Bool
  | .reference other => other == name
  | .bind _ item => isCallOf name item
  | _ => false

def beginsWith (name : String) : List Expr → Bool
  | [] => false
  | first :: _ => isCallOf name first

variable {name : String} {nullable isRule : String → Bool}

theorem laidOpen_of_isCallOf {e : Expr} (call : isCallOf name e = true) : laidOpen e = [e] := by
  cases e with
  | reference | bind => rfl
  | _ => cases call

theorem beginsWith_allLaidOpen {items : List Expr} (begins : beginsWith name items = true) :
    beginsWith name (allLaidOpen items) = true := by
  cases items with
  | nil => cases begins
  | cons first rest =>
    rw [allLaidOpen, laidOpen_of_isCallOf begins]
    exact begins

theorem mem_leftCallees_of_isCallOf {e : Expr} (listed : isRule name = true) (call : isCallOf name e = true) :
    name ∈ leftCallees nullable isRule e := by
  induction e using isCallOf.induct with
  | case1 other =>
    obtain rfl := beq_iff_eq.mp call
    simp [leftCallees, listed]
  | case2 _ item ih =>
    rw [leftCallees]
    exact ih call
  | case3 e others => cases e <;> simp_all [isCallOf]

end Expr

/-- A production with such items does not come back to the rule where it starts, and it consumes input. -/
structure Grammar.Base (g : Grammar) (name : String) (items : List Expr) : Prop where
  apart : name ∉ (Goal.items items).callees g
  consumes : Expr.allNullable (fun n => n ∈ g.nullableRules) items = false

namespace Grammar.Base

variable {g : Grammar} {name : String} {items : List Expr}

theorem not_beginsWith (base : g.Base name items) (listed : name ∈ g.ruleNames) :
    Expr.beginsWith name items = false := by
  cases items with
  | nil => rfl
  | cons first rest =>
    by_contra call
    apply base.apart
    refine Expr.mem_sequenceCallees_cons.mpr (.inl (Expr.mem_leftCallees_of_isCallOf (decide_eq_true listed) ?_))
    simpa [Expr.beginsWith] using call

theorem allLaidOpen (base : g.Base name items) : g.Base name (Expr.allLaidOpen items) := by
  refine ⟨fun member => base.apart ?_, ?_⟩
  · exact (Expr.mem_sequenceCallees_allLaidOpen items).mp member
  · rw [Expr.allNullable_allLaidOpen]
    exact base.consumes

end Grammar.Base

def TypedProduction.begins (name : String) (q : TypedProduction) : Bool := Expr.beginsWith name q.items

namespace TypedGrammar

def attempt (p : TypedGrammar) (input : Input) (i : Int) (q : TypedProduction) : Outcome Value :=
  (p.production input (p.apply input) q i .unlimited {}).1

/-- What a production makes of a value as its first item and of the other items behind it. -/
def extension (p : TypedGrammar) (input : Input) (i : Int) (q : TypedProduction) (v : Value) (stop : Int) :
    Outcome Value :=
  ((p.evaluateAll input (p.apply input) q.items.tail stop).andThen fun vs stop => finish q i (v :: vs) stop)
    .unlimited {} |>.1

def extended (p : TypedGrammar) (input : Input) (i : Int) : List TypedProduction → Value → Int → Outcome Value
  | [], _, _ => .failed
  | q :: rest, v, stop =>
    match p.extension input i q v stop with
    | .failed => extended p input i rest v stop
    | o => o

/-- What a value comes to that is extended for as long as the match gets longer. -/
inductive Folds (p : TypedGrammar) (input : Input) (i : Int) (productions : List TypedProduction) :
    Value → Int → Outcome Value → Prop where
  | ended {v stop} (failed : p.extended input i productions v stop = .failed) :
    Folds p input i productions v stop (.matched v stop)
  | still {v stop v' stop'} (matched : p.extended input i productions v stop = .matched v' stop')
    (short : stop' ≤ stop) : Folds p input i productions v stop (.matched v stop)
  | halted {v stop h} (halted : p.extended input i productions v stop = .halted h) :
    Folds p input i productions v stop (.halted h)
  | longer {v stop v' stop' o} (matched : p.extended input i productions v stop = .matched v' stop')
    (longer : stop < stop') (rest : Folds p input i productions v' stop' o) : Folds p input i productions v stop o

variable {p : TypedGrammar} {input : Input} {i : Int}

theorem Folds.unique {productions : List TypedProduction} {v : Value} {stop : Int} {o o' : Outcome Value}
    (first : p.Folds input i productions v stop o) (second : p.Folds input i productions v stop o') : o' = o := by
  induction first with
  | ended failed =>
    cases second with
    | ended => rfl
    | still => rfl
    | halted other | longer other =>
      rw [failed] at other
      cases other
  | still matched short =>
    cases second with
    | ended => rfl
    | still => rfl
    | halted other =>
      rw [matched] at other
      cases other
    | longer other longer =>
      rw [matched] at other
      cases other
      exact absurd longer (Int.not_lt.mpr short)
  | halted halted =>
    cases second with
    | halted other =>
      rw [halted] at other
      cases other
      rfl
    | ended other | still other | longer other =>
      rw [halted] at other
      cases other
  | longer matched longer _ ih =>
    cases second with
    | longer other _ rest =>
      rw [matched] at other
      cases other
      exact ih rest
    | still other short =>
      rw [matched] at other
      cases other
      exact absurd longer (Int.not_lt.mpr short)
    | ended other | halted other =>
      rw [matched] at other
      cases other

section

variable {call : String → Int → Run Value} {q : TypedProduction} {rest : List TypedProduction} {first : Expr}
  {tail : List Expr} {s s₁ : Parse}

theorem firstProduction_of_failed (failed : p.production input call q i .unlimited s = (.failed, s₁)) :
    p.firstProduction input call (q :: rest) i .unlimited s = p.firstProduction input call rest i .unlimited s₁ := by
  simp only [firstProduction, Run.orElse, failed]

theorem firstProduction_of_ended {o : Outcome Value} (run : p.production input call q i .unlimited s = (o, s₁))
    (ended : o ≠ .failed) : p.firstProduction input call (q :: rest) i .unlimited s = (o, s₁) := by
  simp only [firstProduction, Run.orElse, run]
  cases o with
  | failed => exact absurd rfl ended
  | matched | halted => rfl

theorem production_of_matched {v : Value} {stop : Int} (items : q.items = first :: tail)
    (matched : p.evaluate input call first i .unlimited s = (.matched v stop, s₁)) :
    p.production input call q i .unlimited s =
      (p.evaluateAll input call tail stop).andThen (fun vs stop => finish q i (v :: vs) stop) .unlimited s₁ := by
  simp only [production, Run.nested_unlimited, items, evaluateAll, Run.andThen, matched, Run.done]
  cases p.evaluateAll input call tail stop .unlimited s₁ with
  | mk o s₂ => cases o <;> rfl

theorem production_of_failed (items : q.items = first :: tail)
    (failed : p.evaluate input call first i .unlimited s = (.failed, s₁)) :
    p.production input call q i .unlimited s = (.failed, s₁) := by
  simp only [production, Run.nested_unlimited, items, evaluateAll, Run.andThen, failed]

end

namespace Conduct

theorem narrow {R : Parse → Parse → Prop} {H : Halt → Prop} {start : Int} {scope scope' : Scope}
    {call : String → Int → Run Value} {calls : Nat → String → Int → Run Value}
    (conduct : Conduct p input R H start scope call calls) (refers : ∀ name, scope'.refers name → scope.refers name)
    (first : ∀ name, scope'.first name → scope.first name) : Conduct p input R H start scope' call calls := by
  refine ⟨conduct.faithful, conduct.blind, conduct.halts, fun behind before refers' first' => ?_⟩
  exact conduct.tracks behind before (refers _ refers') fun here => first _ (first' here)

end Conduct

end TypedGrammar

namespace Call

def Off (g : Grammar) (c d : Call) : Prop :=
  d.start < c.start ∨ (c.start = d.start ∧ ¬ ReflTransGen g.LeftCalls c.rule d.rule)

variable {g : Grammar} {c inner outer : Call}

theorem not_off_self : ¬ c.Off g c := by
  intro off
  rcases off with further | ⟨_, apart⟩
  · omega
  · exact apart .refl

theorem Off.inside (off : outer.Off g c) (follows : inner.Follows g outer) : inner.Off g c := by
  have behind := follows.behind
  rcases off with further | ⟨here, apart⟩
  · exact .inl (by omega)
  · rcases Int.lt_or_eq_of_le behind with further | same
    · exact .inl (by omega)
    · refine .inr ⟨by omega, fun reaches => apart (.head ?_ reaches)⟩
      exact follows.first same.symm

end Call

def Grammar.beside (g : Grammar) (name : String) : Scope :=
  ⟨g.Refers name, fun other => g.LeftCalls name other ∧ ¬ ReflTransGen g.LeftCalls other name⟩

theorem Call.off_of_beside {g : Grammar} {c : Call} {name : String} {j : Int} (behind : c.start ≤ j)
    (first : j = c.start → (g.beside c.rule).first name) : Call.Off g ⟨j, name⟩ c := by
  rcases Int.lt_or_eq_of_le behind with further | here
  · exact .inl further
  · exact .inr ⟨here.symm, (first here.symm).2⟩

theorem TypedGrammar.conduct_anew {p : TypedGrammar} {input : Input} (faithful : p.Faithful)
    (tangles : Tangles p.grammar fun _ => False) (c : Call) :
    TypedGrammar.Conduct p input (Accords p input (fun _ => False) (·.Off p.grammar c) [] {} [])
      (· ≠ .exhausted) c.start
      (p.grammar.beside c.rule) (p.apply input) (p.apartWithin input fun _ => False) := by
  refine ⟨faithful, Accords.blind _ _, fun _ other => other, fun {name j} behind before refers first _ => ?_⟩
  have answering := TypedGrammar.answering_apart faithful tangles input j (·.Off p.grammar c) []
    (fun off follows => off.inside follows) fun _ member => nomatch member
  exact answering.tracks_apply {} (Call.off_of_beside behind first)

structure Inner (p : TypedGrammar) (input : Input) (c : Call) (typed : TypedRule) (depth : Nat) (seed : Result)
    (s : Parse) : Prop where
  sound : Sound p input c.start [c] ⟨depth, .body typed, c.start, s⟩
  regular : Regular p input (fun _ => False) s
  seeded : ∃ e, s.memo.get? c = some e ∧ e.result = seed

namespace Inner

variable {p : TypedGrammar} {input : Input} {c : Call} {typed : TypedRule} {depth : Nat} {seed : Result}
  {s s' : Parse} {α : Type}

theorem next {t t' : Parse} (inner : Inner p input c typed depth seed s) (agree : Agree (Twin p input s [c]) s t s' t')
    (regular : Regular p input (fun _ => False) s') :
    Inner p input c typed depth seed s' ∧ (s.isReentered c = true → s'.isReentered c = true) := by
  obtain ⟨e, found, rfl⟩ := inner.seeded
  obtain ⟨e', found', marked⟩ := agree.related.later.pending List.mem_cons_self found
  obtain ⟨again, provisional, rfl⟩ := marked
  refine ⟨⟨inner.sound.next agree inner.sound.placed, regular, _, found', rfl⟩, fun reentered => ?_⟩
  simp only [Parse.isReentered, found, found', Option.map_some, Option.getD_some] at reentered ⊢
  simp [reentered]

theorem conduct (faithful : p.Faithful) (tangles : Tangles p.grammar fun _ => False)
    (inner : Inner p input c typed depth seed s) :
    TypedGrammar.Conduct p input (Accords p input (fun _ => False) (·.Off p.grammar c) [c] s [c])
      (· ≠ .exhausted) c.start
      (p.grammar.beside c.rule) (p.callWithin input depth) (p.apartWithin input fun _ => False) := by
  have sound := inner.sound
  have outside : ∀ d ∈ [c], ¬ d.Off p.grammar c := by
    intro d member
    rw [List.mem_singleton.mp member]
    exact Call.not_off_self
  have answering := TypedGrammar.answering_apart faithful tangles input c.start (·.Off p.grammar c) [c]
    (fun off follows => off.inside follows) outside
  refine ⟨faithful, answering.blind _ _, answering.halts, fun {name j} behind before refers first _ => ?_⟩
  have ⟨least, most⟩ := sound.standing.within c List.mem_cons_self
  have follows : Call.Follows p.grammar ⟨j, name⟩ c := ⟨behind, refers, fun here => (first here).1⟩
  exact answering.tracks (Call.off_of_beside behind first) sound.standing (.cons_cons follows sound.standing.chain)
    ⟨behind, by dsimp only; omega⟩ sound.enough

theorem same (faithful : p.Faithful) (tangles : Tangles p.grammar fun _ => False)
    (inner : Inner p input c typed depth seed s) {w : (String → Int → Run Value) → Run α} {Q : α → Int → Prop}
    (tracks : ∀ {R : Parse → Parse → Prop} {call : String → Int → Run Value} {calls : Nat → String → Int → Run Value},
      TypedGrammar.Conduct p input R (· ≠ .exhausted) c.start (p.grammar.beside c.rule) call calls →
        Tracks R (· ≠ .exhausted) Q (w call) fun d => w (calls d)) :
    ∃ o s' fresh, w (p.callWithin input depth) .unlimited s = (o, s') ∧ w (p.apply input) .unlimited {} = (o, fresh) ∧
      (∀ a stop, o = .matched a stop → Q a stop) ∧ ((∀ h, o ≠ .halted h) →
        Inner p input c typed depth seed s' ∧ (s.isReentered c = true → s'.isReentered c = true)) := by
  have sound := inner.sound
  -- Inside the call nothing is on record for the parse apart, and on a fresh state neither.
  have apart : Accords p input (fun _ => False) (·.Off p.grammar c) [c] s [c] s {} :=
    ⟨sound.coherent, inner.regular, .among (List.nil_append [c]).symm (by simp) rfl
      ⟨.nil, fun _ knotty => knotty.elim, fun _ _ => rfl⟩⟩
  have fresh : Accords p input (fun _ => False) (·.Off p.grammar c) [] {} [] {} {} :=
    ⟨.initial [], ⟨fun _ found => by cases found⟩, .among (List.append_nil []).symm (by simp) rfl
      ⟨.nil, fun _ _ => rfl, fun _ _ => rfl⟩⟩
  obtain ⟨o, s₁, t₁, run, runs, ends⟩ :=
    tracks (inner.conduct faithful tangles) s {} apart sound.proper Failures.proper_none
  obtain ⟨o', s₂, t₂, run', runs', _⟩ :=
    tracks (TypedGrammar.conduct_anew faithful tangles c) {} {} fresh Failures.proper_none Failures.proper_none
  obtain ⟨d, here, there⟩ := (runs.and runs').exists
  rw [here] at there
  cases there
  have twin : TypedGrammar.Conduct p input (Twin p input s [c]) (· ≠ .exhausted) c.start (p.grammar.beside c.rule)
      (p.callWithin input depth) fun d => p.callWithin input d :=
    (sound.conduct faithful s).narrow (fun _ => id) fun _ first => first.1
  obtain ⟨o', s₃, t₃, again, _, later⟩ := tracks twin s s sound.twin sound.proper sound.proper
  rw [run] at again
  cases again
  refine ⟨o, s₁, s₂, run, run', ?_, fun ended => ?_⟩
  · rintro a stop rfl
    cases ends with
    | matched _ holds => exact holds
  · cases ends with
    | halted => exact absurd rfl (ended _)
    | failed agree =>
      cases later with
      | failed twin => exact inner.next twin agree.related.regular
    | matched agree =>
      cases later with
      | matched twin => exact inner.next twin agree.related.regular

theorem answered {r : Rule} {e : Expr} (inner : Inner p input c typed depth seed s)
    (found : p.grammar.rule? c.rule = some r) (call : e.isCallOf c.rule = true) :
    ∃ s', p.evaluate input (p.callWithin input depth) e c.start .unlimited s = (.ofResult seed, s') ∧
      Inner p input c typed depth seed s' ∧ s'.isReentered c = true := by
  have sound := inner.sound
  obtain ⟨e₀, found₀, rfl⟩ := inner.seeded
  have unsettled := sound.coherent.unsettled_of_mem List.mem_cons_self found₀
  have answered : p.callWithin input depth c.rule c.start .unlimited s = (.ofResult e₀.result, s.answered e₀) :=
    (TypedGrammar.callWithin_of_found found₀ depth).trans (reuse_eq e₀ .unlimited s)
  have again : (s.answered e₀).isReentered c = true := by
    unfold Parse.isReentered
    rw [Parse.get?_answered unsettled, found₀]
    simp [Memo.call_of_get? found₀]
  have same := Parse.failures_answered (s := s) unsettled
  have agree : Agree (Twin p input s [c]) s s (s.answered e₀) (s.answered e₀) :=
    .stay (sound.twin.answered found₀) sound.proper sound.proper same same
  refine ⟨s.answered e₀, ?_, (inner.next agree (inner.regular.answered e₀)).1, again⟩
  · induction e using Expr.isCallOf.induct with
    | case1 other =>
      obtain rfl := beq_iff_eq.mp call
      simp only [TypedGrammar.evaluate, found, Run.nested_unlimited]
      exact answered
    | case2 _ item ih =>
      rw [TypedGrammar.evaluate]
      exact ih call
    | case3 e others => cases e <;> simp_all [Expr.isCallOf]

def answer (p : TypedGrammar) (input : Input) (i : Int) (productions : List TypedProduction) : Result → Outcome Value
  | some (v, stop) => p.extended input i productions v stop
  | none => .failed

theorem base (faithful : p.Faithful) (tangles : Tangles p.grammar fun _ => False)
    (inner : Inner p input c typed depth seed s) {q : TypedProduction} (listed : q ∈ typed.productions)
    (base : p.grammar.Base c.rule q.items) :
    ∃ o s', p.production input (p.callWithin input depth) q c.start .unlimited s = (o, s') ∧
      p.attempt input c.start q = o ∧
      (∀ v stop, o = .matched v stop → c.start < stop) ∧ ((∀ h, o ≠ .halted h) →
        Inner p input c typed depth seed s' ∧ (s.isReentered c = true → s'.isReentered c = true)) := by
  obtain ⟨_, _, split, known, _⟩ := inner.sound.placed
  cases split
  have whole : TypedGrammar.Inside p.grammar input c.start (p.grammar.scope c.rule) (.items q.items) c.start :=
    TypedGrammar.Conduct.inside_production faithful known listed c.start
  have inside : TypedGrammar.Inside p.grammar input c.start (p.grammar.beside c.rule) (.items q.items) c.start := by
    refine ⟨whole.behind, whole.within, whole.refers, fun here name called => ⟨whole.first here name called, ?_⟩⟩
    intro reaches
    have other : name ≠ c.rule := fun same => base.apart (same ▸ called)
    have back : TransGen p.grammar.LeftCalls name c.rule := by
      rcases reflTransGen_iff_eq_or_transGen.mp reaches with same | reaches
      · exact absurd same.symm other
      · exact reaches
    exact other (tangles.alone id (.single (whole.first here name called)) back)
  obtain ⟨o, s', fresh, run, run', derived, next⟩ :=
    inner.same faithful tangles fun conduct => conduct.production inside
  refine ⟨o, s', run, by rw [TypedGrammar.attempt, run'], fun v stop matched => ?_, next⟩
  obtain ⟨vs, derived, _⟩ := derived v stop matched
  -- A match of nothing is one that a nullable production makes.
  refine lt_of_le_of_ne derived.le_stop fun stay => ?_
  have empty := derived.void faithful stay.symm
  simp only [Goal.Void, base.consumes] at empty
  cases empty

theorem recursive (faithful : p.Faithful) (tangles : Tangles p.grammar fun _ => False) {r : Rule}
    (found : p.grammar.rule? c.rule = some r) (inner : Inner p input c typed depth seed s)
    (ahead : ∀ v stop, seed = some (v, stop) → c.start < stop ∧ stop ≤ max c.start input.size) {q : TypedProduction}
    (listed : q ∈ typed.productions) (begins : q.begins c.rule = true) :
    ∃ o s', p.production input (p.callWithin input depth) q c.start .unlimited s = (o, s') ∧
      answer p input c.start [q] seed = o ∧
      ((∀ h, o ≠ .halted h) → Inner p input c typed depth seed s' ∧ s'.isReentered c = true) := by
  obtain ⟨_, _, split, known, _⟩ := inner.sound.placed
  cases split
  have whole : TypedGrammar.Inside p.grammar input c.start (p.grammar.scope c.rule) (.items q.items) c.start :=
    TypedGrammar.Conduct.inside_production faithful known listed c.start
  cases items : q.items with
  | nil =>
    rw [TypedProduction.begins, items] at begins
    cases begins
  | cons first tail =>
    rw [TypedProduction.begins, items] at begins
    rw [items] at whole
    obtain ⟨s₁, called, inner₁, again⟩ := inner.answered found begins
    cases seed with
    | none =>
      exact ⟨.failed, s₁, TypedGrammar.production_of_failed items called, rfl, fun _ => ⟨inner₁, again⟩⟩
    | some seed =>
      obtain ⟨v, stop⟩ := seed
      obtain ⟨further, bounded⟩ := ahead v stop rfl
      have inside : TypedGrammar.Inside p.grammar input c.start (p.grammar.beside c.rule) (.items tail) stop := by
        refine ⟨by omega, bounded, fun name member => whole.refers name (List.mem_append_right _ member),
          fun here => ?_⟩
        omega
      obtain ⟨o, s', fresh, run, run', _, next⟩ := inner₁.same faithful tangles (Q := fun _ _ => True)
        (w := fun call => (p.evaluateAll input call tail stop).andThen fun vs stop =>
          TypedGrammar.finish q c.start (v :: vs) stop)
        fun conduct => .andThen (conduct.evaluateAll tail stop inside) fun vs stop _ =>
          (TypedGrammar.Conduct.finish conduct.blind conduct.halts).weaken fun _ _ _ => trivial
      refine ⟨o, s', (TypedGrammar.production_of_matched items called).trans run, ?_,
        fun ended => ⟨(next ended).1, (next ended).2 again⟩⟩
      simp only [answer, TypedGrammar.extended, TypedGrammar.extension, items, List.tail_cons, run']
      cases o <;> rfl

theorem answer_cons {q : TypedProduction} {rest : List TypedProduction} {i : Int} {o : Outcome Value}
    (made : answer p input i [q] seed = o) :
    (o = .failed → answer p input i (q :: rest) seed = answer p input i rest seed) ∧
      (o ≠ .failed → answer p input i (q :: rest) seed = o) := by
  cases seed with
  | none =>
    subst made
    exact ⟨fun _ => rfl, fun ended => absurd rfl ended⟩
  | some seed =>
    simp only [answer, TypedGrammar.extended] at made ⊢
    subst made
    cases p.extension input i q seed.1 seed.2 <;> simp

/-- How productions come out in turn, of which the one that ends the choice begins with the rule, if any does. -/
inductive Passed (p : TypedGrammar) (input : Input) (c : Call) (typed : TypedRule) (depth : Nat) (seed : Result)
    (qs : List TypedProduction) (s : Parse) : Prop where
  | on {t : Parse} (none : answer p input c.start (qs.filter (·.begins c.rule)) seed = .failed)
    (run : ∀ rest, p.firstProduction input (p.callWithin input depth) (qs ++ rest) c.start .unlimited s =
      p.firstProduction input (p.callWithin input depth) rest c.start .unlimited t)
    (inner : Inner p input c typed depth seed t)
    (marks : s.isReentered c = true ∨ (∃ q ∈ qs, q.begins c.rule = true) → t.isReentered c = true)
  | decided {o : Outcome Value} {t : Parse} (ended : o ≠ .failed)
    (some : answer p input c.start (qs.filter (·.begins c.rule)) seed = o)
    (run : ∀ rest, p.firstProduction input (p.callWithin input depth) (qs ++ rest) c.start .unlimited s = (o, t))
    (inner : (∀ h, o ≠ .halted h) → Inner p input c typed depth seed t)

theorem Passed.cons {q : TypedProduction} {qs : List TypedProduction} {s₁ : Parse}
    (failed : p.production input (p.callWithin input depth) q c.start .unlimited s = (.failed, s₁))
    (same : answer p input c.start ((q :: qs).filter (·.begins c.rule)) seed =
      answer p input c.start (qs.filter (·.begins c.rule)) seed)
    (marks : s.isReentered c = true ∨ q.begins c.rule = true → s₁.isReentered c = true)
    (passed : Passed p input c typed depth seed qs s₁) : Passed p input c typed depth seed (q :: qs) s := by
  cases passed with
  | on none run inner marks' =>
    refine .on (same.trans none) (fun rest => (TypedGrammar.firstProduction_of_failed failed).trans (run rest)) inner ?_
    rintro (marked | ⟨q', member, begins⟩)
    · exact marks' (.inl (marks (.inl marked)))
    · rcases List.mem_cons.mp member with rfl | member
      · exact marks' (.inl (marks (.inr begins)))
      · exact marks' (.inr ⟨q', member, begins⟩)
  | decided ended some run inner =>
    exact .decided ended (same.trans some)
      (fun rest => (TypedGrammar.firstProduction_of_failed failed).trans (run rest)) inner

section

variable {r : Rule} (faithful : p.Faithful) (tangles : Tangles p.grammar fun _ => False)
  (found : p.grammar.rule? c.rule = some r)
  (sorts : ∀ q ∈ typed.productions, q.begins c.rule = false → p.grammar.Base c.rule q.items)

include faithful tangles found sorts

theorem passed (inner : Inner p input c typed depth seed s)
    (ahead : ∀ v stop, seed = some (v, stop) → c.start < stop ∧ stop ≤ max c.start input.size)
    {qs : List TypedProduction} (listed : qs ⊆ typed.productions)
    (failing : ∀ q ∈ qs, q.begins c.rule = false →
      p.attempt input c.start q = .failed) :
    Passed p input c typed depth seed qs s := by
  induction qs generalizing s with
  | nil =>
    refine .on ?_ (fun rest => rfl) inner fun marked => by simpa using marked
    cases seed <;> rfl
  | cons q qs ih =>
    have here := listed List.mem_cons_self
    have rest := fun {s' : Parse} (inner' : Inner p input c typed depth seed s') =>
      ih inner' (List.subset_of_cons_subset listed) fun q' member => failing q' (List.mem_cons_of_mem _ member)
    cases begins : q.begins c.rule with
    | false =>
      obtain ⟨o, s₁, run, fresh, _, next⟩ := inner.base faithful tangles here (sorts q here begins)
      rw [failing q List.mem_cons_self begins] at fresh
      subst fresh
      obtain ⟨inner₁, again⟩ := next nofun
      refine (rest inner₁).cons run (by rw [List.filter_cons_of_neg (by simp [begins])]) ?_
      simpa [begins] using again
    | true =>
      obtain ⟨o, s₁, run, made, next⟩ := inner.recursive faithful tangles found ahead here begins
      have filtered : (q :: qs).filter (·.begins c.rule) = q :: qs.filter (·.begins c.rule) :=
        List.filter_cons_of_pos begins
      by_cases failed : o = .failed
      · obtain ⟨inner₁, again⟩ := next (by simp [failed])
        exact (rest inner₁).cons (failed ▸ run) (filtered ▸ (answer_cons made).1 failed) fun _ => again
      · exact .decided failed (filtered ▸ (answer_cons made).2 failed)
          (fun others => TypedGrammar.firstProduction_of_ended run failed) fun ended => (next ended).1

theorem folds {left : Nat} {v v₀ : Value} {stop stop₀ : Int} {k : TypedProduction} {before after : List TypedProduction}
    (unnamed : typed.errorName = none)
    (sound : Sound p input c.start [c] ⟨depth, .growth c typed left v, stop, s⟩)
    (regular : Regular p input (fun _ => False) s) (split : typed.productions = before ++ k :: after)
    (base : k.begins c.rule = false)
    (failing : ∀ q ∈ before, q.begins c.rule = false →
      p.attempt input c.start q = .failed)
    (matched : p.attempt input c.start k = .matched v₀ stop₀)
    (short : stop₀ ≤ stop) (further : c.start < stop) :
    p.Folds input c.start (before.filter (·.begins c.rule)) v stop
      (growFrom (p.body input (p.callWithin input depth) typed c.start) c left v stop .unlimited s).1 := by
  induction left generalizing v stop s with
  | zero =>
    obtain ⟨_, _, _, _, enough⟩ := sound.placed
    cases enough
  | succ left ih =>
    obtain ⟨below, same, known, derived, enough⟩ := sound.placed
    have seeded : ∃ e, (s.plantSeed c v stop).memo.get? c = some e ∧ e.result = some (v, stop) := by
      obtain ⟨e, found, _⟩ := sound.coherent.found_of_mem List.mem_cons_self
      exact ⟨_, by rw [Parse.get?_plantSeed, if_pos rfl, found]; rfl, rfl⟩
    have inner : Inner p input c typed depth (some (v, stop)) (s.plantSeed c v stop) :=
      ⟨sound.plant, regular.plantSeed sound.coherent v stop, seeded⟩
    have ahead : ∀ w stop', some (v, stop) = some (w, stop') → c.start < stop' ∧ stop' ≤ max c.start input.size := by
      intro w stop' here
      cases here
      exact ⟨further, derived.stop_le⟩
    have listed : before ⊆ typed.productions := split ▸ List.subset_append_left before (k :: after)
    have body : p.body input (p.callWithin input depth) typed c.start .unlimited =
        p.firstProduction input (p.callWithin input depth) (before ++ k :: after) c.start .unlimited := by
      simp only [TypedGrammar.body, unnamed, Run.nested_unlimited, split]
    cases inner.passed faithful tangles found sorts ahead listed failing with
    | on none run inner₁ _ =>
      -- None of the recursive productions goes on, so the base matches again, no further than the seed.
      have last : k ∈ typed.productions := by simp [split]
      obtain ⟨o, s₂, run₁, fresh, _⟩ := inner₁.base faithful tangles last (sorts k last base)
      rw [matched] at fresh
      subst fresh
      have round : p.body input (p.callWithin input depth) typed c.start .unlimited (s.plantSeed c v stop) =
          (.matched v₀ stop₀, s₂) := by
        rw [body, run, TypedGrammar.firstProduction_of_ended run₁ fun same => by cases same]
      simp only [growFrom, round, if_pos short]
      exact .ended none
    | @decided o s₁ ended extended run inner₁ =>
      have round : p.body input (p.callWithin input depth) typed c.start .unlimited (s.plantSeed c v stop) =
        (o, s₁) := by
        rw [body, run]
      cases o with
      | failed => exact absurd rfl ended
      | halted h =>
        simp only [growFrom, round]
        exact .halted extended
      | matched v' stop' =>
        by_cases still : stop' ≤ stop
        · simp only [growFrom, round, if_pos still]
          exact .still extended still
        · simp only [growFrom, round, if_neg still]
          have longer : stop < stop' := Int.not_le.mp still
          have inner₂ := inner₁ fun _ same => by cases same
          refine .longer extended longer (ih (sound.longer faithful round longer) inner₂.regular ?_ ?_)
          · exact Int.le_trans short (Int.le_of_lt longer)
          · exact Int.lt_trans further longer

theorem body_failed (unnamed : typed.errorName = none) (inner : Inner p input c typed depth none s)
    (failing : ∀ q ∈ typed.productions, q.begins c.rule = false → p.attempt input c.start q = .failed) :
    ∃ s', p.body input (p.callWithin input depth) typed c.start .unlimited s = (.failed, s') := by
  cases inner.passed faithful tangles found sorts nofun (List.Subset.refl _) failing with
  | on _ run =>
    have whole := run []
    rw [List.append_nil] at whole
    simp only [TypedGrammar.body, unnamed, Run.nested_unlimited, whole]
    exact ⟨_, rfl⟩
  | decided ended some => exact absurd some.symm ended

theorem body_attempted {k : TypedProduction} {before after : List TypedProduction} (unnamed : typed.errorName = none)
    (inner : Inner p input c typed depth none s) (split : typed.productions = before ++ k :: after)
    (base : k.begins c.rule = false)
    (failing : ∀ q ∈ before, q.begins c.rule = false → p.attempt input c.start q = .failed)
    (ended : p.attempt input c.start k ≠ .failed) :
    ∃ s', p.body input (p.callWithin input depth) typed c.start .unlimited s = (p.attempt input c.start k, s') ∧
      ∀ v stop, p.attempt input c.start k = .matched v stop → c.start < stop ∧ Inner p input c typed depth none s' ∧
        ((∃ q ∈ before, q.begins c.rule = true) → s'.isReentered c = true) := by
  have listed : before ⊆ typed.productions := split ▸ List.subset_append_left before (k :: after)
  have last : k ∈ typed.productions := by simp [split]
  cases inner.passed faithful tangles found sorts nofun listed failing with
  | on _ run inner₁ marks =>
    obtain ⟨o, s', run₁, rfl, further, next⟩ := inner₁.base faithful tangles last (sorts k last base)
    refine ⟨s', ?_, fun v stop matched => ⟨further v stop matched, ?_⟩⟩
    · simp only [TypedGrammar.body, unnamed, Run.nested_unlimited, split]
      exact (run (k :: after)).trans (TypedGrammar.firstProduction_of_ended run₁ ended)
    · obtain ⟨inner', again⟩ := next (by simp [matched])
      exact ⟨inner', fun begins => again (marks (.inr begins))⟩
  | decided ended some => exact absurd some.symm ended

theorem settled_folds {v : Value} {stop : Int} {k : TypedProduction} {before after : List TypedProduction}
    (unnamed : typed.errorName = none) (inner : Inner p input c typed depth none s)
    (split : typed.productions = before ++ k :: after) (base : k.begins c.rule = false)
    (failing : ∀ q ∈ before, q.begins c.rule = false → p.attempt input c.start q = .failed)
    (matched : p.attempt input c.start k = .matched v stop) :
    p.Folds input c.start (before.filter (·.begins c.rule)) v stop
      ((p.body input (p.callWithin input depth) typed c.start).andThen
        (settle (p.body input (p.callWithin input depth) typed c.start) c input.size) .unlimited s).1 := by
  obtain ⟨s', run, rest⟩ :=
    inner.body_attempted faithful tangles found sorts unnamed split base failing (by simp [matched])
  obtain ⟨further, inner', marks⟩ := rest v stop matched
  rw [matched] at run
  rw [Run.andThen_of_matched run]
  unfold settle
  split
  · obtain ⟨_, _, same, known, _⟩ := inner.sound.placed
    cases same
    obtain ⟨_, _, derived⟩ := inner.sound.body faithful known run
    have sound : Sound p input c.start [c] ⟨depth, .growth c typed ((input.size - stop).toNat + 1) v, stop, s'⟩ :=
      inner'.sound.same ⟨[], rfl, known, derived, Nat.lt_succ_self _⟩
    exact folds faithful tangles found sorts unnamed sound inner'.regular split base failing matched
      (Int.le_refl _) further
  · next once =>
    have none : before.filter (·.begins c.rule) = [] := by
      refine List.filter_eq_nil_iff.mpr fun q member begins => once (marks ⟨q, member, begins⟩)
    rw [none]
    exact .ended rfl

end

end Inner

theorem evaluateCall_fst (body : Run Value) (c : Call) (size : Nat) (s : Parse) :
    (evaluateCall body c size .unlimited s).1 = (body.andThen (settle body c size) .unlimited (s.enter c)).1 := by
  unfold evaluateCall
  rw [Run.inRoomFor_unlimited]
  dsimp only
  split <;> simp_all

namespace TypedGrammar

/-- What a call comes to of a rule with such productions, when nothing is on record: the loop around the first match
of a production that does not begin with the rule. -/
structure Loops (p : TypedGrammar) (input : Input) (name : String) (i : Int) (productions : List TypedProduction)
    (outcome : Outcome Value) : Prop where
  failed : (∀ q ∈ productions, q.begins name = false → p.attempt input i q = .failed) → outcome = .failed
  matched : ∀ {before k after v stop}, productions = before ++ k :: after → k.begins name = false →
    (∀ q ∈ before, q.begins name = false → p.attempt input i q = .failed) → p.attempt input i k = .matched v stop →
      ∀ o, p.Folds input i (before.filter (·.begins name)) v stop o ↔ o = outcome
  halted : ∀ {before k after h}, productions = before ++ k :: after → k.begins name = false →
    (∀ q ∈ before, q.begins name = false → p.attempt input i q = .failed) → p.attempt input i k = .halted h →
      outcome = .halted h

theorem loops {p : TypedGrammar} {input : Input} {name : String} {r : Rule} {typed : TypedRule} (faithful : p.Faithful)
    (tangles : Tangles p.grammar fun _ => False) (found : p.grammar.rule? name = some r)
    (known : p.typed? name = some typed) (unnamed : typed.errorName = none)
    (sorts : ∀ q ∈ typed.productions, q.begins name = false → p.grammar.Base name q.items) (i : Int)
    (events : List Event) :
    p.Loops input name i typed.productions (p.apply input name i .unlimited { events }).1 := by
  let c : Call := ⟨i, name⟩
  let s : Parse := { events }
  have sound : Sound p input i [] (p.opening input name i s) := sound_opening (.initial events) Failures.proper_none
  have regular : Regular p input (fun _ => False) s := ⟨fun _ found => by cases found⟩
  have fresh : s.memo.get? c = none := rfl
  have inner : Inner p input c typed _ none (s.enter c) :=
    ⟨sound.enter fresh known, regular.enter fresh, _, by rw [Parse.get?_enter fresh, if_pos rfl], rfl⟩
  have outcome : (p.apply input name i .unlimited s).1 = _ :=
    (congrArg Prod.fst (callWithin_of_fresh fresh known _)).trans (evaluateCall_fst _ c input.size s)
  refine ⟨fun failing => ?_, fun split base failing matched o => ?_, fun split base failing halted => ?_⟩
  · obtain ⟨s', run⟩ := inner.body_failed faithful tangles found sorts unnamed failing
    rw [outcome, Run.andThen_of_failed run]
  · have folds := inner.settled_folds faithful tangles found sorts unnamed split base failing matched
    rw [outcome]
    exact ⟨folds.unique, fun same => same ▸ folds⟩
  · obtain ⟨s', run, _⟩ := inner.body_attempted faithful tangles found sorts unnamed split base failing
      fun failed => nomatch halted.symm.trans failed
    rw [halted] at run
    rw [outcome, Run.andThen_of_halted run]

end TypedGrammar

namespace Parser

variable {g : Grammar} {actions : List (String × Action)} {parser : Parser}

theorem tangles_of_single (compiled : Reporting.Gives (ofGrammar g actions) parser)
    (single : ∀ cycle ∈ parser.leftRecursion.cycles, ∃ name, cycle = [name]) :
    Tangles parser.typed.grammar fun _ => False := by
  have untangled : parser.Tangled = fun _ => False := by
    funext name
    refine eq_false fun ⟨_, cycle, _, listed, _, long⟩ => ?_
    obtain ⟨only, rfl⟩ := single cycle listed
    exact absurd long (Nat.lt_irrefl 1)
  exact untangled ▸ tangles_tangled compiled

/-- Where no two rules are on a cycle, a rule whose productions begin with the rule or do not come back to it matches as
a loop does: it takes the first match of the latter and goes on with the former, for as long as that gets further. -/
theorem left_recursion_folds (compiled : Reporting.Gives (ofGrammar g actions) parser)
    (single : ∀ cycle ∈ parser.leftRecursion.cycles, ∃ name, cycle = [name]) {r : Rule} (listed : r ∈ g.rules)
    (unnamed : r.errorName = none)
    (sorts : ∀ production ∈ r.productions,
      Expr.beginsWith r.name production.items = true ∨ g.Base r.name production.items) :
    ∃ typed, parser.typed.typed? r.name = some typed ∧
      List.Forall₂ (fun q production => Typing.Reads q production ∧
        q.begins r.name = Expr.beginsWith r.name production.items) typed.productions r.productions ∧
      ∀ input i events,
        parser.typed.Loops input r.name i typed.productions
          (parser.typed.apply input r.name i .unlimited { events }).1 ∧
        ∀ room, parser.typed.apply input r.name i room { events } =
          parser.typed.apply input r.name i .unlimited { events } ∨
          ∃ s, parser.typed.apply input r.name i room { events } = (.halted .nestedTooDeeply, s) := by
  obtain ⟨rfl, accepted, _⟩ := parts_of_ofGrammar compiled
  have faithful : parser.typed.Faithful := faithful_of_ofGrammar compiled
  obtain ⟨typed, known⟩ := (Typing.complete_of_typedRules accepted).known r listed
  have found : parser.typed.grammar.rule? r.name = some r := Grammar.rule?_of_mem listed
  obtain ⟨r', found', describes⟩ := faithful known
  cases found.symm.trans found'
  have same : ∀ {q : TypedProduction} {production : Production}, production ∈ r.productions →
    Typing.Reads q production →
      q.begins r.name = Expr.beginsWith r.name production.items := by
    intro q production source ⟨items, _⟩
    rw [TypedProduction.begins, items]
    rcases sorts production source with begins | base
    · rw [begins, Expr.beginsWith_allLaidOpen begins]
    · have known := Grammar.mem_ruleNames_of_rule? found
      rw [base.not_beginsWith known, base.allLaidOpen.not_beginsWith known]
  have base : ∀ q ∈ typed.productions, q.begins r.name = false → parser.typed.grammar.Base r.name q.items := by
    intro q member other
    obtain ⟨production, source, reads⟩ := describes.production member
    rw [same source reads] at other
    rw [reads.1]
    rcases sorts production source with begins | base
    · rw [begins] at other
      cases other
    · exact base.allLaidOpen
  refine ⟨typed, known, ?_, fun input i events => ⟨?_, fun room => ?_⟩⟩
  · refine List.forall₂_iff_get.mpr ⟨describes.productions.length_eq, fun place before behind => ?_⟩
    have reads := describes.productions.get before behind
    exact ⟨reads, same (List.get_mem _ _) reads⟩
  · exact TypedGrammar.loops faithful (tangles_of_single compiled single) found known
      (describes.errorName.trans unnamed) base i events
  · exact (TypedGrammar.steady_apply r.name i room { events }).symm

theorem list_loops : ∃ parser, ∃ r ∈ TypedGrammar.leftRecursive.rules,
    Reporting.Gives (ofGrammar TypedGrammar.leftRecursive []) parser ∧
    (∀ cycle ∈ parser.leftRecursion.cycles, ∃ name, cycle = [name]) ∧ r.errorName = none ∧
    (∀ production ∈ r.productions, Expr.beginsWith r.name production.items = true ∨
      TypedGrammar.leftRecursive.Base r.name production.items) ∧
    stop? (parser.typed.apply (.text #['a', 'x', 'x']) r.name 0 .unlimited {}).1 = some 3 ∧
    ∃ typed, parser.typed.typed? r.name = some typed ∧
      parser.typed.Loops (.text #['a', 'x', 'x']) r.name 0 typed.productions
        (parser.typed.apply (.text #['a', 'x', 'x']) r.name 0 .unlimited {}).1 := by
  have runs : ∃ parser, Reporting.Gives (ofGrammar TypedGrammar.leftRecursive []) parser ∧
      stop? (parser.typed.apply (.text #['a', 'x', 'x']) "list" 0 .unlimited {}).1 = some 3 :=
    ⟨_, ⟨[], _, rfl⟩, by decide +kernel⟩
  obtain ⟨parser, compiled, matched⟩ := runs
  obtain ⟨_, _, analysed⟩ := parts_of_ofGrammar compiled
  have single : ∀ cycle ∈ parser.leftRecursion.cycles, ∃ name, cycle = [name] := by
    have only : LeftRecursion.cyclesOf TypedGrammar.leftRecursive.leftCallees = [["list"]] := by decide
    intro cycle listed
    rw [(LeftRecursion.parts_of_ofGrammar analysed).2.1, only] at listed
    exact ⟨"list", List.mem_singleton.mp listed⟩
  have sorts : ∀ production ∈ TypedGrammar.leftRecursive.rules[0].productions,
      Expr.beginsWith "list" production.items = true ∨ TypedGrammar.leftRecursive.Base "list" production.items := by
    intro production source
    simp only [TypedGrammar.leftRecursive, List.getElem_cons_zero, List.mem_cons, List.not_mem_nil, or_false] at source
    rcases source with rfl | rfl
    · exact .inl rfl
    · exact .inr ⟨by decide, by decide⟩
  obtain ⟨typed, known, _, loops⟩ :=
    left_recursion_folds compiled single (r := TypedGrammar.leftRecursive.rules[0]) List.mem_cons_self rfl sorts
  exact ⟨parser, _, List.mem_cons_self, compiled, single, rfl, sorts, matched, typed, known,
    (loops (.text #['a', 'x', 'x']) 0 []).1⟩

end Parser

end Packrat
