import Packrat.Proofs.Parse.Again
import Packrat.Proofs.Parse.Apart

namespace Packrat

open Filter Relation

/-- The rule comes back to itself by left calls, without a call of the other rule. -/
def Grammar.ReturnsWithout (g : Grammar) (other name : String) : Prop :=
  TransGen (fun caller callee => g.LeftCalls caller callee ∧ callee ≠ other) name name

namespace Call

variable {g : Grammar} {c d : Call} {above below : List Call} {other : String}

theorem reaches_without (chain : (c :: (above ++ d :: below)).IsChain (Follows g)) (same : d.start = c.start)
    (avoids : (⟨c.start, other⟩ : Call) ∉ c :: above) :
    TransGen (fun caller callee => g.LeftCalls caller callee ∧ callee ≠ other) d.rule c.rule := by
  have here : c.rule ≠ other := by
    intro same
    subst same
    exact avoids List.mem_cons_self
  -- Step by step from the inner call outward, none of which is of the other rule.
  induction above generalizing c with
  | nil =>
    obtain ⟨follows, _⟩ := List.isChain_cons_cons.mp chain
    exact .single ⟨follows.first same.symm, here⟩
  | cons e rest ih =>
    obtain ⟨follows, rest'⟩ := List.isChain_cons_cons.mp chain
    have behind := start_le_of_mem rest' (List.mem_append_right rest List.mem_cons_self)
    have before := follows.behind
    have place : e.start = c.start := by omega
    have avoids' : (⟨e.start, other⟩ : Call) ∉ e :: rest := by
      rw [place]
      exact fun member => avoids (List.mem_cons_of_mem _ member)
    have next : e.rule ≠ other := by
      intro same
      subst same
      exact avoids' List.mem_cons_self
    exact .tail (ih rest' (same.trans place.symm) avoids' next) ⟨follows.first place.symm, here⟩

end Call

namespace TypedGrammar

structure Forwards (p : TypedGrammar) (name other : String) (typed : TypedRule) : Prop where
  known : p.typed? name = some typed
  unnamed : typed.errorName = none
  single : ∃ q, typed.productions = [q] ∧ q.items = [.reference other] ∧ q.mask = [true] ∧ q.action = none
  listed : other ∈ p.grammar.ruleNames

namespace Forwards

variable {p : TypedGrammar} {input : Input} {name other : String} {typed : TypedRule}

theorem body_eq (forwards : p.Forwards name other typed) (call : String → Int → Run Value) (i : Int) (s : Parse) :
    p.body input call typed i .unlimited s = call other i .unlimited s := by
  obtain ⟨q, productions, items, mask, plain⟩ := forwards.single
  obtain ⟨r, found⟩ := Grammar.exists_rule? forwards.listed
  unfold TypedGrammar.body
  simp only [forwards.unnamed, productions, firstProduction, production, items, evaluateAll, evaluate, found,
    Run.nested_unlimited, Run.orElse, Run.andThen]
  cases call other i .unlimited s with
  | mk o s' =>
    cases o with
    | matched v stop =>
      simp [Run.done, finish, plain, TypedProduction.value, TypedProduction.gather, mask, select, Value.gather]
    | failed => rfl
    | halted h => rfl

theorem follows (forwards : p.Forwards name other typed) (faithful : p.Faithful) (i : Int) :
    Call.Follows p.grammar ⟨i, other⟩ ⟨i, name⟩ := by
  obtain ⟨q, productions, items, _, _⟩ := forwards.single
  have inside : Inside p.grammar (.text #[]) i (p.grammar.scope name) (.items q.items) i :=
    Conduct.inside_production faithful forwards.known (by simp [productions]) i
  rw [items] at inside
  refine ⟨Int.le_refl i, inside.refers other ?_, fun _ => inside.first rfl other ?_⟩
  · simp [Goal.references, Expr.allReferences, Expr.references]
  · exact Expr.mem_sequenceCallees_cons.mpr (.inl (by simp [Expr.leftCallees, forwards.listed]))

theorem derives (forwards : p.Forwards name other typed) {i stop : Int} {v : Value}
    (derived : p.Derives input (.expr (.reference other)) i [v] stop) :
    p.Derives input (.expr (.reference name)) i [v] stop := by
  obtain ⟨q, productions, items, mask, plain⟩ := forwards.single
  have whole : p.Derives input (.items q.items) i [v] stop := by
    rw [items]
    exact .cons derived .nil
  refine .rule forwards.known (by simp [productions]) whole ?_
  simp [TypedProduction.value, plain, TypedProduction.gather, mask, select, Value.gather]

end Forwards

end TypedGrammar

/-- The entries of the front and of the rule behind it in the first parse, and that of the rule in the second one. The
seeds are the same that can be used. -/
structure Entry.Mirrors (through around : Prop) (outer inside alone : Entry) : Prop where
  seedThrough : through → alone.result = outer.result
  seedAround : around → alone.result = inside.result
  reentered : alone.reentered = (outer.reentered || inside.reentered)
  straight : ¬ through → outer.reentered = false
  direct : ¬ around → inside.reentered = false

/-- Two parses inside the call `c`, of which the first one has called the front before. -/
structure Mirror (p : TypedGrammar) (input : Input) (front c : Call) (stack : List Call) (s t : Parse) : Prop where
  coherent : Coherent p input stack s
  opposite : ∃ inner, stack = inner ++ [c, front] ∧ Coherent p input (inner ++ [c]) t
  same : ∀ d, d ≠ c → d ≠ front → t.memo.get? d = (s.memo.get? d).map (Entry.raised 1)
  absent : t.memo.get? front = none
  seeds : ∃ outer inside alone, s.memo.get? front = some outer ∧ s.memo.get? c = some inside ∧
    t.memo.get? c = some alone ∧ Entry.Mirrors (TransGen p.grammar.LeftCalls c.rule front.rule)
      (p.grammar.ReturnsWithout front.rule c.rule) outer inside alone

variable {p : TypedGrammar} {input : Input} {front c d : Call} {stack stack' above below : List Call}
  {s t s' t' : Parse} {e outer inside alone : Entry}

theorem Coherent.of_get? (coherent : Coherent p input stack s) (ordered : s'.memo.Ordered) (calls : s'.stack = s.stack)
    (view : ∀ d, s'.memo.get? d = s.memo.get? d) : Coherent p input stack s' := by
  refine ⟨calls.trans coherent.calls, ordered, fun found => ?_, fun found => ?_, fun suffix => ?_, fun found => ?_⟩
  · exact coherent.proper (view _ ▸ found)
  · exact coherent.derived (view _ ▸ found)
  · rw [view]
    exact coherent.pending suffix
  · exact coherent.settled (view _ ▸ found)

theorem Coherent.get?_answered (coherent : Coherent p input stack s) (found : s.memo.get? c = some e)
    (unsettled : e.settled = false) (split : stack = above ++ c :: below) (d : Call) :
    (s.answered e).memo.get? d = (s.memo.get? d).map fun e' =>
      { e' with reentered := e'.reentered || decide (d = c), provisional := e'.provisional || decide (d ∈ above) } := by
  rw [Parse.get?_answered unsettled, Memo.call_of_get? found, coherent.depth_eq found split,
    Parse.callsAbove_of_split (coherent.calls.trans split)]

namespace Mirror

theorem congr (mirror : Mirror p input front c stack s t) (coherent : Coherent p input stack s')
    (opposite : ∃ inner, stack = inner ++ [c, front] ∧ Coherent p input (inner ++ [c]) t')
    (left : ∀ d, s'.memo.get? d = s.memo.get? d) (right : ∀ d, t'.memo.get? d = t.memo.get? d) :
    Mirror p input front c stack s' t' := by
  refine ⟨coherent, opposite, fun d other apart => ?_, ?_, ?_⟩
  · rw [left, right]
    exact mirror.same d other apart
  · rw [right]
    exact mirror.absent
  · simp only [left, right]
    exact mirror.seeds

theorem blind (stack : List Call) : Blind (Mirror p input front c stack) := by
  intro s t s' t' mirror memoLeft stackLeft memoRight stackRight
  obtain ⟨inner, split, opposite⟩ := mirror.opposite
  refine mirror.congr (mirror.coherent.congr memoLeft stackLeft)
    ⟨inner, split, opposite.congr memoRight stackRight⟩ ?_ ?_
  · exact fun d => by rw [memoLeft]
  · exact fun d => by rw [memoRight]

theorem update (mirror : Mirror p input front c stack s t) (other : d ≠ c) (apart : d ≠ front)
    (coherent : Coherent p input stack' s')
    (opposite : ∃ inner, stack' = inner ++ [c, front] ∧ Coherent p input (inner ++ [c]) t')
    (left : ∀ d', d' ≠ d → s'.memo.get? d' = s.memo.get? d') (right : ∀ d', d' ≠ d → t'.memo.get? d' = t.memo.get? d')
    (here : t'.memo.get? d = (s'.memo.get? d).map (Entry.raised 1)) : Mirror p input front c stack' s' t' := by
  refine ⟨coherent, opposite, fun d' other' apart' => ?_, ?_, ?_⟩
  · by_cases same : d' = d
    · rw [same]
      exact here
    · rw [left d' same, right d' same]
      exact mirror.same d' other' apart'
  · rw [right front apart.symm]
    exact mirror.absent
  · rw [left front apart.symm, left c other.symm, right c other.symm]
    exact mirror.seeds

theorem mark (mirror : Mirror p input front c stack s t) (coherent : Coherent p input stack s')
    (opposite : ∃ inner, stack = inner ++ [c, front] ∧ Coherent p input (inner ++ [c]) t') {r r' q q' : Call → Bool}
    (left : ∀ d, s'.memo.get? d = (s.memo.get? d).map fun e =>
      { e with reentered := e.reentered || r d, provisional := e.provisional || q d })
    (right : ∀ d, t'.memo.get? d = (t.memo.get? d).map fun e =>
      { e with reentered := e.reentered || r' d, provisional := e.provisional || q' d })
    (alike : ∀ d, d ≠ c → d ≠ front → r' d = r d ∧ q' d = q d) (back : r' c = (r front || r c))
    (straight : ¬ TransGen p.grammar.LeftCalls c.rule front.rule → r front = false)
    (direct : ¬ p.grammar.ReturnsWithout front.rule c.rule → r c = false) : Mirror p input front c stack s' t' := by
  obtain ⟨outer, inside, alone, outerFound, insideFound, aloneFound, mirrors⟩ := mirror.seeds
  refine ⟨coherent, opposite, fun d other apart => ?_, ?_, ?_⟩
  · rw [left, right, mirror.same d other apart, (alike d other apart).1, (alike d other apart).2]
    cases s.memo.get? d <;> rfl
  · rw [right, mirror.absent]
    rfl
  · refine ⟨_, _, _, by rw [left, outerFound]; rfl, by rw [left, insideFound]; rfl, by rw [right, aloneFound]; rfl, ?_⟩
    refine ⟨mirrors.seedThrough, mirrors.seedAround, ?_, fun not => ?_, fun not => ?_⟩
    · dsimp only
      rw [mirrors.reentered, back]
      cases outer.reentered <;> cases inside.reentered <;> simp
    · simp [mirrors.straight not, straight not]
    · simp [mirrors.direct not, direct not]

theorem answered_front (mirror : Mirror p input front c stack s t) (apart : c ≠ front)
    (through : TransGen p.grammar.LeftCalls c.rule front.rule) (outerFound : s.memo.get? front = some outer)
    (open₁ : outer.settled = false) (aloneFound : t.memo.get? c = some alone) (open₂ : alone.settled = false) :
    Mirror p input front c stack (s.answered outer) (t.answered alone) := by
  obtain ⟨inner, split, opposite⟩ := mirror.opposite
  have split' : stack = (inner ++ [c]) ++ front :: [] := by simp [split]
  refine mirror.mark (mirror.coherent.answered outerFound).1 ⟨inner, split, (opposite.answered aloneFound).1⟩
    (mirror.coherent.get?_answered outerFound open₁ split') (opposite.get?_answered aloneFound open₂ rfl) ?_ ?_
    (fun not => absurd through not) ?_
  · intro d other apart'
    simp [other, apart']
  · simp
  · simp [apart]

theorem answered_behind (mirror : Mirror p input front c stack s t) (apart : c ≠ front)
    (around : p.grammar.ReturnsWithout front.rule c.rule) (insideFound : s.memo.get? c = some inside)
    (open₁ : inside.settled = false) (aloneFound : t.memo.get? c = some alone) (open₂ : alone.settled = false) :
    Mirror p input front c stack (s.answered inside) (t.answered alone) := by
  obtain ⟨inner, split, opposite⟩ := mirror.opposite
  refine mirror.mark (mirror.coherent.answered insideFound).1 ⟨inner, split, (opposite.answered aloneFound).1⟩
    (mirror.coherent.get?_answered insideFound open₁ split) (opposite.get?_answered aloneFound open₂ rfl) ?_ ?_ ?_
    (fun not => absurd around not)
  · intro d other _
    simp [other]
  · simp
  · simp [apart.symm]

theorem answered_other (mirror : Mirror p input front c stack s t) (other : d ≠ c)
    (apart : d ≠ front) (found : s.memo.get? d = some e) :
    t.memo.get? d = some (e.raised 1) ∧ Mirror p input front c stack (s.answered e) (t.answered (e.raised 1)) := by
  have found' : t.memo.get? d = some (e.raised 1) := by
    rw [mirror.same d other apart, found]
    rfl
  refine ⟨found', ?_⟩
  obtain ⟨inner, split, opposite⟩ := mirror.opposite
  have coherent := (mirror.coherent.answered found).1
  have opposite' := (opposite.answered found').1
  cases settled : e.settled with
  | true =>
    refine mirror.congr coherent ⟨inner, split, opposite'⟩ (fun d => ?_) fun d => ?_
    · rw [Parse.memo_answered settled]
    · rw [Parse.memo_answered (e := e.raised 1) settled]
  | false =>
    have member := mirror.coherent.mem_of_unsettled found settled
    have within : d ∈ inner := by
      rw [split] at member
      simpa [other, apart] using member
    obtain ⟨above, below, rfl⟩ := List.append_of_mem within
    have split₁ : stack = above ++ d :: (below ++ [c, front]) := by simp [split]
    have split₂ : (above ++ d :: below) ++ [c] = above ++ d :: (below ++ [c]) := by simp
    refine mirror.mark coherent ⟨_, split, opposite'⟩ (mirror.coherent.get?_answered found settled split₁)
      (opposite.get?_answered found' settled split₂) (fun d' _ _ => ⟨rfl, rfl⟩) ?_ ?_ ?_
    · simp [other.symm, apart.symm]
    · simp [apart.symm]
    · simp [other.symm]

end Mirror

theorem Run.settle_of_not_reentered {body : Run Value} {size : Nat} {result : Result}
    (run : body .unlimited s = (.ofResult result, s')) (once : s'.isReentered c = false) :
    (body.andThen (settle body c size)) .unlimited s = (.ofResult result, s') := by
  cases result with
  | none => exact Run.andThen_of_failed run
  | some found =>
    refine (Run.andThen_of_matched run).trans ?_
    simp [settle, once, Outcome.ofResult]

theorem Coherent.pass_front {inner : List Call} {typed : TypedRule} (coherent : Coherent p input (inner ++ [c]) t)
    (proper : t.failures.Proper) (forwards : p.Forwards front.rule c.rule typed) (start : front.start = c.start)
    (absent : t.memo.get? front = none) (aloneFound : t.memo.get? c = some alone) (unsettled : alone.settled = false) :
    ∃ t', (∀ d, p.callWithin input (d + 1) front.rule front.start .unlimited t = (.ofResult alone.result, t')) ∧
      Coherent p input (inner ++ [c]) t' ∧ t'.failures = t.failures ∧
        ∀ d, t'.memo.get? d = (t.answered alone).memo.get? d := by
  have apart : c ≠ front := by
    intro same
    rw [same, absent] at aloneFound
    cases aloneFound
  have entered := coherent.enter absent
  have found : (t.enter front).memo.get? c = some alone := by rw [Parse.get?_enter absent, if_neg apart, aloneFound]
  obtain ⟨marked, _⟩ := entered.answered found
  have view := entered.get?_answered found unsettled (show _ = (front :: inner) ++ c :: [] from rfl)
  have outer : ((t.enter front).answered alone).memo.get? front =
      some { call := front, depth := t.stack.length, provisional := true } := by
    rw [view, Parse.get?_enter absent, if_pos rfl]
    simp [apart.symm]
  have once : ((t.enter front).answered alone).isReentered front = false := by simp [Parse.isReentered, outer]
  have concluded := Parse.get?_conclude t.failures alone.result marked.ordered outer
  have none : ((t.enter front).answered alone).failures = {} := Parse.failures_answered unsettled
  have outside : front ∉ inner ++ [c] := coherent.not_mem_of_fresh absent
  have view' : ∀ d, ((((t.enter front).answered alone).leave front t.failures).remember front alone.result).memo.get? d =
      (t.answered alone).memo.get? d := by
    intro d
    rw [concluded, coherent.get?_answered aloneFound unsettled rfl]
    by_cases here : d = front
    · rw [here, absent]
      simp
    · rw [if_neg here, view, Parse.get?_enter absent, if_neg here]
      simp [here]
  refine ⟨_, fun d => ?_, ?_, ?_, view'⟩
  · have call : p.callWithin input d c.rule front.start .unlimited (t.enter front) =
        (.ofResult alone.result, (t.enter front).answered alone) := by
      rw [start, TypedGrammar.callWithin_of_found found, reuse_eq]
    refine (TypedGrammar.callWithin_of_fresh absent forwards.known d).trans ?_
    exact evaluateCall_of_result rfl (Run.settle_of_not_reentered ((forwards.body_eq _ _ _).trans call) once)
  · refine (coherent.answered aloneFound).1.of_get? (Parse.ordered_conclude marked.ordered) ?_ view'
    rw [Parse.stack_conclude, Parse.stack_answered, Parse.stack_answered]
    rfl
  · rw [Parse.failures_conclude, none, Failures.merge_none proper]

namespace Mirror

variable {lo : Int} {typed : TypedRule}

theorem recorded (mirror : Mirror p input front c stack s t) (properLeft : s.failures.Proper)
    (properRight : t.failures.Proper) (nodup : stack.Nodup) (chain : (d :: stack).IsChain (Call.Follows p.grammar))
    (forwards : p.Forwards front.rule c.rule typed) (start : front.start = c.start) (found : s.memo.get? d = some e) :
    Meets (Mirror p input front c stack) (· ≠ .exhausted)
      (fun v stop => p.Derives input (.expr (.reference d.rule)) d.start [v] stop) (Parse.reuse e)
      (fun k => p.callWithin input k d.rule d.start) s t := by
  have derived : ∀ v stop, e.result = some (v, stop) → p.Derives input (.expr (.reference d.rule)) d.start [v] stop :=
    fun v stop known => mirror.coherent.derived found known
  obtain ⟨inner, split, opposite⟩ := mirror.opposite
  obtain ⟨outer, inside, alone, outerFound, insideFound, aloneFound, mirrors⟩ := mirror.seeds
  have frontMember : front ∈ stack := by simp [split]
  have member : c ∈ stack := by simp [split]
  have apart : c ≠ front := by
    intro same
    subst same
    rw [split] at nodup
    simp [List.nodup_append] at nodup
  have open₂ := opposite.unsettled_of_mem (List.mem_append_right inner List.mem_cons_self) aloneFound
  by_cases isFront : d = front
  · -- The second parse is not inside the front: it enters the front, and is answered by the rule behind it.
    subst isFront
    obtain rfl := Option.some.inj (outerFound.symm.trans found)
    have open₁ := mirror.coherent.unsettled_of_mem frontMember outerFound
    have through := Call.reaches_of_mem chain member start.symm
    obtain ⟨t', runs, coherent, failures, view⟩ :=
      opposite.pass_front properRight forwards start mirror.absent aloneFound open₂
    have marked := mirror.answered_front apart through outerFound open₁ aloneFound open₂
    have related := marked.congr marked.coherent ⟨inner, split, coherent⟩ (fun _ => rfl) view
    rw [mirrors.seedThrough through] at runs
    exact ⟨_, _, t', reuse_eq outer .unlimited s, eventually_of_succ (.of_forall runs),
      .ofResult (.stay related properLeft properRight (Parse.failures_answered open₁) failures) derived⟩
  · by_cases isBehind : d = c
    · subst isBehind
      obtain rfl := Option.some.inj (insideFound.symm.trans found)
      have open₁ := mirror.coherent.unsettled_of_mem member insideFound
      -- The front is on the stack once, further out than the rule behind it.
      have avoids : (⟨d.start, front.rule⟩ : Call) ∉ d :: inner := by
        rw [← start]
        rw [split] at nodup
        have disjoint := (List.nodup_append.mp nodup).2.2
        intro within
        rcases List.mem_cons.mp within with same | within
        · exact apart same.symm
        · exact disjoint _ within front (by simp) rfl
      rw [split] at chain
      have around : p.grammar.ReturnsWithout front.rule d.rule := Call.reaches_without chain rfl avoids
      have related := mirror.answered_behind apart around insideFound open₁ aloneFound open₂
      refine ⟨_, _, _, reuse_eq inside .unlimited s, .of_forall fun k => ?_, .ofResult (.stay related properLeft
        properRight (Parse.failures_answered open₁) (Parse.failures_answered open₂)) derived⟩
      rw [← mirrors.seedAround around]
      exact (TypedGrammar.callWithin_of_found aloneFound k).trans (reuse_eq alone .unlimited t)
    · obtain ⟨found', related⟩ := mirror.answered_other isBehind isFront found
      refine ⟨_, _, _, reuse_eq e .unlimited s, .of_forall fun k => ?_, .ofResult (TypedGrammar.agree_answered
        (mirror.coherent.proper found) (show (e.raised 1).settled = e.settled from rfl) rfl properLeft properRight
        related) derived⟩
      exact (TypedGrammar.callWithin_of_found found' k).trans (reuse_eq (e.raised 1) .unlimited t)

theorem isReentered (mirror : Mirror p input front c stack s t) (other : d ≠ c) (apart : d ≠ front) :
    s.isReentered d = t.isReentered d := by
  unfold Parse.isReentered
  rw [mirror.same d other apart]
  cases s.memo.get? d <;> rfl

theorem exists_rest (mirror : Mirror p input front c (d :: stack) s t) (other : d ≠ c) (outside : d ∉ stack) :
    ∃ rest, stack = rest ++ [c, front] ∧ Coherent p input (d :: (rest ++ [c])) t ∧ d ∉ rest ++ [c] := by
  obtain ⟨inner, split, opposite⟩ := mirror.opposite
  cases inner with
  | nil => exact absurd (List.cons.inj split).1 other
  | cons first rest =>
    obtain ⟨rfl, rfl⟩ := List.cons.inj split
    refine ⟨rest, rfl, opposite, fun member => outside ?_⟩
    rcases List.mem_append.mp member with within | last
    · exact List.mem_append_left _ within
    · exact absurd (List.mem_singleton.mp last) other

theorem plantSeed (mirror : Mirror p input front c (d :: stack) s t) (other : d ≠ c) (apart : d ≠ front)
    (outside : d ∉ stack) {v : Value} {stop : Int}
    (derived : p.Derives input (.expr (.reference d.rule)) d.start [v] stop) :
    Mirror p input front c (d :: stack) (s.plantSeed d v stop) (t.plantSeed d v stop) := by
  obtain ⟨rest, rfl, opposite, outside'⟩ := mirror.exists_rest other outside
  refine mirror.update other apart (mirror.coherent.plantSeed outside derived).1
    ⟨d :: rest, rfl, (opposite.plantSeed outside' derived).1⟩ (fun d' apart' => ?_) (fun d' apart' => ?_) ?_
  · rw [Parse.get?_plantSeed, if_neg apart']
  · rw [Parse.get?_plantSeed, if_neg apart']
  · rw [Parse.get?_plantSeed, Parse.get?_plantSeed, if_pos rfl, if_pos rfl, mirror.same d other apart]
    cases s.memo.get? d <;> rfl

theorem growing (other : d ≠ c) (apart : d ≠ front) (outside : d ∉ stack) :
    Growing (Mirror p input front c (d :: stack))
      (fun v stop => p.Derives input (.expr (.reference d.rule)) d.start [v] stop) d d input.size where
  blind := blind _
  bounded derived := ⟨derived.le_stop, derived.stop_le⟩
  plantSeed mirror derived := mirror.plantSeed other apart outside derived
  isReentered mirror := mirror.isReentered other apart

theorem get?_eq_none (mirror : Mirror p input front c stack s t) (fresh : s.memo.get? d = none) :
    d ≠ c ∧ d ≠ front ∧ t.memo.get? d = none := by
  obtain ⟨outer, inside, _, outerFound, insideFound, _⟩ := mirror.seeds
  have other : d ≠ c := by
    intro same
    rw [same, insideFound] at fresh
    cases fresh
  have apart : d ≠ front := by
    intro same
    rw [same, outerFound] at fresh
    cases fresh
  refine ⟨other, apart, ?_⟩
  rw [mirror.same d other apart, fresh]
  rfl

theorem enter (mirror : Mirror p input front c stack s t) (fresh : s.memo.get? d = none) :
    Mirror p input front c (d :: stack) (s.enter d) (t.enter d) := by
  obtain ⟨other, apart, fresh'⟩ := mirror.get?_eq_none fresh
  obtain ⟨inner, rfl, opposite⟩ := mirror.opposite
  refine mirror.update other apart (mirror.coherent.enter fresh) ⟨d :: inner, rfl, opposite.enter fresh'⟩
    (fun d' apart' => ?_) (fun d' apart' => ?_) ?_
  · rw [Parse.get?_enter fresh, if_neg apart']
  · rw [Parse.get?_enter fresh', if_neg apart']
  · rw [Parse.get?_enter fresh, Parse.get?_enter fresh', if_pos rfl, if_pos rfl, mirror.coherent.calls, opposite.calls]
    simp [Entry.raised]

theorem conclude (mirror : Mirror p input front c (d :: stack) s t) (other : d ≠ c) (apart : d ≠ front)
    (outside : d ∉ stack) {saved saved' : Failures} {result : Result} (same : s.failures = t.failures)
    (proper : s.failures.Proper) (derived : ∀ v stop, result = some (v, stop) →
      p.Derives input (.expr (.reference d.rule)) d.start [v] stop) :
    Mirror p input front c stack ((s.leave d saved).remember d result) ((t.leave d saved').remember d result) := by
  obtain ⟨rest, rfl, opposite, outside'⟩ := mirror.exists_rest other outside
  obtain ⟨e, found, _⟩ := mirror.coherent.found_of_mem List.mem_cons_self
  have found' : t.memo.get? d = some (e.raised 1) := by
    rw [mirror.same d other apart, found]
    rfl
  have left := Parse.get?_conclude saved result mirror.coherent.ordered found
  have right := Parse.get?_conclude saved' result opposite.ordered found'
  refine mirror.update other apart (mirror.coherent.conclude outside saved proper derived).1
    ⟨rest, rfl, (opposite.conclude outside' saved' (same ▸ proper) derived).1⟩ (fun d' apart' => ?_)
    (fun d' apart' => ?_) ?_
  · rw [left, if_neg apart']
  · rw [right, if_neg apart']
  · rw [left, right, if_pos rfl, if_pos rfl, ← same]
    by_cases provisional : e.provisional = true <;> simp [Entry.raised, provisional]

end Mirror

namespace TypedGrammar

theorem answering_mirror {typed : TypedRule} (faithful : p.Faithful) (forwards : p.Forwards front.rule c.rule typed)
    (start : front.start = c.start) (lo : Int) : Answering p input lo (· ≠ .exhausted) (fun _ => True)
      (fun _ => Mirror p input front c) fun d => p.callWithin input d where
  faithful := faithful
  halts _ other := other
  closed _ _ := trivial
  blind _ := Mirror.blind
  coherent := Mirror.coherent
  unknown := by
    intro s₀ stack s t d _ mirror fresh unknown
    obtain ⟨_, _, fresh'⟩ := mirror.get?_eq_none fresh
    exact ⟨t, .of_forall fun k => callWithin_of_unknown fresh' unknown k⟩
  recorded := by
    intro s₀ stack s t d e _ mirror properLeft properRight standing chain found
    exact mirror.recorded properLeft properRight standing.nodup chain forwards start found
  evaluated := by
    intro s₀ stack s t d typed depth _ mirror _ _ standing _ fresh known tracks
    obtain ⟨other, apart, fresh'⟩ := mirror.get?_eq_none fresh
    have outside := (List.nodup_cons.mp standing.nodup).1
    refine Meets.of_succ ?_
    obtain ⟨o, s', t', run, runs, ends⟩ := Meets.evaluateCall (Mirror.growing other apart outside) (tracks s₀)
      (mirror.enter fresh) fun mirror same proper derived => mirror.conclude other apart outside same proper derived
    exact ⟨o, s', t', run, runs.mono fun k here => (callWithin_of_fresh fresh' known k).trans here, ends⟩

end TypedGrammar

end Packrat
