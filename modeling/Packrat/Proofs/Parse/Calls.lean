import Mathlib.Data.List.Chain
import Mathlib.Logic.Relation
import Packrat.Proofs.Parse.Coherence
import Packrat.Proofs.Parse.Conduct

namespace Packrat

open Filter

structure Call.Follows (g : Grammar) (inner outer : Call) : Prop where
  behind : outer.start ≤ inner.start
  refers : g.Refers outer.rule inner.rule
  first : inner.start = outer.start → g.LeftCalls outer.rule inner.rule

namespace Call

variable {g : Grammar} {c d : Call} {stack : List Call}

theorem start_le_of_mem (chain : (c :: stack).IsChain (Follows g)) (member : d ∈ stack) : d.start ≤ c.start := by
  induction stack generalizing c with
  | nil => cases member
  | cons e rest ih =>
    obtain ⟨follows, rest⟩ := List.isChain_cons_cons.mp chain
    rcases List.mem_cons.mp member with rfl | member
    · exact follows.behind
    · exact Int.le_trans (ih rest member) follows.behind

theorem reaches_of_mem (chain : (c :: stack).IsChain (Follows g)) (member : d ∈ stack)
    (same : d.start = c.start) : Relation.TransGen g.LeftCalls d.rule c.rule := by
  induction stack generalizing c with
  | nil => cases member
  | cons e rest ih =>
    obtain ⟨follows, chain⟩ := List.isChain_cons_cons.mp chain
    rcases List.mem_cons.mp member with rfl | member
    · exact .single (follows.first same.symm)
    · have behind := start_le_of_mem chain member
      have before := follows.behind
      have here : e.start = c.start := by omega
      exact .tail (ih chain member (same.trans here.symm)) (follows.first here.symm)

end Call

structure Standing (p : TypedGrammar) (input : Input) (lo : Int) (stack : List Call) : Prop where
  chain : stack.IsChain (Call.Follows p.grammar)
  within : ∀ c ∈ stack, lo ≤ c.start ∧ c.start ≤ max lo input.size
  known : ∀ c ∈ stack, c.rule ∈ p.typedRules.map Prod.fst
  nodup : stack.Nodup

namespace Standing

variable {p : TypedGrammar} {input : Input} {lo : Int} {stack : List Call} {c : Call}

theorem empty : Standing p input lo [] := ⟨.nil, by simp, by simp, .nil⟩

theorem push (standing : Standing p input lo stack) (chain : (c :: stack).IsChain (Call.Follows p.grammar))
    (within : lo ≤ c.start ∧ c.start ≤ max lo input.size) (known : c.rule ∈ p.typedRules.map Prod.fst)
    (outside : c ∉ stack) : Standing p input lo (c :: stack) := by
  refine ⟨chain, ?_, ?_, List.nodup_cons.mpr ⟨outside, standing.nodup⟩⟩
  · intro d member
    rcases List.mem_cons.mp member with rfl | member
    · exact within
    · exact standing.within d member
  · intro d member
    rcases List.mem_cons.mp member with rfl | member
    · exact known
    · exact standing.known d member

theorem length_le (standing : Standing p input lo stack) :
    stack.length ≤ p.typedRules.length * ((input.size - lo).toNat + 1) := by
  let places := List.range ((input.size - lo).toNat + 1)
  let calls := (p.typedRules.map Prod.fst).flatMap fun name => places.map fun k : Nat => (⟨lo + k, name⟩ : Call)
  have subset : stack ⊆ calls := by
    intro c member
    have ⟨behind, before⟩ := standing.within c member
    refine List.mem_flatMap.mpr ⟨c.rule, standing.known c member, List.mem_map.mpr ⟨(c.start - lo).toNat, ?_, ?_⟩⟩
    · exact List.mem_range.mpr (by omega)
    · have place : lo + ((c.start - lo).toNat : Int) = c.start := by omega
      rw [place]
  have length : calls.length = p.typedRules.length * ((input.size - lo).toNat + 1) := by
    simp [calls, places, List.length_flatMap, Function.comp_def]
  rw [← length]
  exact standing.nodup.length_le_of_subset subset

end Standing

/-- Two ways to answer some calls, of which the first keeps a memo. What is related goes by the calls that
are being evaluated and by some state before. -/
structure Answering (p : TypedGrammar) (input : Input) (lo : Int) (H : Halt → Prop) (V : Call → Prop)
    (R : Parse → List Call → Parse → Parse → Prop) (calls : Nat → String → Int → Run Value) : Prop where
  faithful : p.Faithful
  halts : ∀ h, h ≠ .exhausted → H h
  closed : ∀ {inner outer}, V outer → inner.Follows p.grammar outer → V inner
  blind : ∀ s₀ stack, Blind (R s₀ stack)
  coherent : ∀ {s₀ stack s t}, R s₀ stack s t → Coherent p input stack s
  unknown : ∀ {s₀ stack s t c}, V c → R s₀ stack s t → s.memo.get? c = none → p.typed? c.rule = none →
    ∃ t', ∀ᶠ d in atTop, calls d c.rule c.start .unlimited t = (.halted (.unknownRule c.rule), t')
  recorded : ∀ {s₀ stack s t c e}, V c → R s₀ stack s t → s.failures.Proper → t.failures.Proper →
    Standing p input lo stack → (c :: stack).IsChain (Call.Follows p.grammar) → s.memo.get? c = some e →
    Meets (R s₀ stack) H (fun v stop => p.Derives input (.expr (.reference c.rule)) c.start [v] stop)
      (Parse.reuse e) (fun d => calls d c.rule c.start) s t
  evaluated : ∀ {s₀ stack s t c typed depth}, V c → R s₀ stack s t → s.failures.Proper → t.failures.Proper →
    Standing p input lo (c :: stack) →
    p.typedRules.length * ((input.size - lo).toNat + 1) < depth + (c :: stack).length →
    s.memo.get? c = none → p.typed? c.rule = some typed →
    (∀ s₁, Tracks (R s₁ (c :: stack)) H
      (fun v stop => p.Derives input (.expr (.reference c.rule)) c.start [v] stop)
      (p.body input (p.callWithin input depth) typed c.start) fun d => p.body input (calls d) typed c.start) →
    Meets (R s₀ stack) H (fun v stop => p.Derives input (.expr (.reference c.rule)) c.start [v] stop)
      (evaluateCall (p.body input (p.callWithin input depth) typed c.start) c input.size)
      (fun d => calls d c.rule c.start) s t

namespace Answering

variable {p : TypedGrammar} {input : Input} {lo : Int} {H : Halt → Prop} {V : Call → Prop}
  {R : Parse → List Call → Parse → Parse → Prop} {calls : Nat → String → Int → Run Value}

theorem mem_of_typed? {name : String} {typed : TypedRule} (known : p.typed? name = some typed) :
    name ∈ p.typedRules.map Prod.fst :=
  List.mem_map_of_mem (f := Prod.fst) (mem_of_lookup known)

theorem tracks (answering : Answering p input lo H V R calls) {depth : Nat} {s₀ : Parse} {stack : List Call}
    {c : Call} (concerned : V c) (standing : Standing p input lo stack)
    (chain : (c :: stack).IsChain (Call.Follows p.grammar))
    (within : lo ≤ c.start ∧ c.start ≤ max lo input.size)
    (enough : p.typedRules.length * ((input.size - lo).toNat + 1) < depth + stack.length) :
    Tracks (R s₀ stack) H (fun v stop => p.Derives input (.expr (.reference c.rule)) c.start [v] stop)
      (p.callWithin input depth c.rule c.start) fun d => calls d c.rule c.start := by
  induction depth generalizing s₀ stack c with
  | zero =>
    have most := standing.length_le
    omega
  | succ depth ih =>
    intro s t related properLeft properRight
    unfold TypedGrammar.callWithin
    simp only [Meets, Run.nested_unlimited]
    cases found : s.memo.get? ⟨c.start, c.rule⟩ with
    | some e => exact answering.recorded concerned related properLeft properRight standing chain found
    | none =>
      cases known : p.typed? c.rule with
      | none =>
        obtain ⟨t', runs⟩ := answering.unknown concerned related found known
        exact ⟨_, _, t', rfl, runs, .halted (answering.halts _ nofun)⟩
      | some typed =>
        have outside := (answering.coherent related).not_mem_of_fresh found
        have pushed := standing.push chain within (mem_of_typed? known) outside
        have enough : p.typedRules.length * ((input.size - lo).toNat + 1) < depth + (c :: stack).length := by
          rw [List.length_cons]
          omega
        refine answering.evaluated concerned related properLeft properRight pushed enough found known fun s₁ => ?_
        refine TypedGrammar.Conduct.body known ⟨answering.faithful, answering.blind _ _, answering.halts, ?_⟩
        intro name i behind before refers first _
        have follows : Call.Follows p.grammar ⟨i, name⟩ c := ⟨behind, refers, first⟩
        refine ih (answering.closed concerned follows) pushed (.cons_cons follows chain) ?_ enough
        dsimp only
        omega

theorem enough_depth (rules places : Nat) : rules * (places + 1) < rules * (places + 2) + 1 + 0 := by
  rw [Nat.mul_add, Nat.mul_add]
  omega

theorem tracks_apply {i : Int} (answering : Answering p input i H V R calls) (s₀ : Parse) {name : String}
    (concerned : V ⟨i, name⟩) :
    Tracks (R s₀ []) H (fun v stop => p.Derives input (.expr (.reference name)) i [v] stop)
      (p.apply input name i) fun d => calls d name i :=
  answering.tracks (c := ⟨i, name⟩) concerned .empty (.singleton _) ⟨Int.le_refl _, le_max_left _ _⟩ (enough_depth _ _)

end Answering

end Packrat
