import Packrat.Proofs.Parse.Growth
import Packrat.Proofs.Parse.Twin

namespace Packrat

open Filter Relation

def Run.apart {α : Type} (m : Run α) : Run α := fun room t =>
  let ended := m room { t with memo := [], stack := [] }
  (ended.1, { ended.2 with memo := t.memo, stack := t.stack })

structure Tangles (g : Grammar) (tangled : String → Prop) : Prop where
  closed : ∀ {name other}, ¬ tangled name → g.Refers name other → ¬ tangled other
  alone : ∀ {name other}, ¬ tangled name → TransGen g.LeftCalls name other →
    TransGen g.LeftCalls other name → other = name

namespace Tangles

variable {g : Grammar} {tangled : String → Prop} {c d : Call} {stack : List Call}

theorem tangled_of_mem (tangles : Tangles g tangled) (chain : (c :: stack).IsChain (Call.Follows g))
    (top : tangled c.rule) (member : d ∈ stack) : tangled d.rule := by
  induction stack generalizing c with
  | nil => cases member
  | cons e rest ih =>
    obtain ⟨follows, chain⟩ := List.isChain_cons_cons.mp chain
    have here : tangled e.rule := by
      by_contra untangled
      exact tangles.closed untangled follows.refers top
    rcases List.mem_cons.mp member with rfl | member
    · exact here
    · exact ih chain here member

theorem eq_of_mem (tangles : Tangles g tangled) (chain : (c :: d :: stack).IsChain (Call.Follows g))
    (untangled : ¬ tangled d.rule) (member : c ∈ d :: stack) : c = d := by
  by_contra other
  obtain ⟨follows, chain⟩ := List.isChain_cons_cons.mp chain
  have below : c ∈ stack := (List.mem_cons.mp member).resolve_left other
  have behind := Call.start_le_of_mem chain below
  have before := follows.behind
  have same : c.start = d.start := by omega
  have there := Call.reaches_of_mem chain below same
  have equal := tangles.alone untangled (.single (follows.first same)) there
  apply other
  cases c
  cases d
  simp_all

end Tangles

namespace TypedGrammar

/-- Calls a rule, with at most `depth` calls inside each other, those of rules that are not tangled
apart from all else. -/
def apartWithin (p : TypedGrammar) (input : Input) (tangled : String → Prop) [DecidablePred tangled] :
    (depth : Nat) → String → Int → Run Value
  | 0, _, _ => .halt .exhausted
  | depth + 1, name, i => fun room t =>
    match t.memo.get? ⟨i, name⟩ with
    | some entry => Parse.reuse entry room t
    | none =>
      match p.typed? name with
      | none => (.halted (.unknownRule name), t)
      | some typed =>
        let evaluated := evaluateCall (p.body input (apartWithin p input tangled depth) typed i) ⟨i, name⟩ input.size
        if tangled name then evaluated room t else evaluated.apart room t

section

variable {p : TypedGrammar} {input : Input} {tangled : String → Prop} [DecidablePred tangled] {c : Call} {t : Parse}

theorem apartWithin_of_found {e : Entry} (found : t.memo.get? c = some e) (depth : Nat) :
    p.apartWithin input tangled (depth + 1) c.rule c.start .unlimited t = Parse.reuse e .unlimited t := by
  simp only [apartWithin, found]

theorem apartWithin_of_unknown (fresh : t.memo.get? c = none) (unknown : p.typed? c.rule = none)
    (depth : Nat) :
    p.apartWithin input tangled (depth + 1) c.rule c.start .unlimited t = (.halted (.unknownRule c.rule), t) := by
  simp only [apartWithin, fresh, unknown]

theorem apartWithin_of_tangled {typed : TypedRule} (fresh : t.memo.get? c = none)
    (known : p.typed? c.rule = some typed) (knotty : tangled c.rule) (depth : Nat) :
    p.apartWithin input tangled (depth + 1) c.rule c.start .unlimited t =
      evaluateCall (p.body input (p.apartWithin input tangled depth) typed c.start) c input.size .unlimited t := by
  simp only [apartWithin, fresh, known, if_pos knotty]

theorem apartWithin_of_untangled {typed : TypedRule} (fresh : t.memo.get? c = none)
    (known : p.typed? c.rule = some typed) (untangled : ¬ tangled c.rule) (depth : Nat) :
    p.apartWithin input tangled (depth + 1) c.rule c.start .unlimited t =
      (evaluateCall (p.body input (p.apartWithin input tangled depth) typed c.start) c input.size).apart
        .unlimited t := by
  simp only [apartWithin, fresh, known, if_neg untangled]

def Apart (p : TypedGrammar) (input : Input) (tangled : String → Prop) [DecidablePred tangled] (c : Call)
    (e : Entry) : Prop :=
  ∀ t : Parse, t.failures.Proper → t.memo.get? c = none → ∃ t' : Parse, t'.memo = t.memo ∧
    t'.stack = t.stack ∧ t'.failures = t.failures.merge e.failures ∧
      ∀ᶠ d in atTop, p.apartWithin input tangled d c.rule c.start .unlimited t = (.ofResult e.result, t')

end

end TypedGrammar

def Entry.raised (levels : Nat) (e : Entry) : Entry := { e with depth := e.depth - levels }

/-- Of the calls that are looked at, the second parse has on record what the first one has of those that
are shown. -/
structure Shown (V shown : Call → Prop) (levels : Nat) (s t : Parse) : Prop where
  ordered : t.memo.Ordered
  same : ∀ {d}, V d → shown d → t.memo.get? d = (s.memo.get? d).map (Entry.raised levels)
  none : ∀ {d}, V d → ¬ shown d → t.memo.get? d = none

namespace Shown

variable {V shown : Call → Prop} {levels : Nat} {s t s' t' : Parse} {c : Call}

theorem congr (view : Shown V shown levels s t) (left : s'.memo = s.memo) (right : t'.memo = t.memo) :
    Shown V shown levels s' t' := by
  obtain ⟨ordered, same, none⟩ := view
  exact ⟨right ▸ ordered, left ▸ right ▸ same, right ▸ none⟩

theorem map (view : Shown V shown levels s t) {f : Call → Entry → Entry} (ordered : t'.memo.Ordered)
    (left : ∀ d, s'.memo.get? d = (s.memo.get? d).map (f d))
    (right : ∀ d, t'.memo.get? d = (t.memo.get? d).map (f d))
    (raised : ∀ d e, f d (e.raised levels) = (f d e).raised levels) : Shown V shown levels s' t' := by
  refine ⟨ordered, ?_, ?_⟩
  · intro d concerned member
    rw [left, right, view.same concerned member]
    cases s.memo.get? d with
    | none => rfl
    | some e => exact congrArg some (raised d e)
  · intro d concerned member
    rw [right, view.none concerned member]
    rfl

theorem plantSeed (view : Shown V shown levels s t) (v : Value) (stop : Int) :
    Shown V shown levels (s.plantSeed c v stop) (t.plantSeed c v stop) := by
  let seed : Entry → Entry := fun e => { e with result := some (v, stop), rounds := e.rounds + 1 }
  have planted : ∀ (u : Parse) (d : Call), (u.plantSeed c v stop).memo.get? d =
      (u.memo.get? d).map (if d = c then seed else id) := by
    intro u d
    rw [Parse.get?_plantSeed]
    by_cases here : d = c
    · rw [if_pos here, if_pos here, here]
    · simp [here]
  refine view.map (view.ordered.modify fun _ => rfl) (planted s) (planted t) fun d e => ?_
  split <;> rfl

theorem callsAbove_raised {inner base : List Call} {depth : Nat} (left : s.stack = inner ++ base)
    (right : t.stack = inner) (deep : base.length ≤ depth) :
    t.callsAbove (depth - base.length) = s.callsAbove depth := by
  unfold Parse.callsAbove
  have few : (inner ++ base).length - (depth + 1) ≤ inner.length := by
    rw [List.length_append]
    omega
  have same : inner.length - (depth - base.length + 1) = (inner ++ base).length - (depth + 1) := by
    rw [List.length_append]
    omega
  rw [left, right, List.take_append_of_le_length few, same]

theorem answered {inner base : List Call} (view : Shown V shown base.length s t)
    (left : s.stack = inner ++ base) (right : t.stack = inner) {e : Entry} (unsettled : e.settled = false)
    (deep : base.length ≤ e.depth) :
    Shown V shown base.length (s.answered e) (t.answered (e.raised base.length)) := by
  refine view.map (Parse.ordered_answered _ view.ordered) (fun d => Parse.get?_answered unsettled) (fun d => ?_)
    fun d e' => rfl
  rw [Parse.get?_answered (e := e.raised base.length) unsettled]
  have above : t.callsAbove (e.raised base.length).depth = s.callsAbove e.depth := callsAbove_raised left right deep
  rw [above]
  rfl

end Shown

/-- What a parse with rules apart has on record. Inside a call that is not tangled it is this call alone,
and nothing that is tangled or further out has changed since some state before. Elsewhere it is what the other
parse has on record of tangled calls, but for the calls at the bottom of the stack. -/
inductive Beside (tangled : String → Prop) (V : Call → Prop) (base : List Call) (s₀ : Parse)
    (stack : List Call) (s t : Parse) : Prop where
  | alone {c below} (split : stack = c :: below) (untangled : ¬ tangled c.rule) (calls : t.stack = [c])
      (view : Shown (fun _ => True) (· = c) below.length s t)
      (kept : ∀ d, d ∈ below ∨ tangled d.rule → s.memo.get? d = s₀.memo.get? d)
  | among {inner} (split : stack = inner ++ base) (knotty : ∀ d ∈ inner, tangled d.rule)
      (calls : t.stack = inner) (view : Shown V (fun d => tangled d.rule) base.length s t)

structure Regular (p : TypedGrammar) (input : Input) (tangled : String → Prop) [DecidablePred tangled]
    (s : Parse) : Prop where
  apart : ∀ {c e}, ¬ tangled c.rule → s.memo.get? c = some e → e.settled = true → p.Apart input tangled c e

namespace Regular

variable {p : TypedGrammar} {input : Input} {tangled : String → Prop} [DecidablePred tangled]
  {stack : List Call} {s s' : Parse} {c : Call}

theorem congr (regular : Regular p input tangled s) (memo : s'.memo = s.memo) : Regular p input tangled s' := by
  refine ⟨fun {d e} untangled found settled => ?_⟩
  rw [memo] at found
  exact regular.apart untangled found settled

theorem enter (regular : Regular p input tangled s) (fresh : s.memo.get? c = none) :
    Regular p input tangled (s.enter c) := by
  refine ⟨fun {d e} untangled found settled => ?_⟩
  rw [Parse.get?_enter fresh] at found
  split at found
  · cases found
    cases settled
  · exact regular.apart untangled found settled

theorem plantSeed (regular : Regular p input tangled s) (coherent : Coherent p input (c :: stack) s) (v : Value)
    (stop : Int) : Regular p input tangled (s.plantSeed c v stop) := by
  refine ⟨fun {d e'} untangled found' settled => ?_⟩
  rw [Parse.get?_plantSeed] at found'
  split at found'
  · obtain ⟨e, found, rfl⟩ := Option.map_eq_some_iff.mp found'
    exact absurd List.mem_cons_self (coherent.not_mem_of_settled found settled)
  · exact regular.apart untangled found' settled

theorem answered (regular : Regular p input tangled s) (e : Entry) : Regular p input tangled (s.answered e) := by
  cases settled : e.settled with
  | true => exact regular.congr (Parse.memo_answered settled)
  | false =>
    refine ⟨fun {d e'} untangled found' settled' => ?_⟩
    rw [Parse.get?_answered settled] at found'
    obtain ⟨e₀, found₀, rfl⟩ := Option.map_eq_some_iff.mp found'
    have before := regular.apart untangled found₀ settled'
    exact before

end Regular

/-- A parse and one with rules apart, where what is settled of rules that are not tangled is what they
come to apart. -/
structure Accords (p : TypedGrammar) (input : Input) (tangled : String → Prop) [DecidablePred tangled]
    (V : Call → Prop) (base : List Call) (s₀ : Parse) (stack : List Call) (s t : Parse) : Prop where
  coherent : Coherent p input stack s
  regular : Regular p input tangled s
  beside : Beside tangled V base s₀ stack s t

namespace Accords

variable {p : TypedGrammar} {input : Input} {tangled : String → Prop} [DecidablePred tangled]
  {V : Call → Prop} {base : List Call} {s₀ : Parse} {stack : List Call} {s t s' t' : Parse} {c : Call}

theorem blind (s₀ : Parse) (stack : List Call) : Blind (Accords p input tangled V base s₀ stack) := by
  intro s t s' t' accords memoLeft stackLeft memoRight stackRight
  refine ⟨accords.coherent.congr memoLeft stackLeft, accords.regular.congr memoLeft, ?_⟩
  cases accords.beside with
  | alone split untangled calls view kept =>
    refine .alone split untangled (stackRight.trans calls) (view.congr memoLeft memoRight) fun d concerned => ?_
    rw [memoLeft]
    exact kept d concerned
  | among split knotty calls view =>
    exact .among split knotty (stackRight.trans calls) (view.congr memoLeft memoRight)

theorem exists_rest {inner : List Call} (split : c :: stack = inner ++ base) (concerned : V c)
    (outside : ∀ d ∈ base, ¬ V d) : ∃ rest, inner = c :: rest ∧ stack = rest ++ base := by
  rcases List.cons_eq_append_iff.mp split with ⟨rfl, below⟩ | ⟨rest, here, below⟩
  · exact absurd concerned (outside c (below ▸ List.mem_cons_self))
  · exact ⟨rest, here, below⟩

theorem get?_top (accords : Accords p input tangled V base s₀ (c :: stack) s t) (concerned : V c)
    (outside : ∀ d ∈ base, ¬ V d) :
    ∃ e levels, s.memo.get? c = some e ∧ t.memo.get? c = some (e.raised levels) := by
  obtain ⟨e, found, _⟩ := accords.coherent.found_of_mem List.mem_cons_self
  cases accords.beside with
  | alone split untangled calls view kept =>
    obtain ⟨rfl, rfl⟩ := List.cons.inj split
    refine ⟨e, stack.length, found, ?_⟩
    rw [view.same trivial rfl, found]
    rfl
  | among split knotty calls view =>
    obtain ⟨rest, rfl, _⟩ := exists_rest split concerned outside
    refine ⟨e, base.length, found, ?_⟩
    rw [view.same concerned (knotty c List.mem_cons_self), found]
    rfl

theorem isReentered (accords : Accords p input tangled V base s₀ (c :: stack) s t) (concerned : V c)
    (outside : ∀ d ∈ base, ¬ V d) : s.isReentered c = t.isReentered c := by
  obtain ⟨e, levels, left, right⟩ := accords.get?_top concerned outside
  simp only [Parse.isReentered, left, right, Option.map_some, Entry.raised]

theorem answered (accords : Accords p input tangled V base s₀ stack s t) (nodup : stack.Nodup)
    (concerned : V c) (outside : ∀ d ∈ base, ¬ V d) {e : Entry} (found : s.memo.get? c = some e)
    (unsettled : e.settled = false)
    (innermost : ∀ d below, stack = d :: below → ¬ tangled d.rule → c = d) :
    ∃ levels, t.memo.get? c = some (e.raised levels) ∧
      Accords p input tangled V base s₀ stack (s.answered e) (t.answered (e.raised levels)) := by
  have coherent := (accords.coherent.answered found).1
  have regular := accords.regular.answered e
  have member := accords.coherent.mem_of_unsettled found unsettled
  cases accords.beside with
  | @alone top below split untangled calls view kept =>
    obtain rfl := innermost top below split untangled
    obtain rfl := split
    have depth := accords.coherent.depth_eq found (List.nil_append _).symm
    refine ⟨below.length, by rw [view.same trivial rfl, found]; rfl, coherent, regular, ?_⟩
    refine .alone rfl untangled ((Parse.stack_answered _).trans calls)
      (view.answered (show s.stack = [c] ++ below from accords.coherent.calls) calls unsettled
        (Nat.le_of_eq depth.symm)) ?_
    intro d left
    have other : d ≠ c := by
      intro same
      rw [same] at left
      rcases left with within | knotty
      · exact (List.nodup_cons.mp nodup).1 within
      · exact untangled knotty
    have above : s.callsAbove e.depth = [] := by
      simp [Parse.callsAbove, accords.coherent.calls, depth]
    rw [Parse.get?_answered unsettled, ← kept d left, above, Memo.call_of_get? found]
    cases s.memo.get? d <;> simp [other]
  | @among inner split knotty calls view =>
    have within : c ∈ inner := by
      rw [split] at member
      exact (List.mem_append.mp member).resolve_right fun below => outside c below concerned
    obtain ⟨above, rest, rfl⟩ := List.append_of_mem within
    have depth := accords.coherent.depth_eq found (show stack = above ++ c :: (rest ++ base) by simp [split])
    have deep : base.length ≤ e.depth := by
      rw [depth, List.length_append]
      omega
    refine ⟨base.length, by rw [view.same concerned (knotty c within), found]; rfl, coherent, regular, ?_⟩
    exact .among split knotty ((Parse.stack_answered _).trans calls)
      (view.answered (accords.coherent.calls.trans split) calls unsettled deep)

theorem plantSeed (accords : Accords p input tangled V base s₀ (c :: stack) s t) (outside : c ∉ stack)
    {v : Value} {stop : Int} (derived : p.Derives input (.expr (.reference c.rule)) c.start [v] stop) :
    Accords p input tangled V base s₀ (c :: stack) (s.plantSeed c v stop) (t.plantSeed c v stop) := by
  have others : ∀ {d}, d ≠ c → (s.plantSeed c v stop).memo.get? d = s.memo.get? d := by
    intro d other
    rw [Parse.get?_plantSeed, if_neg other]
  refine ⟨(accords.coherent.plantSeed outside derived).1, accords.regular.plantSeed accords.coherent v stop, ?_⟩
  · cases accords.beside with
    | alone split untangled calls view kept =>
      obtain ⟨rfl, rfl⟩ := List.cons.inj split
      refine .alone rfl untangled calls (view.plantSeed v stop) fun d left => ?_
      have other : d ≠ c := by
        intro same
        rw [same] at left
        exact left.elim outside untangled
      rw [others other]
      exact kept d left
    | among split knotty calls view => exact .among split knotty calls (view.plantSeed v stop)

theorem growing (concerned : V c) (outside : ∀ d ∈ base, ¬ V d) (fresh : c ∉ stack) :
    Growing (Accords p input tangled V base s₀ (c :: stack))
      (fun v stop => p.Derives input (.expr (.reference c.rule)) c.start [v] stop) c c input.size where
  blind := blind s₀ (c :: stack)
  bounded derived := ⟨derived.le_stop, derived.stop_le⟩
  plantSeed accords derived := accords.plantSeed fresh derived
  isReentered accords := accords.isReentered concerned outside

theorem enter_alone (accords : Accords p input tangled V base s₀ stack s t) (fresh : s.memo.get? c = none)
    (untangled : ¬ tangled c.rule) (u : Parse) :
    Accords p input tangled V base s (c :: stack) (s.enter c) ({ u with memo := [], stack := [] }.enter c) := by
  have none : ({ u with memo := [], stack := [] } : Parse).memo.get? c = none := rfl
  have others : ∀ {d}, d ≠ c → (s.enter c).memo.get? d = s.memo.get? d := by
    intro d other
    rw [Parse.get?_enter fresh, if_neg other]
  refine ⟨accords.coherent.enter fresh, accords.regular.enter fresh, .alone rfl untangled rfl ⟨?_, ?_, ?_⟩ ?_⟩
  · exact Memo.Ordered.insert .nil none
  · intro d _ here
    subst here
    rw [Parse.get?_enter fresh, Parse.get?_enter none, if_pos rfl, if_pos rfl, accords.coherent.calls]
    simp [Entry.raised]
  · intro d _ other
    rw [Parse.get?_enter none, if_neg other]
    rfl
  · intro d left
    apply others
    intro same
    rw [same] at left
    exact left.elim (accords.coherent.not_mem_of_fresh fresh) untangled

theorem enter_among (accords : Accords p input tangled V base s₀ stack s t) (tangles : Tangles p.grammar tangled)
    (chain : (c :: stack).IsChain (Call.Follows p.grammar)) (concerned : V c) (fresh : s.memo.get? c = none)
    (knotty : tangled c.rule) :
    t.memo.get? c = none ∧ Accords p input tangled V base s₀ (c :: stack) (s.enter c) (t.enter c) := by
  cases accords.beside with
  | @alone top below split untangled =>
    have member : top ∈ stack := split ▸ List.mem_cons_self
    exact absurd (tangles.tangled_of_mem chain knotty member) untangled
  | @among inner split within calls view =>
    have none : t.memo.get? c = none := by
      rw [view.same concerned knotty, fresh]
      rfl
    refine ⟨none, accords.coherent.enter fresh, accords.regular.enter fresh, ?_⟩
    have split' : c :: stack = (c :: inner) ++ base := by rw [split, List.cons_append]
    refine .among split' ?_ (by rw [← calls]; rfl) ⟨?_, ?_, ?_⟩
    · intro d member
      rcases List.mem_cons.mp member with rfl | member
      · exact knotty
      · exact within d member
    · exact view.ordered.insert none
    · intro d relevant shown
      rw [Parse.get?_enter fresh, Parse.get?_enter none]
      split
      · simp [Entry.raised, accords.coherent.calls, calls, split]
      · exact view.same relevant shown
    · intro d relevant hidden
      have other : d ≠ c := by
        intro same
        subst same
        exact hidden knotty
      rw [Parse.get?_enter none, if_neg other]
      exact view.none relevant hidden

theorem conclude_among (accords : Accords p input tangled V base s₀ (c :: stack) s t) (knotty : tangled c.rule)
    (concerned : V c) (outside : ∀ d ∈ base, ¬ V d) (apart : c ∉ stack) {saved saved' : Failures}
    {result : Result} (same : s.failures = t.failures) (proper : s.failures.Proper)
    (derived : ∀ v stop, result = some (v, stop) → p.Derives input (.expr (.reference c.rule)) c.start [v] stop) :
    Accords p input tangled V base s₀ stack ((s.leave c saved).remember c result)
      ((t.leave c saved').remember c result) := by
  obtain ⟨e, found, _⟩ := accords.coherent.found_of_mem List.mem_cons_self
  have left := Parse.get?_conclude saved result accords.coherent.ordered found
  refine ⟨(accords.coherent.conclude apart saved proper derived).1, ⟨fun {d e'} untangled found' settled => ?_⟩, ?_⟩
  · have other : d ≠ c := by
      intro same
      subst same
      exact untangled knotty
    rw [left, if_neg other] at found'
    exact accords.regular.apart untangled found' settled
  · cases accords.beside with
    | alone split untangled =>
      obtain ⟨rfl, _⟩ := List.cons.inj split
      exact absurd knotty untangled
    | among split within calls view =>
      obtain ⟨rest, rfl, below⟩ := exists_rest split concerned outside
      have found' : t.memo.get? c = some (e.raised base.length) := by
        rw [view.same concerned knotty, found]
        rfl
      have right := Parse.get?_conclude saved' result view.ordered found'
      refine .among below (fun d member => within d (List.mem_cons_of_mem _ member)) ?_ ⟨?_, ?_, ?_⟩
      · rw [Parse.stack_conclude, calls]
        rfl
      · exact Parse.ordered_conclude view.ordered
      · intro d relevant shown
        rw [left, right, ← same]
        split
        · by_cases provisional : e.provisional = true <;> simp [Entry.raised, provisional]
        · exact view.same relevant shown
      · intro d relevant hidden
        have other : d ≠ c := by
          intro same
          subst same
          exact hidden knotty
        rw [right, if_neg other]
        exact view.none relevant hidden

theorem conclude_alone {s₁ t₁ : Parse} (accords : Accords p input tangled V base s₀ stack s t)
    (inside : Accords p input tangled V base s (c :: stack) s₁ t₁) (untangled : ¬ tangled c.rule)
    (concerned : V c) (outside : ∀ d ∈ base, ¬ V d) (apart : c ∉ stack) {saved : Failures} {result : Result}
    (proper : s₁.failures.Proper)
    (derived : ∀ v stop, result = some (v, stop) → p.Derives input (.expr (.reference c.rule)) c.start [v] stop)
    (right : ∀ e : Entry, e.result = result → e.failures = s₁.failures → p.Apart input tangled c e)
    (memo : t'.memo = t.memo) (same : t'.stack = t.stack) :
    Accords p input tangled V base s₀ stack ((s₁.leave c saved).remember c result) t' := by
  obtain ⟨e, found, _⟩ := inside.coherent.found_of_mem List.mem_cons_self
  have view := Parse.get?_conclude saved result inside.coherent.ordered found
  have kept : ∀ d, d ∈ stack ∨ tangled d.rule →
      ((s₁.leave c saved).remember c result).memo.get? d = s.memo.get? d := by
    intro d left
    have other : d ≠ c := by
      intro same
      rw [same] at left
      exact left.elim apart untangled
    rw [view, if_neg other]
    cases inside.beside with
    | alone split _ _ _ kept =>
      obtain ⟨_, rfl⟩ := List.cons.inj split
      exact kept d left
    | among split within =>
      obtain ⟨rest, rfl, _⟩ := exists_rest split concerned outside
      exact absurd (within c List.mem_cons_self) untangled
  refine ⟨(inside.coherent.conclude apart saved proper derived).1, ⟨fun {d e'} untangled' found' settled => ?_⟩, ?_⟩
  · rw [view] at found'
    split at found'
    · next here =>
      split at found'
      · cases found'
      · cases found'
        rw [here]
        exact right _ rfl rfl
    · exact inside.regular.apart untangled' found' settled
  · cases accords.beside with
    | @alone top below split untangled' calls shown before =>
      have listed : top ∈ stack := split ▸ List.mem_cons_self
      refine .alone split untangled' (same.trans calls) ⟨memo ▸ shown.ordered, ?_, ?_⟩ ?_
      · intro d _ here
        subst here
        rw [memo, kept d (.inl listed)]
        exact shown.same trivial rfl
      · intro d relevant hidden
        rw [memo]
        exact shown.none relevant hidden
      · intro d left
        rw [← before d left]
        apply kept d
        exact left.imp_left fun member => split ▸ List.mem_cons_of_mem _ member
    | among split within calls shown =>
      refine .among split within (same.trans calls) ⟨memo ▸ shown.ordered, ?_, ?_⟩
      · intro d relevant knotty
        rw [memo, kept d (.inr knotty)]
        exact shown.same relevant knotty
      · intro d relevant hidden
        rw [memo]
        exact shown.none relevant hidden

end Accords

end Packrat
