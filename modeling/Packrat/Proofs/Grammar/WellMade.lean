import Packrat.Expr.Binding
import Packrat.Grammar.Basic
import Packrat.Grammar.Refusal
import Packrat.Proofs.Reporting

namespace Packrat

def Refusal.OfGrammar (e : Refusal) : Prop := ∃ g, e = .grammar g

abbrev Fair {α : Type} (result : Except Refusal α) : Prop := Yields Refusal.OfGrammar (fun _ => True) result

namespace CharClass

def isShowable (cls : CharClass) : Bool :=
  cls.spans.all fun s => 0 ≤ s.lower && s.upper ≤ codeSpace

theorem codeUnshowable?_eq_none_iff {code : Int} : codeUnshowable? code = none ↔ 0 ≤ code ∧ code < codeSpace := by
  unfold codeUnshowable? codeSpace
  split
  · next far => simp at far ⊢; omega
  · split
    · next beyond => simp at beyond ⊢; omega
    · next within => simp at within ⊢; omega

theorem unshowable?_eq_none_iff {cls : CharClass} : cls.unshowable? = none ↔ cls.isShowable = true := by
  have each : ∀ s ∈ cls.spans, s.unshowable? = none ↔ 0 ≤ s.lower ∧ s.upper ≤ codeSpace := by
    intro s listed
    have nonempty : s.lower < s.upper := cls.separated.nonempty s listed
    rw [Span.unshowable?, Option.or_eq_none_iff, codeUnshowable?_eq_none_iff, codeUnshowable?_eq_none_iff]
    omega
  have all : (∀ s ∈ cls.spans, s.unshowable? = none) ↔ cls.isShowable = true := by
    simp only [isShowable, List.all_eq_true, Bool.and_eq_true, decide_eq_true_eq]
    exact forall₂_congr each
  rw [← all, unshowable?]
  split
  · next s alone =>
    rw [alone, List.forall_mem_singleton]
    split
    · rfl
    · next long =>
      refine iff_of_false nofun fun shown => long ?_
      have := (each s (alone ▸ List.mem_cons_self)).mp shown
      unfold codeSpace at this
      unfold Span.lengthLimit
      omega
  · exact List.findSome?_eq_none_iff

end CharClass

namespace Expr

mutual
/-- Whether an expression is made of expressions only, with something to choose from in every choice and with
classes of code points. -/
def isWellMade : Expr → Bool
  | .literal _ | .reference _ => true
  | .oneOf set => set.isShowable
  | .sequence items => allWellMade items
  | .choice alternatives => !alternatives.isEmpty && allWellMade alternatives
  | .optional item | .repetition _ item | .bind _ item | .ahead item | .notAhead item => isWellMade item
  | .unknown _ => false

def allWellMade : List Expr → Bool
  | [] => true
  | e :: es => isWellMade e && allWellMade es
end

theorem allWellMade_iff {es : List Expr} : allWellMade es = true ↔ ∀ e ∈ es, e.isWellMade = true := by
  induction es with
  | nil => simp [allWellMade]
  | cons e es ih => simp [allWellMade, ih]

mutual
theorem unshowable?_of_isWellMade : ∀ {e : Expr}, e.isWellMade = true → e.unshowable? = none
  | .literal _, _ | .reference _, _ => rfl
  | .oneOf _, made => CharClass.unshowable?_eq_none_iff.mpr made
  | .sequence items, made => firstUnshowable?_of_allWellMade items made
  | .choice alternatives, made => firstUnshowable?_of_allWellMade alternatives (Bool.and_eq_true_iff.mp made).2
  | .optional item, made | .repetition _ item, made | .bind _ item, made | .ahead item, made
  | .notAhead item, made => unshowable?_of_isWellMade (e := item) made

theorem firstUnshowable?_of_allWellMade : ∀ es : List Expr, allWellMade es = true → firstUnshowable? es = none
  | [], _ => rfl
  | e :: es, made => by
    obtain ⟨first, rest⟩ := Bool.and_eq_true_iff.mp made
    rw [firstUnshowable?, unshowable?_of_isWellMade first, firstUnshowable?_of_allWellMade es rest]
    rfl
end

theorem describe_of_isWellMade {e : Expr} (made : e.isWellMade = true) : e.describe = .ok e.text := by
  rw [describe, unshowable?_of_isWellMade made]
  rfl

theorem allWellMade_append {es fs : List Expr} :
    allWellMade (es ++ fs) = true ↔ allWellMade es = true ∧ allWellMade fs = true := by
  simp only [allWellMade_iff, List.mem_append]
  grind

mutual
theorem allWellMade_laidOpen : ∀ {e : Expr}, e.isWellMade = true → allWellMade e.laidOpen = true
  | .sequence items, made => allWellMade_allLaidOpen items made
  | .literal _, _ | .reference _, _ => rfl
  | .oneOf _, made | .choice _, made | .optional _, made | .repetition _ _, made | .bind _ _, made
  | .ahead _, made | .notAhead _, made => by simpa [laidOpen, allWellMade] using made

theorem allWellMade_allLaidOpen : ∀ es : List Expr, allWellMade es = true → allWellMade (allLaidOpen es) = true
  | [], _ => rfl
  | e :: es, made => by
    obtain ⟨first, rest⟩ := Bool.and_eq_true_iff.mp made
    exact allWellMade_append.mpr ⟨allWellMade_laidOpen first, allWellMade_allLaidOpen es rest⟩
end

mutual
theorem isWellMade_of_boundPaths : ∀ {e refused : Expr}, e.isWellMade = true → e.boundPaths = .error refused →
    refused.isWellMade = true
  | .bind _ item, refused, made, misplaced | .optional item, refused, made, misplaced
  | .repetition _ item, refused, made, misplaced => by
    rw [boundPaths] at misplaced
    rcases error_of_bind misplaced with inner | ⟨_, _, done⟩
    · exact isWellMade_of_boundPaths (e := item) made inner
    · cases done
  | .sequence items, refused, made, misplaced => by
    rw [boundPaths] at misplaced
    exact isWellMade_of_itemPaths items made misplaced
  | .choice _, refused, made, misplaced | .ahead _, refused, made, misplaced
  | .notAhead _, refused, made, misplaced => by
    rw [boundPaths] at misplaced
    split at misplaced <;> cases misplaced
    exact made
  | .literal _, _, _, misplaced | .oneOf _, _, _, misplaced | .reference _, _, _, misplaced
  | .unknown _, _, _, misplaced => by cases misplaced

theorem isWellMade_of_itemPaths : ∀ (es : List Expr) {several : Bool} {mask : List Bool} {slot : Nat} {refused : Expr},
    allWellMade es = true → itemPaths several mask slot es = .error refused → refused.isWellMade = true
  | [], _, _, _, _, _, misplaced => by cases misplaced
  | e :: es, several, mask, slot, refused, made, misplaced => by
    obtain ⟨first, rest⟩ := Bool.and_eq_true_iff.mp made
    rw [itemPaths] at misplaced
    rcases error_of_bind misplaced with inner | ⟨_, _, later⟩
    · exact isWellMade_of_boundPaths first inner
    · rcases error_of_bind later with inner | ⟨_, _, done⟩
      · exact isWellMade_of_itemPaths es rest inner
      · cases done
end

end Expr

namespace Grammar

def expressions (g : Grammar) : List Expr :=
  g.rules.flatMap (fun r => r.productions.flatMap (·.items)) ++
    (g.tokens ++ g.states.flatMap (·.2)).map (·.pattern)

def WellMade (g : Grammar) : Prop := ∀ e ∈ g.expressions, e.isWellMade = true

instance (g : Grammar) : Decidable g.WellMade := inferInstanceAs (Decidable (∀ e ∈ g.expressions, e.isWellMade = true))

namespace WellMade

variable {g : Grammar} (made : g.WellMade)

include made

theorem items {r : Rule} (listed : r ∈ g.rules) : ∀ p ∈ r.productions, Expr.allWellMade p.items = true := by
  refine fun p source => Expr.allWellMade_iff.mpr fun e item => made e (List.mem_append_left _ ?_)
  exact List.mem_flatMap.mpr ⟨r, listed, List.mem_flatMap.mpr ⟨p, source, item⟩⟩

theorem token {t : TokenRule} (listed : t ∈ g.tokens) : t.pattern.isWellMade = true :=
  made _ (List.mem_append_right _ (List.mem_map_of_mem (List.mem_append_left _ listed)))

theorem stateToken {state : String × List TokenRule} (listed : state ∈ g.states) {t : TokenRule}
    (member : t ∈ state.2) :
    t.pattern.isWellMade = true :=
  made _ (List.mem_append_right _ (List.mem_map_of_mem
    (List.mem_append_right _ (List.mem_flatMap.mpr ⟨state, listed, member⟩))))

end WellMade

end Grammar

end Packrat
