import Packrat.Proofs.Parse.Conduct
import Packrat.Proofs.Parse.Walk

namespace Packrat

variable {α β : Type} {I : Parse → Prop} {H : Halt → Prop}

def Outcome.Within (H : Halt → Prop) (Q : α → Int → Prop) : Outcome α → Prop
  | .matched a stop => Q a stop
  | .failed => True
  | .halted h => H h

/-- Begun in a state with `I`, the work leaves one with `I`, and ends within `H` and `Q`. -/
def Run.Keeps (I : Parse → Prop) (H : Halt → Prop) (Q : α → Int → Prop) (m : Run α) : Prop :=
  ∀ room s, I s → I (m room s).2 ∧ (m room s).1.Within H Q

def OfRecord (I : Parse → Prop) : Prop := ∀ {s s' : Parse}, I s → s'.memo = s.memo → I s'

namespace Run.Keeps

variable {Q : α → Int → Prop} {P : β → Int → Prop} {m : Run α} {room : Room} {s s' : Parse}

theorem of_matched {a : α} {stop : Int} (keeps : m.Keeps I H Q) (kept : I s)
    (run : m room s = (.matched a stop, s')) : I s' ∧ Q a stop := by
  have ends := keeps room s kept
  rw [run] at ends
  exact ends

theorem of_failed (keeps : m.Keeps I H Q) (kept : I s) (run : m room s = (.failed, s')) : I s' := by
  have ends := (keeps room s kept).1
  rw [run] at ends
  exact ends

theorem of_halted {h : Halt} (keeps : m.Keeps I H Q) (kept : I s) (run : m room s = (.halted h, s')) :
    I s' ∧ H h := by
  have ends := keeps room s kept
  rw [run] at ends
  exact ends

theorem weaken {Q' : α → Int → Prop} (keeps : m.Keeps I H Q) (weaker : ∀ a stop, Q a stop → Q' a stop) :
    m.Keeps I H Q' := by
  intro room s kept
  cases run : m room s with
  | mk o s' =>
    cases o with
    | matched a stop => exact (keeps.of_matched kept run).imp_right (weaker a stop)
    | failed => exact ⟨keeps.of_failed kept run, trivial⟩
    | halted h => exact keeps.of_halted kept run

theorem done {a : α} {stop : Int} (holds : Q a stop) : (Run.done a stop).Keeps I H Q :=
  fun _ _ kept => ⟨kept, holds⟩

theorem noMatch : (Run.noMatch : Run α).Keeps I H Q := fun _ _ kept => ⟨kept, trivial⟩

theorem halt {h : Halt} (allowed : H h) : (Run.halt h : Run α).Keeps I H Q := fun _ _ kept => ⟨kept, allowed⟩

theorem fail (record : OfRecord I) (index : Int) (what : String) : (Run.fail index what : Run α).Keeps I H Q :=
  fun _ _ kept => ⟨record kept rfl, trivial⟩

theorem nested (cut : H .nestedTooDeeply) (levels : Nat) (keeps : m.Keeps I H Q) :
    (Run.nested levels m).Keeps I H Q := by
  intro room s kept
  unfold Run.nested
  split
  · next left _ => exact keeps left s kept
  · exact ⟨kept, cut⟩

theorem inRoomFor (cut : H .nestedTooDeeply) (levels : Nat) (keeps : m.Keeps I H Q) :
    (Run.inRoomFor levels m).Keeps I H Q := by
  intro room s kept
  unfold Run.inRoomFor
  split
  · exact keeps room s kept
  · exact ⟨kept, cut⟩

theorem split {matched : α → Int → Run β} {failed : Run β} (first : m.Keeps I H Q)
    (second : ∀ a stop, Q a stop → (matched a stop).Keeps I H P) (third : failed.Keeps I H P) :
    (m.split matched failed).Keeps I H P := by
  intro room s kept
  cases run : m room s with
  | mk o s' =>
    cases o with
    | matched a stop =>
      obtain ⟨kept', holds⟩ := first.of_matched kept run
      rw [split_of_matched run]
      exact second a stop holds room s' kept'
    | failed =>
      rw [split_of_failed run]
      exact third room s' (first.of_failed kept run)
    | halted h =>
      rw [split_of_halted run]
      exact first.of_halted kept run

theorem andThen {next : α → Int → Run β} (first : m.Keeps I H Q)
    (second : ∀ a stop, Q a stop → (next a stop).Keeps I H P) : (m.andThen next).Keeps I H P := by
  rw [andThen_eq_split]
  exact first.split second noMatch

theorem orElse {other : Run α} (first : m.Keeps I H Q) (second : other.Keeps I H Q) :
    (m.orElse other).Keeps I H Q := by
  rw [orElse_eq_split]
  exact first.split (fun _ _ holds => done holds) second

theorem terminal (record : OfRecord I) {Q : Value → Int → Prop} {result : Except BeforeStart Result} {index : Int}
    {what : String} (inside : H .beforeStart ∨ ∃ found, result = .ok found)
    (holds : ∀ v stop, result = .ok (some (v, stop)) → Q v stop) :
    (Run.terminal result index what).Keeps I H Q := by
  unfold Run.terminal
  split
  · exact done (holds _ _ rfl)
  · exact fail record index what
  · refine halt (inside.resolve_right ?_)
    rintro ⟨found, here⟩
    cases here

theorem negate (record : OfRecord I) {Q Q' : Value → Int → Prop} {m : Run Value} {index : Int} {what : String}
    (keeps : m.Keeps I H Q) (holds : Q' .none index) : (Run.negate m index what).Keeps I H Q' := by
  intro room s kept
  have cleared : I { s with failures := {} } := record kept rfl
  cases run : m room { s with failures := {} } with
  | mk o s' =>
    simp only [Run.negate, run]
    cases o with
    | matched v stop => exact ⟨record (keeps.of_matched cleared run).1 rfl, trivial⟩
    | failed => exact ⟨record (keeps.of_failed cleared run) rfl, holds⟩
    | halted h => exact keeps.of_halted cleared run

theorem named (record : OfRecord I) {Q : Value → Int → Prop} {m : Run Value} (name : String) (index : Int)
    (keeps : m.Keeps I H Q) : (Run.named name index m).Keeps I H Q := by
  intro room s kept
  have cleared : I { s with failures := {} } := record kept rfl
  cases run : m room { s with failures := {} } with
  | mk o s' =>
    simp only [Run.named, run]
    cases o with
    | matched v stop =>
      obtain ⟨kept', holds⟩ := keeps.of_matched cleared run
      exact ⟨record kept' rfl, holds⟩
    | failed => exact ⟨record (keeps.of_failed cleared run) rfl, trivial⟩
    | halted h => exact keeps.of_halted cleared run

end Run.Keeps

namespace TypedGrammar

open Run

structure Honours (p : TypedGrammar) (input : Input) (I : Parse → Prop) (H : Halt → Prop) (lo : Int)
    (call : String → Int → Run Value) : Prop where
  record : OfRecord I
  cut : H .nestedTooDeeply
  endless : H .exhausted
  inside : H .beforeStart ∨ 0 ≤ lo
  suited : H .onlyText ∨ p.isFor input = true
  calls : ∀ {name r i}, lo ≤ i → p.grammar.rule? name = some r →
    (call name i).Keeps I H fun v stop => p.Derives input (.expr (.reference name)) i [v] stop

def Resolves (p : TypedGrammar) (H : Halt → Prop) (goal : Goal) : Prop :=
  ∀ name ∈ goal.references, p.grammar.rule? name = none → p.grammar.token? name = none → H (.unknownRule name)

theorem Resolves.of_subset {p : TypedGrammar} {goal part : Goal} (resolves : p.Resolves H goal)
    (within : part.references ⊆ goal.references) : p.Resolves H part :=
  fun name mentioned => resolves name (within mentioned)

def Evaluates (p : TypedGrammar) (input : Input) (H : Halt → Prop) (q : TypedProduction) : Prop :=
  ∀ i vs stop, p.Derives input (.items q.items) i vs stop →
    (∀ f, q.value vs = .error (.fault f) → H (.fault f)) ∧ ∀ m, q.value vs = .error (.misfit m) → H .shapeless

end TypedGrammar

namespace Input

theorem exists_tokenWhere? (tokens : Array Token) (holds : Token → Bool) {i : Int} (nonneg : 0 ≤ i) :
    ∃ found, tokenWhere? tokens holds i = .ok found := by
  unfold tokenWhere?
  rw [elementAt_of_nonneg tokens nonneg]
  exact ⟨_, rfl⟩

variable (input : Input) {i : Int}

theorem exists_literal? (t : String) (nonneg : 0 ≤ i) : ∃ found, input.literal? t i = .ok found := by
  cases input with
  | text chars => exact ⟨_, rfl⟩
  | tokens ts =>
    obtain ⟨found, here⟩ := exists_tokenWhere? ts (·.text == t) nonneg
    exact ⟨_, congrArg (Except.map _) here⟩

theorem exists_class? (set : CharClass) (nonneg : 0 ≤ i) : ∃ found, input.class? set i = .ok found := by
  cases input with
  | text chars => exact ⟨_, congrArg (Except.map _) (elementAt_of_nonneg chars nonneg)⟩
  | tokens ts =>
    obtain ⟨found, here⟩ := exists_tokenWhere? ts (isOneOf set) nonneg
    exact ⟨_, congrArg (Except.map _) here⟩

theorem exists_kind? (kind : TokenRule) (nonneg : 0 ≤ i) : ∃ found, input.kind? kind i = .ok found := by
  cases input with
  | text chars => exact ⟨_, rfl⟩
  | tokens ts =>
    obtain ⟨found, here⟩ := exists_tokenWhere? ts (·.kind == kind.name) nonneg
    exact ⟨_, congrArg (Except.map _) here⟩

end Input

namespace TypedGrammar.Honours

open Run

variable {p : TypedGrammar} {input : Input} {lo : Int} {call : String → Int → Run Value}

theorem within (honours : Honours p input I H lo call) {i : Int} (behind : lo ≤ i) : H .beforeStart ∨ 0 ≤ i :=
  honours.inside.imp_right fun nonneg => Int.le_trans nonneg behind

theorem many {item : Int → Run Value} {e : Expr} {atLeastOnce : Bool} (endless : H .exhausted)
    (each : ∀ j, lo ≤ j → (item j).Keeps I H fun v stop => p.Derives input (.expr e) j [v] stop)
    (rounds : Nat) (values : List Value) {i : Int} (behind : lo ≤ i) :
    (Run.many item atLeastOnce rounds values i).Keeps I H fun v stop => ∃ vs,
      v = .list (values.reverse ++ vs) ∧ p.Derives input (.rounds e) i vs stop ∧
        (atLeastOnce = true → values.reverse ++ vs ≠ []) := by
  induction rounds generalizing values i with
  | zero => exact .halt endless
  | succ rounds ih =>
    have ended : ∀ us vs, us.reverse = values.reverse ++ vs → p.Derives input (.rounds e) i vs i →
        (Run.repeated atLeastOnce us i).Keeps I H fun v stop => ∃ vs, v = .list (values.reverse ++ vs) ∧
          p.Derives input (.rounds e) i vs stop ∧ (atLeastOnce = true → values.reverse ++ vs ≠ []) := by
      intro us vs same derived
      unfold Run.repeated
      split
      · exact .noMatch
      · next some =>
        refine .done ⟨vs, by rw [same], derived, fun required none => some ?_⟩
        rw [← same, List.reverse_eq_nil_iff] at none
        simp [required, none]
    rw [many_succ_eq_split]
    refine .split (each i behind) (fun v stop derived => ?_) (ended values [] (by simp) .done)
    unfold nextRound
    split
    · next stay =>
      rw [stay] at derived
      split
      · next first =>
        simp only [Bool.and_eq_true, List.isEmpty_iff] at first
        exact ended [v] [v] (by simp [first.2]) (.round derived .done)
      · exact ended values [] (by simp) .done
    · refine (ih (v :: values) (Int.le_trans behind derived.le_stop)).weaken ?_
      rintro w stop' ⟨vs, rfl, rest, some⟩
      exact ⟨v :: vs, by simp, .round derived rest, by simp⟩

mutual
theorem evaluate (honours : Honours p input I H lo call) : ∀ (e : Expr) {i : Int}, lo ≤ i →
    p.Resolves H (.expr e) →
      (p.evaluate input call e i).Keeps I H fun v stop => p.Derives input (.expr e) i [v] stop
  | .literal t, i, behind, _ => by
    simp only [TypedGrammar.evaluate]
    refine .nested honours.cut 2 ?_
    split
    · have inside := (honours.within behind).imp_right (input.exists_literal? t)
      exact .terminal honours.record inside fun _ _ here => .literal here
    · next unsuited => exact .halt (honours.suited.resolve_right unsuited)
  | .oneOf set, i, behind, _ => by
    simp only [TypedGrammar.evaluate]
    refine .nested honours.cut 3 ?_
    split
    · have inside := (honours.within behind).imp_right (input.exists_class? set)
      exact .terminal honours.record inside fun _ _ here => .oneOf here
    · next unsuited =>
      refine .halt (honours.suited.resolve_right fun suited => unsuited ?_)
      simp [suited]
  | .reference name, i, behind, resolves => by
    simp only [TypedGrammar.evaluate]
    split
    · next found => exact .nested honours.cut 1 (honours.calls behind found)
    · next kind noRule known =>
      have inside := (honours.within behind).imp_right (input.exists_kind? kind)
      exact .nested honours.cut 2 (.terminal honours.record inside fun _ _ here => .token noRule known here)
    · next noRule noToken => exact .halt (resolves name (by simp [Goal.references, Expr.references]) noRule noToken)
  | .sequence items, i, behind, resolves => by
    simp only [TypedGrammar.evaluate]
    refine .nested honours.cut 1 (.andThen (honours.evaluateAll items behind resolves) ?_)
    exact fun vs stop derived => .done (.sequence derived)
  | .choice alternatives, i, behind, resolves => by
    simp only [TypedGrammar.evaluate]
    refine .nested honours.cut 1 ((honours.evaluateFirst alternatives behind resolves).weaken ?_)
    rintro v stop ⟨e, listed, derived⟩
    exact .choice listed derived
  | .optional item, i, behind, resolves => by
    simp only [TypedGrammar.evaluate]
    refine .nested honours.cut 1 (.orElse ((honours.evaluate item behind resolves).weaken ?_) (.done .absent))
    exact fun v stop derived => .present derived
  | .repetition atLeastOnce item, i, behind, resolves => by
    simp only [TypedGrammar.evaluate]
    have each := fun j (after : lo ≤ j) => honours.evaluate item after resolves
    refine .nested honours.cut 1 ((many honours.endless each _ [] behind).weaken ?_)
    rintro v stop ⟨vs, rfl, derived, enough⟩
    exact .repetition derived enough
  | .bind name item, i, behind, resolves => by
    simp only [TypedGrammar.evaluate]
    refine (honours.evaluate item behind resolves).weaken ?_
    exact fun v stop derived => .bind derived
  | .ahead item, i, behind, resolves => by
    simp only [TypedGrammar.evaluate]
    refine .nested honours.cut 1 (.andThen (honours.evaluate item behind resolves) ?_)
    exact fun v stop derived => .done (.ahead derived)
  | .notAhead item, i, behind, resolves => by
    simp only [TypedGrammar.evaluate]
    exact .nested honours.cut 1 (.negate honours.record (honours.evaluate item behind resolves) .notAhead)
  | .unknown _, i, _, _ => by
    simp only [TypedGrammar.evaluate]
    exact .noMatch

theorem evaluateAll (honours : Honours p input I H lo call) : ∀ (es : List Expr) {i : Int}, lo ≤ i →
    p.Resolves H (.items es) →
      (p.evaluateAll input call es i).Keeps I H fun vs stop => p.Derives input (.items es) i vs stop
  | [], i, _, _ => by
    simp only [TypedGrammar.evaluateAll]
    exact .done .nil
  | e :: es, i, behind, resolves => by
    simp only [TypedGrammar.evaluateAll]
    have first : p.Resolves H (.expr e) := resolves.of_subset (List.subset_append_left _ _)
    have rest : p.Resolves H (.items es) := resolves.of_subset (List.subset_append_right _ _)
    refine .andThen (honours.evaluate e behind first) fun v mid derived => ?_
    refine .andThen (honours.evaluateAll es (Int.le_trans behind derived.le_stop) rest) ?_
    exact fun vs stop later => .done (.cons derived later)

theorem evaluateFirst (honours : Honours p input I H lo call) : ∀ (es : List Expr) {i : Int}, lo ≤ i →
    p.Resolves H (.items es) →
      (p.evaluateFirst input call es i).Keeps I H fun v stop => ∃ e ∈ es, p.Derives input (.expr e) i [v] stop
  | [], i, _, _ => by
    simp only [TypedGrammar.evaluateFirst]
    exact .noMatch
  | e :: es, i, behind, resolves => by
    simp only [TypedGrammar.evaluateFirst]
    have first : p.Resolves H (.expr e) := resolves.of_subset (List.subset_append_left _ _)
    have rest : p.Resolves H (.items es) := resolves.of_subset (List.subset_append_right _ _)
    refine .orElse ((honours.evaluate e behind first).weaken ?_) ((honours.evaluateFirst es behind rest).weaken ?_)
    · exact fun v stop derived => ⟨e, List.mem_cons_self, derived⟩
    · rintro v stop ⟨f, listed, derived⟩
      exact ⟨f, List.mem_cons_of_mem _ listed, derived⟩
end

theorem finish (honours : Honours p input I H lo call) {q : TypedProduction} (evaluates : p.Evaluates input H q)
    {i stop : Int} {values : List Value} (derived : p.Derives input (.items q.items) i values stop) :
    (TypedGrammar.finish q i values stop).Keeps I H fun v end' => q.value values = .ok v ∧ end' = stop := by
  refine .inRoomFor honours.cut 3 fun room s kept => ?_
  obtain ⟨faults, misfits⟩ := evaluates i values stop derived
  cases made : q.value values with
  | ok v => exact ⟨honours.record kept rfl, rfl, rfl⟩
  | error e =>
    cases e with
    | fault f => exact ⟨honours.record kept rfl, faults f made⟩
    | misfit m => exact ⟨honours.record kept rfl, misfits m made⟩

theorem production (honours : Honours p input I H lo call) {q : TypedProduction} {i : Int} (behind : lo ≤ i)
    (resolves : p.Resolves H (.items q.items)) (evaluates : p.Evaluates input H q) :
    (p.production input call q i).Keeps I H fun v stop => ∃ vs,
      p.Derives input (.items q.items) i vs stop ∧ q.value vs = .ok v := by
  refine .nested honours.cut 1 (.andThen (honours.evaluateAll q.items behind resolves) fun vs stop derived => ?_)
  refine (honours.finish evaluates derived).weaken ?_
  rintro v _ ⟨made, rfl⟩
  exact ⟨vs, derived, made⟩

theorem firstProduction (honours : Honours p input I H lo call) {i : Int} (behind : lo ≤ i)
    {productions : List TypedProduction} (resolves : ∀ q ∈ productions, p.Resolves H (.items q.items))
    (evaluates : ∀ q ∈ productions, p.Evaluates input H q) :
    (p.firstProduction input call productions i).Keeps I H fun v stop => ∃ q ∈ productions, ∃ vs,
      p.Derives input (.items q.items) i vs stop ∧ q.value vs = .ok v := by
  induction productions with
  | nil => exact .noMatch
  | cons q rest ih =>
    have first := honours.production behind (resolves q List.mem_cons_self) (evaluates q List.mem_cons_self)
    have later := ih (fun r listed => resolves r (List.mem_cons_of_mem _ listed))
      fun r listed => evaluates r (List.mem_cons_of_mem _ listed)
    refine .orElse (first.weaken ?_) (later.weaken ?_)
    · exact fun v stop made => ⟨q, List.mem_cons_self, made⟩
    · rintro v stop ⟨r, listed, made⟩
      exact ⟨r, List.mem_cons_of_mem _ listed, made⟩

theorem body (honours : Honours p input I H lo call) {name : String} {typed : TypedRule}
    (known : p.typed? name = some typed) {i : Int} (behind : lo ≤ i)
    (resolves : ∀ q ∈ typed.productions, p.Resolves H (.items q.items))
    (evaluates : ∀ q ∈ typed.productions, p.Evaluates input H q) :
    (p.body input call typed i).Keeps I H fun v stop => p.Derives input (.expr (.reference name)) i [v] stop := by
  have choice : (Run.nested 1 (p.firstProduction input call typed.productions i)).Keeps I H fun v stop =>
      p.Derives input (.expr (.reference name)) i [v] stop := by
    refine .nested honours.cut 1 ((honours.firstProduction behind resolves evaluates).weaken ?_)
    rintro v stop ⟨q, listed, vs, derived, made⟩
    exact .rule known listed derived made
  unfold TypedGrammar.body
  cases typed.errorName with
  | none => exact choice
  | some name => exact .nested honours.cut 1 (.named honours.record name i choice)

end TypedGrammar.Honours

end Packrat
