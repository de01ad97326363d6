import Mathlib.Logic.Relation
import Packrat.Action.Stock
import Packrat.Parser
import Packrat.Proofs.Parse.Coherence
import Packrat.Proofs.Parse.Walk

namespace Packrat

namespace Run

/-- The first run comes to do the second one, without evaluating a call for it: from its own room and state, the
second one is done in the other room and state. -/
inductive Encloses : {α β : Type} → Run α → Room → Parse → Run β → Room → Parse → Prop where
  | here {α : Type} {m : Run α} {room s} : Encloses m room s m room s
  | nested {α β : Type} {m : Run α} {w : Run β} {levels room left s r t} (level : room.take? levels = some left)
    (inside : Encloses m left s w r t) : Encloses (nested levels m) room s w r t
  | first {α β γ : Type} {m : Run α} {matched : α → Int → Run γ} {failed : Run γ} {w : Run β} {room s r t}
    (inside : Encloses m room s w r t) : Encloses (m.split matched failed) room s w r t
  | matched {α β γ : Type} {m : Run α} {matched : α → Int → Run γ} {failed : Run γ} {w : Run β} {room s a stop s₁ r t}
    (run : m room s = (.matched a stop, s₁)) (inside : Encloses (matched a stop) room s₁ w r t) :
    Encloses (m.split matched failed) room s w r t
  | failed {α β γ : Type} {m : Run α} {matched : α → Int → Run γ} {failed : Run γ} {w : Run β} {room s s₁ r t}
    (run : m room s = (.failed, s₁)) (inside : Encloses failed room s₁ w r t) :
    Encloses (m.split matched failed) room s w r t
  | negate {β : Type} {m : Run Value} {w : Run β} {index what room s r t}
    (inside : Encloses m room { s with failures := {} } w r t) : Encloses (negate m index what) room s w r t
  | named {β : Type} {m : Run Value} {w : Run β} {name index room s r t}
    (inside : Encloses m room { s with failures := {} } w r t) : Encloses (named name index m) room s w r t
  | settle {β : Type} {body : Run Value} {w : Run β} {c size v stop room s r t} (again : s.isReentered c = true)
    (inside : Encloses (Run.nested 1 (growFrom body c ((size - stop).toNat + 1) v stop)) room s w r t) :
    Encloses (settle body c size v stop) room s w r t
  | again {β : Type} {body : Run Value} {w : Run β} {c rounds v stop room s r t}
    (inside : Encloses body room (s.plantSeed c v stop) w r t) :
    Encloses (growFrom body c (rounds + 1) v stop) room s w r t
  | longer {β : Type} {body : Run Value} {w : Run β} {c rounds v stop v' stop' room s s₁ r t}
    (run : body room (s.plantSeed c v stop) = (.matched v' stop', s₁)) (longer : stop < stop')
    (inside : Encloses (growFrom body c rounds v' stop') room s₁ w r t) :
    Encloses (growFrom body c (rounds + 1) v stop) room s w r t

namespace Encloses

variable {α β γ : Type} {m other : Run α} {next : α → Int → Run γ} {w : Run β} {room r : Room} {s s₁ t : Parse}

theorem andThen_first (inside : Encloses m room s w r t) : Encloses (m.andThen next) room s w r t := by
  rw [andThen_eq_split]
  exact .first inside

theorem andThen_next {a : α} {stop : Int} (run : m room s = (.matched a stop, s₁))
    (inside : Encloses (next a stop) room s₁ w r t) : Encloses (m.andThen next) room s w r t := by
  rw [andThen_eq_split]
  exact .matched run inside

theorem orElse_first (inside : Encloses m room s w r t) : Encloses (m.orElse other) room s w r t := by
  rw [orElse_eq_split]
  exact .first inside

end Encloses

theorem Encloses.halted {α β : Type} {m : Run α} {w : Run β} {room r : Room} {s t t' : Parse} {h : Halt}
    (inside : Encloses m room s w r t) (run : w r t = (.halted h, t')) : m room s = (.halted h, t') := by
  induction inside with
  | here => exact run
  | nested level _ ih =>
    unfold Run.nested
    rw [level]
    exact ih run
  | first _ ih => exact split_of_halted (ih run)
  | matched first _ ih => exact (split_of_matched first).trans (ih run)
  | failed first _ ih => exact (split_of_failed first).trans (ih run)
  | negate _ ih =>
    unfold Run.negate
    simp only [ih run]
  | named _ ih =>
    unfold Run.named
    simp only [ih run]
  | settle again _ ih =>
    unfold Packrat.settle
    rw [if_pos again]
    exact ih run
  | again _ ih =>
    unfold growFrom
    simp only [ih run]
  | longer first longer _ ih =>
    unfold growFrom
    simp only [first, if_neg (Int.not_le.mpr longer)]
    exact ih run

def SetsAside (w : Run Value) : Prop :=
  (∃ m index what, w = negate m index what) ∨ ∃ m name index, w = named name index m

/-- Work that leaves the stack as it was, and loses no failures unless it halts inside work that has put them aside. -/
def Careful {α : Type} (m : Run α) : Prop :=
  ∀ room s, (m room s).2.stack = s.stack ∧ (s.failures ≤ (m room s).2.failures ∨
    ∃ h w r t, (m room s).1 = .halted h ∧ SetsAside w ∧ Encloses m room s w r t ∧ (w r t).1 = .halted h)

namespace Careful

variable {α β : Type} {m : Run α}

theorem of_keeps (stack : ∀ room s, (m room s).2.stack = s.stack)
    (keeps : ∀ room s, s.failures ≤ (m room s).2.failures) : m.Careful :=
  fun room s => ⟨stack room s, .inl (keeps room s)⟩

theorem of_same (same : ∀ room s, (m room s).2 = s) : m.Careful :=
  of_keeps (fun room s => by rw [same]) (fun room s => by rw [same]; exact Failures.le_refl _)

theorem nested (levels : Nat) (careful : m.Careful) : (Run.nested levels m).Careful := by
  intro room s
  cases level : room.take? levels with
  | none =>
    have cut : Run.nested levels m room s = (.halted .nestedTooDeeply, s) := by simp only [Run.nested, level]
    rw [cut]
    exact ⟨rfl, .inl (Failures.le_refl _)⟩
  | some left =>
    have same : Run.nested levels m room s = m left s := by simp only [Run.nested, level]
    obtain ⟨stack, keeps⟩ := careful left s
    rw [same]
    refine ⟨stack, keeps.imp_right fun ⟨h, w, r, t, cut, aside, inside, halted⟩ => ?_⟩
    exact ⟨h, w, r, t, cut, aside, .nested level inside, halted⟩

theorem split {matched : α → Int → Run β} {failed : Run β} (first : m.Careful)
    (second : ∀ a stop, (matched a stop).Careful) (third : failed.Careful) : (m.split matched failed).Careful := by
  intro room s
  obtain ⟨stack, keeps⟩ := first room s
  cases run : m room s with
  | mk o s₁ =>
    rw [run] at stack keeps
    rcases keeps with keeps | ⟨h, w, r, t, cut, aside, inside, halted⟩
    · cases o with
      | matched a stop =>
        rw [split_of_matched run]
        obtain ⟨stack', keeps'⟩ := second a stop room s₁
        refine ⟨stack'.trans stack,
          keeps'.imp (Failures.le_trans keeps) fun ⟨h, w, r, t, cut, aside, inside, halted⟩ => ?_⟩
        exact ⟨h, w, r, t, cut, aside, .matched run inside, halted⟩
      | failed =>
        rw [split_of_failed run]
        obtain ⟨stack', keeps'⟩ := third room s₁
        refine ⟨stack'.trans stack,
          keeps'.imp (Failures.le_trans keeps) fun ⟨h, w, r, t, cut, aside, inside, halted⟩ => ?_⟩
        exact ⟨h, w, r, t, cut, aside, .failed run inside, halted⟩
      | halted h =>
        rw [split_of_halted run]
        exact ⟨stack, .inl keeps⟩
    · have whole := inside.halted (Prod.ext halted rfl)
      cases run.symm.trans whole
      rw [split_of_halted run]
      exact ⟨stack, .inr ⟨h, w, r, t, rfl, aside, .first inside, halted⟩⟩

theorem negate {m : Run Value} (index : Int) (what : String) (careful : m.Careful) :
    (Run.negate m index what).Careful := by
  intro room s
  obtain ⟨stack, _⟩ := careful room { s with failures := {} }
  cases run : m room { s with failures := {} } with
  | mk o s₁ =>
    rw [run] at stack
    cases o with
    | matched v stop =>
      have ends : Run.negate m index what room s = Run.fail index what room { s₁ with failures := s.failures } := by
        simp only [Run.negate, run]
      rw [ends]
      exact ⟨stack, .inl (Failures.le_fail _ _ _)⟩
    | failed =>
      have ends : Run.negate m index what room s = (.matched .none index, { s₁ with failures := s.failures }) := by
        simp only [Run.negate, run]
      rw [ends]
      exact ⟨stack, .inl (Failures.le_refl _)⟩
    | halted h =>
      have ends : Run.negate m index what room s = (.halted h, s₁) := by simp only [Run.negate, run]
      rw [ends]
      exact ⟨stack, .inr ⟨h, _, room, s, rfl, .inl ⟨m, index, what, rfl⟩, .here, by rw [ends]⟩⟩

theorem named {m : Run Value} (name : String) (index : Int) (careful : m.Careful) :
    (Run.named name index m).Careful := by
  intro room s
  obtain ⟨stack, _⟩ := careful room { s with failures := {} }
  cases run : m room { s with failures := {} } with
  | mk o s₁ =>
    rw [run] at stack
    cases o with
    | matched v stop =>
      simp only [Run.named, run]
      exact ⟨stack, .inl (Failures.le_merge_right _ _)⟩
    | failed =>
      simp only [Run.named, run]
      exact ⟨stack, .inl (Failures.le_merge_right _ _)⟩
    | halted h =>
      have ends : Run.named name index m room s = (.halted h, s₁) := by simp only [Run.named, run]
      rw [ends]
      exact ⟨stack, .inr ⟨h, _, room, s, rfl, .inr ⟨m, name, index, rfl⟩, .here, by rw [ends]⟩⟩

theorem finish (q : TypedProduction) (start : Int) (values : List Value) (stop : Int) :
    (TypedGrammar.finish q start values stop).Careful := by
  refine of_keeps (fun room s => ?_) (fun room s => ?_)
  all_goals
    unfold TypedGrammar.finish inRoomFor
    split
    · dsimp only
      split <;> first | rfl | exact Failures.le_refl _
    · first | rfl | exact Failures.le_refl _

theorem kept : Run.Kept fun _ m => m.Careful where
  done _ _ := of_same fun _ _ => rfl
  noMatch := of_same fun _ _ => rfl
  halt _ := of_same fun _ _ => rfl
  fail _ _ := of_keeps (fun _ _ => rfl) fun _ _ => Failures.le_fail _ _ _
  finish := finish
  nested := nested
  split := split
  negate := negate
  named := named

end Careful

def Restores (m : Run Value) : Prop :=
  ∀ room s, (m room s).2.stack = s.stack ∧ s.failures ≤ (m room s).2.failures

theorem Restores.careful {m : Run Value} (restores : m.Restores) : m.Careful :=
  .of_keeps (fun room s => (restores room s).1) fun room s => (restores room s).2

namespace Restores

variable {m : Run Value}

theorem nested (levels : Nat) (restores : m.Restores) : (Run.nested levels m).Restores := by
  intro room s
  unfold Run.nested
  cases room.take? levels with
  | none => exact ⟨rfl, Failures.le_refl _⟩
  | some left => exact restores left s

theorem inRoomFor (levels : Nat) (restores : m.Restores) : (Run.inRoomFor levels m).Restores := by
  intro room s
  unfold Run.inRoomFor
  split
  · exact restores room s
  · exact ⟨rfl, Failures.le_refl _⟩

theorem reuse (entry : Entry) : Run.Restores (Parse.reuse entry) := by
  intro room s
  cases settled : entry.settled with
  | true =>
    simp only [Parse.reuse, settled, if_true]
    split <;> exact ⟨rfl, Failures.le_merge_left _ _⟩
  | false =>
    simp only [Parse.reuse, settled, Bool.false_eq_true, if_false]
    split <;>
      simp only [Parse.stack_makeProvisional, Parse.failures_makeProvisional, Parse.stack_modifyEntry,
        Parse.failures_modifyEntry, true_and, Failures.le_refl]

end Restores

section Calls

variable {body : Run Value} {c : Call} (steady : ∀ room s, (body room s).2.stack = s.stack)

include steady

theorem stack_growFrom (rounds : Nat) (v : Value) (stop : Int) (room : Room) (s : Parse) :
    (growFrom body c rounds v stop room s).2.stack = s.stack := by
  induction rounds generalizing v stop s with
  | zero => rfl
  | succ rounds ih =>
    have same : (body room (s.plantSeed c v stop)).2.stack = s.stack := steady room _
    unfold growFrom
    cases run : body room (s.plantSeed c v stop) with
    | mk o s₁ =>
      rw [run] at same
      cases o with
      | matched v' stop' =>
        dsimp only
        split
        · exact same
        · exact (ih v' stop' s₁).trans same
      | failed | halted h => exact same

theorem stack_settle (size : Nat) (v : Value) (stop : Int) (room : Room) (s : Parse) :
    (settle body c size v stop room s).2.stack = s.stack := by
  unfold Packrat.settle
  split
  · unfold Run.nested
    split
    · exact stack_growFrom steady _ v stop _ s
    · rfl
  · rfl

theorem stack_whole (size : Nat) (room : Room) (s : Parse) :
    ((body.andThen (settle body c size)) room s).2.stack = s.stack := by
  have first := steady room s
  unfold andThen
  cases run : body room s with
  | mk o s₁ =>
    rw [run] at first
    cases o with
    | matched v stop => exact (stack_settle steady size v stop room s₁).trans first
    | failed | halted h => exact first

theorem restores_evaluateCall (size : Nat) : (evaluateCall body c size).Restores := by
  refine .inRoomFor 2 fun room s => ?_
  have inner := stack_whole (c := c) steady size room (s.enter c)
  dsimp only
  cases run : body.andThen (settle body c size) room (s.enter c) with
  | mk o s₁ =>
    rw [run] at inner
    have left : (s₁.leave c s.failures).stack = s.stack := congrArg List.tail inner
    have kept : s.failures ≤ (s₁.leave c s.failures).failures := Failures.le_merge_left _ _
    have remembered : ∀ result, ((s₁.leave c s.failures).remember c result).stack = s.stack ∧
        s.failures ≤ ((s₁.leave c s.failures).remember c result).failures := by
      intro result
      unfold Parse.remember
      split
      · split <;> exact ⟨left, kept⟩
      · exact ⟨left, kept⟩
    cases o with
    | matched v stop => exact remembered _
    | failed => exact remembered _
    | halted h => exact ⟨left, kept⟩

end Calls

end Run

namespace TypedGrammar

open Run Relation

variable {p : TypedGrammar} {input : Input}

theorem restores_callWithin (depth : Nat) (name : String) (i : Int) : (p.callWithin input depth name i).Restores := by
  induction depth generalizing name i with
  | zero =>
    unfold callWithin
    refine .nested 1 fun room s => ?_
    cases s.memo.get? ⟨i, name⟩ with
    | some entry => exact Restores.reuse entry room s
    | none => cases p.typed? name <;> exact ⟨rfl, Failures.le_refl _⟩
  | succ depth ih =>
    unfold callWithin
    refine .nested 1 fun room s => ?_
    cases s.memo.get? ⟨i, name⟩ with
    | some entry => exact Restores.reuse entry room s
    | none =>
      cases p.typed? name with
      | none => exact ⟨rfl, Failures.le_refl _⟩
      | some typed =>
        have steady : ∀ room s, (p.body input (p.callWithin input depth) typed i room s).2.stack = s.stack :=
          fun room s => (Careful.kept.body (fun name i => (ih name i).careful) typed i room s).1
        exact restores_evaluateCall steady _ room s

structure Pending where
  depth : Nat
  call : Call
  room : Room
  state : Parse

variable (p input)

def pend (a : Pending) : Outcome Value × Parse :=
  p.callWithin input a.depth a.call.rule a.call.start a.room a.state

def Nests (a b : Pending) : Prop :=
  ∃ typed left, a.depth = b.depth + 1 ∧ a.room.take? 1 = some left ∧ left.holds 2 = true ∧
    a.state.memo.get? a.call = none ∧ p.typed? a.call.rule = some typed ∧
    Encloses ((p.body input (p.callWithin input b.depth) typed a.call.start).andThen
        (settle (p.body input (p.callWithin input b.depth) typed a.call.start) a.call input.size))
      left (a.state.enter a.call) (p.callWithin input b.depth b.call.rule b.call.start) b.room b.state

variable {p input}

theorem halted_of_nests {a b : Pending} {h : Halt} {t : Parse} (nests : p.Nests input a b)
    (halted : p.pend input b = (.halted h, t)) : ∃ t', p.pend input a = (.halted h, t') ∧ t.failures ≤ t'.failures := by
  obtain ⟨typed, left, deeper, level, fits, fresh, known, inside⟩ := nests
  have whole := inside.halted halted
  refine ⟨t.leave a.call a.state.failures, ?_, Failures.le_merge_right _ _⟩
  unfold pend
  rw [deeper, callWithin]
  simp only [Run.nested, level, fresh, known, evaluateCall, Run.inRoomFor, fits, if_true, whole]

theorem halted_of_nested {a b : Pending} {h : Halt} {t : Parse} (nested : ReflTransGen (p.Nests input) a b)
    (halted : p.pend input b = (.halted h, t)) : ∃ t', p.pend input a = (.halted h, t') ∧ t.failures ≤ t'.failures := by
  induction nested using ReflTransGen.head_induction_on with
  | refl => exact ⟨t, halted, Failures.le_refl _⟩
  | head nests _ ih =>
    obtain ⟨t₁, halted, kept⟩ := ih
    obtain ⟨t₂, halted, kept'⟩ := halted_of_nests nests halted
    exact ⟨t₂, halted, Failures.le_trans kept kept'⟩

/-- No failures are lost by a call, however it ends, nor by anything else, unless a halt escapes through a lookahead
or a rule with a name. Input that nests too deeply is reported no earlier than at the furthest failure that was on
record when any of the calls began that are still being evaluated then. -/
theorem unwinding_keeps (p : TypedGrammar) (input : Input) :
    (∀ depth name i, (p.callWithin input depth name i).Restores) ∧
    (∀ depth e i, (p.evaluate input (p.callWithin input depth) e i).Careful) ∧
    (∀ depth typed i, (p.body input (p.callWithin input depth) typed i).Careful) ∧
    ∀ a b h t, ReflTransGen (p.Nests input) a b → p.pend input b = (.halted h, t) →
      h = .fault .tooDeep ∨ h = .nestedTooDeeply → ∃ t', p.pend input a = (.halted h, t') ∧
        b.state.failures ≤ t'.failures ∧ ∀ source complete, ∃ e,
          Parser.conclude input source complete (.halted h) t'.failures = .error (.input e) ∧
          e.kind = .nestedTooDeeply ∧ b.state.failures.furthest ≤ e.position.index := by
  have calls : ∀ depth name i, (p.callWithin input depth name i).Careful := fun depth name i =>
    (restores_callWithin depth name i).careful
  refine ⟨restores_callWithin, fun depth => Careful.kept.evaluate (calls depth),
    fun depth => Careful.kept.body (calls depth), fun a b h t nested halted deep => ?_⟩
  obtain ⟨t', ends, kept⟩ := halted_of_nested nested halted
  have before : b.state.failures ≤ t.failures := by
    have restores : b.state.failures ≤
      (p.callWithin input b.depth b.call.rule b.call.start b.room b.state).2.failures :=
      (restores_callWithin _ _ _ b.room b.state).2
    unfold pend at halted
    rwa [halted] at restores
  have all := Failures.le_trans before kept
  refine ⟨t', ends, all, fun source complete => ?_⟩
  have late : b.state.failures.furthest ≤ ((t'.failures.furthest.toNat : Nat) : Int) :=
    Int.le_trans all.1 (Int.self_le_toNat _)
  rcases deep with rfl | rfl
  all_goals exact ⟨_, rfl, rfl, late⟩

def hopeful : Grammar where
  rules :=
    let longer : Expr := .optional (.sequence [.literal "a", .literal "a", .literal "a", .literal "x"])
    [⟨"start", [⟨[longer, .reference "deep"], none⟩], none, true, none, ""⟩,
      ⟨"wary", [⟨[longer, .notAhead (.reference "deep")], none⟩], none, true, none, ""⟩,
      ⟨"deep", [⟨[.literal "a"], some { callable := some .tooDeep }⟩], some "t", true, none, ""⟩]
  tokens := []
  states := []
  name := "hopeful"
  distinctRules := by decide
  distinctTokens := Grammar.distinctTokens_nil
  disjoint := by decide
  distinctInStates := Grammar.distinctInStates_nil

def halt? {α : Type} : Outcome α → Option Halt
  | .halted h => some h
  | _ => none

theorem halted_of_halt? {α : Type} {o : Outcome α × Parse} {h : Halt} (halted : halt? o.1 = some h) :
    o = (.halted h, o.2) := by
  obtain ⟨o, s⟩ := o
  cases o with
  | halted => cases halted; rfl
  | _ => cases halted

theorem hopeful_keeps : ∃ (p : TypedGrammar) (s t : Parse), p.grammar = hopeful ∧
    Typing.typedRules hopeful [] = .ok p.typedRules ∧ s.failures.furthest = 3 ∧ s.failures ≤ t.failures ∧
    p.pend (.text #['a', 'a', 'a', 'b']) ⟨2, ⟨0, "start"⟩, .unlimited, {}⟩ = (.halted (.fault .tooDeep), t) := by
  obtain ⟨rules, typed, q, longer, v, s, accepted, known, only, plain, items, run, far, halted⟩ :
      ∃ (rules : List (String × TypedRule)) (typed : TypedRule) (q : TypedProduction) (longer : Expr) (v : Value)
        (s : Parse), Typing.typedRules hopeful [] = .ok rules ∧ rules.lookup "start" = some typed ∧
          typed.productions = [q] ∧ typed.errorName = none ∧ q.items = [longer, .reference "deep"] ∧
          evaluate ⟨hopeful, rules⟩ (.text #['a', 'a', 'a', 'b'])
            (callWithin ⟨hopeful, rules⟩ (.text #['a', 'a', 'a', 'b']) 1) longer 0 .unlimited
            (({} : Parse).enter ⟨0, "start"⟩) = (.matched v 0, s) ∧ s.failures.furthest = 3 ∧
          halt? (pend ⟨hopeful, rules⟩ (.text #['a', 'a', 'a', 'b']) ⟨1, ⟨0, "deep"⟩, .unlimited, s⟩).1 =
            some (.fault .tooDeep) :=
    ⟨_, _, _, _, _, _, rfl, rfl, rfl, rfl, rfl, rfl, rfl, by decide +kernel⟩
  have inside : Encloses (body ⟨hopeful, rules⟩ (.text #['a', 'a', 'a', 'b'])
      (callWithin ⟨hopeful, rules⟩ (.text #['a', 'a', 'a', 'b']) 1) typed 0) .unlimited
      (({} : Parse).enter ⟨0, "start"⟩) (callWithin ⟨hopeful, rules⟩ (.text #['a', 'a', 'a', 'b']) 1 "deep" 0)
      .unlimited s := by
    unfold body
    rw [plain, only]
    refine .nested rfl (.orElse_first (.nested rfl (.andThen_first ?_)))
    rw [items, evaluateAll]
    refine .andThen_next run (.andThen_first ?_)
    rw [evaluateAll]
    exact .andThen_first (.nested rfl .here)
  have nests : (⟨hopeful, rules⟩ : TypedGrammar).Nests (.text #['a', 'a', 'a', 'b'])
      ⟨2, ⟨0, "start"⟩, .unlimited, {}⟩ ⟨1, ⟨0, "deep"⟩, .unlimited, s⟩ :=
    ⟨typed, .unlimited, rfl, rfl, rfl, rfl, known, .andThen_first inside⟩
  obtain ⟨_, _, _, unwinds⟩ := unwinding_keeps ⟨hopeful, rules⟩ (.text #['a', 'a', 'a', 'b'])
  obtain ⟨t, ends, kept, _⟩ := unwinds _ _ _ _ (.single nests) (halted_of_halt? halted) (.inl rfl)
  exact ⟨⟨hopeful, rules⟩, s, t, rfl, accepted, far, kept, ends⟩

/-- What a lookahead has put aside is lost when a halt escapes through it. -/
theorem hopeful_loses : ∃ (p : TypedGrammar) (s t t' : Parse) (v : Value), p.grammar = hopeful ∧
    Typing.typedRules hopeful [] = .ok p.typedRules ∧
    p.evaluate (.text #['a', 'a', 'a', 'b']) (p.callWithin (.text #['a', 'a', 'a', 'b']) 1)
      (.optional (.sequence [.literal "a", .literal "a", .literal "a", .literal "x"])) 0 .unlimited
      (({} : Parse).enter ⟨0, "wary"⟩) = (.matched v 0, s) ∧ s.failures.furthest = 3 ∧
    p.evaluate (.text #['a', 'a', 'a', 'b']) (p.callWithin (.text #['a', 'a', 'a', 'b']) 1)
      (.notAhead (.reference "deep")) 0 .unlimited s = (.halted (.fault .tooDeep), t) ∧ ¬ s.failures ≤ t.failures ∧
    p.apply (.text #['a', 'a', 'a', 'b']) "wary" 0 .unlimited {} = (.halted (.fault .tooDeep), t') ∧
    t'.failures.furthest = -1 := by
  obtain ⟨rules, s, v, accepted, run, far, halted, ends⟩ :
      ∃ (rules : List (String × TypedRule)) (s : Parse) (v : Value), Typing.typedRules hopeful [] = .ok rules ∧
        evaluate ⟨hopeful, rules⟩ (.text #['a', 'a', 'a', 'b'])
          (callWithin ⟨hopeful, rules⟩ (.text #['a', 'a', 'a', 'b']) 1)
          (.optional (.sequence [.literal "a", .literal "a", .literal "a", .literal "x"])) 0 .unlimited
          (({} : Parse).enter ⟨0, "wary"⟩) = (.matched v 0, s) ∧ s.failures.furthest = 3 ∧
        (fun o : Outcome Value × Parse => (halt? o.1, o.2.failures.furthest))
          (evaluate ⟨hopeful, rules⟩ (.text #['a', 'a', 'a', 'b'])
            (callWithin ⟨hopeful, rules⟩ (.text #['a', 'a', 'a', 'b']) 1) (.notAhead (.reference "deep")) 0
            .unlimited s) = (some (.fault .tooDeep), -1) ∧
        (fun o : Outcome Value × Parse => (halt? o.1, o.2.failures.furthest))
          (apply ⟨hopeful, rules⟩ (.text #['a', 'a', 'a', 'b']) "wary" 0 .unlimited {}) =
          (some (.fault .tooDeep), -1) :=
    ⟨_, _, _, rfl, rfl, rfl, by decide +kernel, by decide +kernel⟩
  obtain ⟨halted, lost⟩ := Prod.mk.inj halted
  obtain ⟨ends, last⟩ := Prod.mk.inj ends
  refine ⟨⟨hopeful, rules⟩, s, _, _, v, rfl, accepted, run, far, halted_of_halt? halted, fun kept => ?_,
    halted_of_halt? ends, last⟩
  have furthest := kept.1
  omega

end TypedGrammar

end Packrat
