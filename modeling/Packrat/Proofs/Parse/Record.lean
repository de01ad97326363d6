import Packrat.Proofs.Parse.Coherence
import Packrat.Proofs.Parse.Contract
import Packrat.Proofs.Parse.Termination

namespace Packrat

open Relation

variable {H : Halt → Prop}

def Recorded (p : TypedGrammar) (input : Input) (s : Parse) : Prop :=
  ∀ e ∈ s.memo, ∀ v stop, e.result = some (v, stop) →
    p.Derives input (.expr (.reference e.call.rule)) e.call.start [v] stop

namespace Recorded

variable {p : TypedGrammar} {input : Input} {s : Parse} {c : Call} {v : Value} {stop : Int}

theorem ofRecord : OfRecord (Recorded p input) := by
  intro s s' recorded same
  unfold Recorded
  rw [same]
  exact recorded

theorem fresh (events : List Event) : Recorded p input { events } := fun _ member => (List.not_mem_nil member).elim

theorem enter (recorded : Recorded p input s) (c : Call) : Recorded p input (s.enter c) := by
  intro e member v stop result
  rcases Memo.mem_insert.mp member with rfl | member
  · cases result
  · exact recorded e member v stop result

theorem modify (recorded : Recorded p input s) {f : Entry → Entry} (call : ∀ e, (f e).call = e.call)
    (derived : ∀ e v stop, (f e).result = some (v, stop) → e.result = some (v, stop) ∨
      p.Derives input (.expr (.reference c.rule)) c.start [v] stop) : Recorded p input (s.modifyEntry c f) := by
  intro e member v stop result
  obtain ⟨e₀, listed, rfl | ⟨here, rfl⟩⟩ := Memo.mem_modify member
  · exact recorded _ listed v stop result
  · rw [call]
    rcases derived e₀ v stop result with before | derived
    · exact recorded e₀ listed v stop before
    · exact here ▸ derived

theorem plantSeed (recorded : Recorded p input s)
    (derived : p.Derives input (.expr (.reference c.rule)) c.start [v] stop) :
    Recorded p input (s.plantSeed c v stop) := by
  refine recorded.modify (fun _ => rfl) fun e w there result => .inr ?_
  cases result
  exact derived

theorem makeProvisional (recorded : Recorded p input s) (calls : List Call) :
    Recorded p input (s.makeProvisional calls) := by
  unfold Parse.makeProvisional
  induction calls generalizing s with
  | nil => exact recorded
  | cons c calls ih => exact ih (recorded.modify (fun _ => rfl) fun _ _ _ result => .inl result)

theorem leave (recorded : Recorded p input s) (c : Call) (saved : Failures) : Recorded p input (s.leave c saved) :=
  ofRecord (recorded.modify (c := c) (f := fun e => { e with failures := s.failures }) (fun _ => rfl)
    fun _ _ _ result => .inl result) rfl

theorem remember (recorded : Recorded p input s) {result : Result} (derived : ∀ v stop, result = some (v, stop) →
    p.Derives input (.expr (.reference c.rule)) c.start [v] stop) : Recorded p input (s.remember c result) := by
  unfold Parse.remember
  split
  · split
    · exact fun e member => recorded e (Memo.mem_of_mem_erase member)
    · exact recorded.modify (fun _ => rfl) fun _ v stop same => .inr (derived v stop same)
  · exact recorded

end Recorded

namespace TypedGrammar

open Run Parse

variable {p : TypedGrammar} {input : Input} {c : Call} {body : Run Value}

theorem keeps_reuse {e : Entry} {s : Parse} (recorded : Recorded p input s) (found : s.memo.get? c = some e)
    (room : Room) : Recorded p input (reuse e room s).2 ∧ (reuse e room s).1.Within H fun v stop =>
      p.Derives input (.expr (.reference c.rule)) c.start [v] stop := by
  rw [reuse_eq]
  refine ⟨?_, ?_⟩
  · unfold Parse.answered
    split
    · exact Recorded.ofRecord recorded rfl
    · exact (recorded.modify (c := e.call) (f := fun e => { e with reentered := true }) (fun _ => rfl)
        fun _ _ _ result => .inl result).makeProvisional _
  · cases seed : e.result with
    | none => trivial
    | some answer =>
      rw [← Memo.call_of_get? found]
      exact recorded e (Memo.mem_of_get? found) _ _ seed

theorem keeps_growFrom (endless : H .exhausted) (keeps : body.Keeps (Recorded p input) H fun v stop =>
      p.Derives input (.expr (.reference c.rule)) c.start [v] stop) (rounds : Nat) {v : Value} {stop : Int}
    (derived : p.Derives input (.expr (.reference c.rule)) c.start [v] stop) :
    (growFrom body c rounds v stop).Keeps (Recorded p input) H fun v stop =>
      p.Derives input (.expr (.reference c.rule)) c.start [v] stop := by
  induction rounds generalizing v stop with
  | zero => exact .halt endless
  | succ rounds ih =>
    intro room s recorded
    have planted := recorded.plantSeed derived
    cases run : body room (s.plantSeed c v stop) with
    | mk o s' =>
      simp only [growFrom, run]
      cases o with
      | matched v' stop' =>
        obtain ⟨recorded', derived'⟩ := keeps.of_matched planted run
        dsimp only
        split
        · exact ⟨Recorded.ofRecord recorded' rfl, derived⟩
        · exact ih derived' room s' recorded'
      | failed => exact ⟨Recorded.ofRecord (keeps.of_failed planted run) rfl, derived⟩
      | halted h => exact keeps.of_halted planted run

theorem keeps_settle (cut : H .nestedTooDeeply) (endless : H .exhausted)
    (keeps : body.Keeps (Recorded p input) H fun v stop =>
      p.Derives input (.expr (.reference c.rule)) c.start [v] stop) (size : Nat) {v : Value} {stop : Int}
    (derived : p.Derives input (.expr (.reference c.rule)) c.start [v] stop) :
    (settle body c size v stop).Keeps (Recorded p input) H fun v stop =>
      p.Derives input (.expr (.reference c.rule)) c.start [v] stop := by
  intro room s recorded
  unfold settle
  split
  · exact Keeps.nested cut 1 (keeps_growFrom endless keeps _ derived) room s recorded
  · exact ⟨recorded, derived⟩

theorem keeps_evaluateCall (cut : H .nestedTooDeeply) (endless : H .exhausted)
    (keeps : body.Keeps (Recorded p input) H fun v stop =>
      p.Derives input (.expr (.reference c.rule)) c.start [v] stop) (size : Nat) :
    (evaluateCall body c size).Keeps (Recorded p input) H fun v stop =>
      p.Derives input (.expr (.reference c.rule)) c.start [v] stop := by
  refine .inRoomFor cut 2 fun room s recorded => ?_
  have whole := keeps.andThen fun v stop derived => keeps_settle cut endless keeps size derived
  have entered := recorded.enter c
  cases run : body.andThen (settle body c size) room (s.enter c) with
  | mk o s' =>
    dsimp only
    cases o with
    | matched v stop =>
      obtain ⟨recorded', derived⟩ := whole.of_matched entered run
      refine ⟨(recorded'.leave c s.failures).remember fun w there same => ?_, derived⟩
      cases same
      exact derived
    | failed => exact ⟨((whole.of_failed entered run).leave c s.failures).remember nofun, trivial⟩
    | halted h => exact (whole.of_halted entered run).imp_left fun recorded' => recorded'.leave c s.failures

structure Complies (p : TypedGrammar) (input : Input) (H : Halt → Prop) (lo : Int) : Prop where
  cut : H .nestedTooDeeply
  endless : H .exhausted
  inside : H .beforeStart ∨ 0 ≤ lo
  suited : H .onlyText ∨ p.isFor input = true
  resolves : ∀ {name typed}, p.typed? name = some typed → ∀ q ∈ typed.productions, p.Resolves H (.items q.items)
  evaluates : ∀ {name typed}, p.typed? name = some typed → ∀ q ∈ typed.productions, p.Evaluates input H q
  typed : ∀ {name r}, p.grammar.rule? name = some r → p.typed? name = none → H (.unknownRule name)

theorem keeps_callWithin {lo : Int} (complies : p.Complies input H lo) (depth : Nat) (name : String)
    (called : p.typed? name = none → H (.unknownRule name)) {i : Int} (behind : lo ≤ i) :
    (p.callWithin input depth name i).Keeps (Recorded p input) H fun v stop =>
      p.Derives input (.expr (.reference name)) i [v] stop := by
  induction depth generalizing name i with
  | zero =>
    unfold callWithin
    refine .nested complies.cut 1 fun room s recorded => ?_
    cases found : s.memo.get? ⟨i, name⟩ with
    | some e => exact keeps_reuse recorded found room
    | none =>
      cases known : p.typed? name with
      | none => exact ⟨recorded, called known⟩
      | some rule => exact ⟨recorded, complies.endless⟩
  | succ depth ih =>
    have honours : p.Honours input (Recorded p input) H lo (p.callWithin input depth) :=
      ⟨Recorded.ofRecord, complies.cut, complies.endless, complies.inside, complies.suited,
        fun behind found => ih _ (complies.typed found) behind⟩
    unfold callWithin
    refine .nested complies.cut 1 fun room s recorded => ?_
    cases found : s.memo.get? ⟨i, name⟩ with
    | some e => exact keeps_reuse recorded found room
    | none =>
      cases known : p.typed? name with
      | none => exact ⟨recorded, called known⟩
      | some rule =>
        have body := honours.body known behind (complies.resolves known) (complies.evaluates known)
        exact keeps_evaluateCall (c := ⟨i, name⟩) complies.cut complies.endless body input.size room s recorded

theorem resolves_true (goal : Goal) : p.Resolves (fun _ => True) goal := fun _ _ _ _ => trivial

theorem evaluates_true (q : TypedProduction) : p.Evaluates input (fun _ => True) q :=
  fun _ _ _ _ => ⟨fun _ _ => trivial, fun _ _ => trivial⟩

theorem complies_true (lo : Int) : p.Complies input (fun _ => True) lo where
  cut := trivial
  endless := trivial
  inside := .inl trivial
  suited := .inl trivial
  resolves _ _ _ := resolves_true _
  evaluates _ _ _ := evaluates_true _
  typed _ _ := trivial

theorem honours_true (depth : Nat) (lo : Int) :
    p.Honours input (Recorded p input) (fun _ => True) lo (p.callWithin input depth) where
  record := Recorded.ofRecord
  cut := trivial
  endless := trivial
  inside := .inl trivial
  suited := .inl trivial
  calls behind _ := keeps_callWithin (complies_true _) depth _ (fun _ => trivial) behind

theorem keeps_body {depth : Nat} {name : String} {typed : TypedRule} (known : p.typed? name = some typed) (i : Int) :
    (p.body input (p.callWithin input depth) typed i).Keeps (Recorded p input) (fun _ => True) fun v stop =>
      p.Derives input (.expr (.reference name)) i [v] stop :=
  (honours_true depth i).body known (Int.le_refl i) (fun _ _ => resolves_true _) fun _ _ => evaluates_true _

theorem keeps_production {depth : Nat} {q : TypedProduction} {i : Int} :
    (p.production input (p.callWithin input depth) q i).Keeps (Recorded p input) (fun _ => True) fun v stop => ∃ vs,
      p.Derives input (.items q.items) i vs stop ∧ q.value vs = .ok v :=
  (honours_true depth i).production (Int.le_refl i) (resolves_true _) (evaluates_true _)

theorem keeps_evaluate {depth : Nat} {e : Expr} {i : Int} :
    (p.evaluate input (p.callWithin input depth) e i).Keeps (Recorded p input) (fun _ => True) fun v stop =>
      p.Derives input (.expr e) i [v] stop :=
  (honours_true depth i).evaluate e (Int.le_refl i) (resolves_true _)

end TypedGrammar

def Work.Seeded (p : TypedGrammar) (input : Input) (i : Int) : Work → Prop
  | .growth c typed _ seed =>
    p.typed? c.rule = some typed ∧ p.Derives input (.expr (.reference c.rule)) c.start [seed] i
  | _ => True

/-- The states that a parse can be in: between calls, whether they matched, failed or were given up on, and
at any moment of one. -/
inductive Reached (p : TypedGrammar) (input : Input) : Parse → Prop where
  | fresh (events : List Event) : Reached p input { events }
  | apply {s : Parse} (reached : Reached p input s) (name : String) (i : Int) (room : Room) :
    Reached p input (p.apply input name i room s).2
  | moment {s : Parse} {m : Moment} (reached : Reached p input s) (name : String) (i : Int)
    (leads : ReflTransGen (p.Leads input) (p.opening input name i s) m) : Reached p input m.state

namespace Recorded

variable {p : TypedGrammar} {input : Input} {s : Parse}

theorem step {m m' : Moment} (leads : p.Leads input m m') (recorded : Recorded p input m.state)
    (seeded : m.work.Seeded p input m.index) : Recorded p input m'.state ∧ m'.work.Seeded p input m'.index := by
  cases leads with
  | body => exact ⟨recorded.enter _, trivial⟩
  | @growth depth name i s typed v stop s' fresh known matched again =>
    obtain ⟨recorded', derived⟩ := (TypedGrammar.keeps_body known i).of_matched (recorded.enter _) matched
    exact ⟨recorded', known, derived⟩
  | again => exact ⟨recorded.plantSeed seeded.2, trivial⟩
  | @longer depth c typed rounds v stop s v' stop' s' matched longer =>
    obtain ⟨recorded', derived⟩ :=
      (TypedGrammar.keeps_body seeded.1 c.start).of_matched (recorded.plantSeed seeded.2) matched
    exact ⟨recorded', seeded.1, derived⟩
  | @productions depth typed i s =>
    refine ⟨?_, trivial⟩
    cases typed.errorName with
    | none => exact recorded
    | some name => exact ofRecord recorded rfl
  | nextProduction failed => exact ⟨(TypedGrammar.keeps_production).of_failed recorded failed, trivial⟩
  | nextItem matched => exact ⟨(TypedGrammar.keeps_evaluate.of_matched recorded matched).1, trivial⟩
  | nextAlternative failed => exact ⟨TypedGrammar.keeps_evaluate.of_failed recorded failed, trivial⟩
  | nextRound matched => exact ⟨(TypedGrammar.keeps_evaluate.of_matched recorded matched).1, trivial⟩
  | notAhead => exact ⟨ofRecord recorded rfl, trivial⟩
  | production | item | alternative | reference | sequence | choice | optional | bind | ahead | repetition | round =>
    exact ⟨recorded, trivial⟩

theorem of_reached (reached : Reached p input s) : Recorded p input s := by
  induction reached with
  | fresh events => exact .fresh events
  | apply _ name i room recorded =>
    exact (TypedGrammar.keeps_callWithin (TypedGrammar.complies_true i) _ name (fun _ => trivial) (Int.le_refl i) room
      _ recorded).1
  | @moment s m _ name i leads recorded =>
    have whole : Recorded p input m.state ∧ m.work.Seeded p input m.index := by
      induction leads with
      | refl => exact ⟨recorded, trivial⟩
      | tail _ next kept => exact step next kept.1 kept.2
    exact whole.1

end Recorded

end Packrat
