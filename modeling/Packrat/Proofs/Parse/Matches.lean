import Packrat.Parse.Evaluate

namespace Packrat

/-- How an expression matched, part by part. Of references, choices and lookaheads there is only the value. -/
inductive MatchTree where
  | leaf (v : Value)
  | sequence (mask : List Bool) (parts : List MatchTree)
  | absent
  | present (inner : MatchTree)
  | rounds (kept : List MatchTree)
  | bound (inner : MatchTree)

namespace MatchTree

mutual
def value : MatchTree → Value
  | .leaf v => v
  | .sequence mask parts => .gather (select mask (values parts))
  | .absent => .none
  | .present inner | .bound inner => value inner
  | .rounds kept => .list (values kept)

def values : List MatchTree → List Value
  | [] => []
  | m :: ms => value m :: values ms
end

theorem values_eq_map (ms : List MatchTree) : values ms = ms.map value := by
  induction ms with
  | nil => rfl
  | cons m ms ih => rw [values, ih, List.map_cons]

end MatchTree

def Expr.isLeaf : Expr → Bool
  | .literal _ | .oneOf _ | .reference _ | .choice _ | .ahead _ | .notAhead _ | .unknown _ => true
  | .sequence _ | .optional _ | .repetition _ _ | .bind _ _ => false

inductive Stretch where
  | one (e : Expr)
  | all (es : List Expr)
  | rounds (needed : Bool) (item : Expr)

namespace Run

variable {α β : Type} {m : Run α} {room : Room} {s s' : Parse} {stop : Int}

theorem exists_of_nested {levels : Nat} {a : α} (run : nested levels m room s = (.matched a stop, s')) :
    ∃ left, room.take? levels = some left ∧ m left s = (.matched a stop, s') := by
  unfold nested at run
  cases taken : room.take? levels with
  | none =>
    rw [taken] at run
    cases run
  | some left =>
    rw [taken] at run
    exact ⟨left, rfl, run⟩

theorem exists_of_andThen {next : α → Int → Run β} {b : β} (run : m.andThen next room s = (.matched b stop, s')) :
    ∃ a mid s₁, m room s = (.matched a mid, s₁) ∧ next a mid room s₁ = (.matched b stop, s') := by
  unfold andThen at run
  cases first : m room s with
  | mk o s₁ =>
    rw [first] at run
    cases o with
    | matched a mid => exact ⟨a, mid, s₁, rfl, run⟩
    | failed => cases run
    | halted h => cases run

theorem cases_of_orElse {other : Run α} {a : α} (run : m.orElse other room s = (.matched a stop, s')) :
    m room s = (.matched a stop, s') ∨ ∃ s₁, m room s = (.failed, s₁) ∧ other room s₁ = (.matched a stop, s') := by
  unfold orElse at run
  cases first : m room s with
  | mk o s₁ =>
    rw [first] at run
    cases o with
    | matched a mid => exact .inl run
    | failed => exact .inr ⟨s₁, rfl, run⟩
    | halted h => cases run

end Run

theorem same_end {α : Type} {o : Outcome α × Parse} {a b : α} {stop stop' : Int} {s s' : Parse}
    (first : o = (.matched a stop, s)) (second : o = (.matched b stop', s')) : stop = stop' ∧ s = s' := by
  cases first.symm.trans second
  exact ⟨rfl, rfl⟩

namespace TypedGrammar

variable (p : TypedGrammar) (input : Input) (call : String → Int → Run Value)

inductive Matches : Stretch → Room → Int → Parse → List MatchTree → Int → Parse → Prop where
  | leaf {e room i s v stop s'} (plain : e.isLeaf = true)
    (here : p.evaluate input call e i room s = (.matched v stop, s')) : Matches (.one e) room i s [.leaf v] stop s'
  | sequence {es room left i s ms stop s'} (level : room.take? 1 = some left)
    (items : Matches (.all es) left i s ms stop s') :
    Matches (.one (.sequence es)) room i s [.sequence (Expr.contributing es) ms] stop s'
  | present {e room left i s m stop s'} (level : room.take? 1 = some left)
    (here : p.evaluate input call e i left s = (.matched m.value stop, s'))
    (item : Matches (.one e) left i s [m] stop s') : Matches (.one (.optional e)) room i s [.present m] stop s'
  | absent {e room left i s s'} (level : room.take? 1 = some left)
    (here : p.evaluate input call e i left s = (.failed, s')) : Matches (.one (.optional e)) room i s [.absent] i s'
  | repetition {atLeastOnce e room left i s ms stop s'} (level : room.take? 1 = some left)
    (rounds : Matches (.rounds atLeastOnce e) left i s ms stop s') :
    Matches (.one (.repetition atLeastOnce e)) room i s [.rounds ms] stop s'
  | bind {name e room i s m stop s'} (item : Matches (.one e) room i s [m] stop s') :
    Matches (.one (.bind name e)) room i s [.bound m] stop s'
  | nil {room i s} : Matches (.all []) room i s [] i s
  | cons {e es room i s m mid s₁ ms stop s'} (first : Matches (.one e) room i s [m] mid s₁)
    (rest : Matches (.all es) room mid s₁ ms stop s') : Matches (.all (e :: es)) room i s (m :: ms) stop s'
  | ended {e room i s s'} (here : p.evaluate input call e i room s = (.failed, s')) :
    Matches (.rounds false e) room i s [] i s'
  | idle {e room i s m s'} (here : p.evaluate input call e i room s = (.matched m.value i, s'))
    (item : Matches (.one e) room i s [m] i s') : Matches (.rounds false e) room i s [] i s'
  | only {e room i s m s'} (here : p.evaluate input call e i room s = (.matched m.value i, s'))
    (item : Matches (.one e) room i s [m] i s') : Matches (.rounds true e) room i s [m] i s'
  | round {needed e room i s m mid s₁ ms stop s'}
    (here : p.evaluate input call e i room s = (.matched m.value mid, s₁))
    (item : Matches (.one e) room i s [m] mid s₁) (further : mid ≠ i)
    (rest : Matches (.rounds false e) room mid s₁ ms stop s') : Matches (.rounds needed e) room i s (m :: ms) stop s'

variable {p : TypedGrammar} {input : Input} {call : String → Int → Run Value}

theorem Matches.unique {stretch : Stretch} {room : Room} {i stop stop' : Int} {s s₁ s₂ : Parse}
    {ms ms' : List MatchTree}
    (first : p.Matches input call stretch room i s ms stop s₁)
    (second : p.Matches input call stretch room i s ms' stop' s₂) :
    ms = ms' ∧ stop = stop' ∧ s₁ = s₂ := by
  induction first generalizing ms' stop' s₂ with
  | leaf plain here =>
    cases second with
    | leaf _ here' =>
      cases here.symm.trans here'
      exact ⟨rfl, rfl, rfl⟩
    | _ => cases plain
  | sequence level _ ih =>
    cases second with
    | leaf plain => cases plain
    | sequence level' items =>
      cases level.symm.trans level'
      obtain ⟨rfl, rfl, rfl⟩ := ih items
      exact ⟨rfl, rfl, rfl⟩
  | present level here _ ih =>
    cases second with
    | leaf plain => cases plain
    | present level' _ item =>
      cases level.symm.trans level'
      obtain ⟨same, rfl, rfl⟩ := ih item
      cases same
      exact ⟨rfl, rfl, rfl⟩
    | absent level' here' =>
      cases level.symm.trans level'
      cases here.symm.trans here'
  | absent level here =>
    cases second with
    | leaf plain => cases plain
    | present level' here' =>
      cases level.symm.trans level'
      cases here.symm.trans here'
    | absent level' here' =>
      cases level.symm.trans level'
      cases here.symm.trans here'
      exact ⟨rfl, rfl, rfl⟩
  | repetition level _ ih =>
    cases second with
    | leaf plain => cases plain
    | repetition level' rounds =>
      cases level.symm.trans level'
      obtain ⟨rfl, rfl, rfl⟩ := ih rounds
      exact ⟨rfl, rfl, rfl⟩
  | bind _ ih =>
    cases second with
    | leaf plain => cases plain
    | bind item =>
      obtain ⟨same, rfl, rfl⟩ := ih item
      cases same
      exact ⟨rfl, rfl, rfl⟩
  | nil =>
    cases second
    exact ⟨rfl, rfl, rfl⟩
  | cons _ _ ihFirst ihRest =>
    cases second with
    | cons first rest =>
      obtain ⟨same, rfl, rfl⟩ := ihFirst first
      cases same
      obtain ⟨rfl, rfl, rfl⟩ := ihRest rest
      exact ⟨rfl, rfl, rfl⟩
  | ended here =>
    cases second with
    | ended here' =>
      cases here.symm.trans here'
      exact ⟨rfl, rfl, rfl⟩
    | idle here' | round here' => cases here.symm.trans here'
  | idle here item =>
    cases second with
    | ended here' => cases here.symm.trans here'
    | idle here' => exact ⟨rfl, rfl, (same_end here here').2⟩
    | round here' _ further => exact absurd (same_end here' here).1 further
  | only here item ih =>
    cases second with
    | only here' item' =>
      obtain ⟨same, _, rfl⟩ := ih item'
      exact ⟨same, rfl, rfl⟩
    | round here' _ further => exact absurd (same_end here' here).1 further
  | round here item further _ ihItem ihRest =>
    cases second with
    | ended here' => cases here.symm.trans here'
    | idle here' | only here' => exact absurd (same_end here here').1 further
    | round here' item' _ rest =>
      obtain ⟨same, rfl, rfl⟩ := ihItem item'
      cases same
      obtain ⟨rfl, rfl, rfl⟩ := ihRest rest
      exact ⟨rfl, rfl, rfl⟩

theorem exists_matches_many {e : Expr} {atLeastOnce : Bool} {room : Room}
    (each : ∀ i s v stop s', p.evaluate input call e i room s = (.matched v stop, s') →
      ∃ m, m.value = v ∧ p.Matches input call (.one e) room i s [m] stop s') {rounds : Nat} {values : List Value}
    {i stop : Int} {s s' : Parse} {v : Value}
    (run : Run.many (p.evaluate input call e) atLeastOnce rounds values i room s = (.matched v stop, s')) :
    ∃ ms, v = .list (values.reverse ++ MatchTree.values ms) ∧
      p.Matches input call (.rounds (atLeastOnce && values.isEmpty) e) room i s ms stop s' := by
  induction rounds generalizing values i s with
  | zero => cases run
  | succ rounds ih =>
    unfold Run.many at run
    cases here : p.evaluate input call e i room s with
    | mk o s₁ =>
      rw [here] at run
      cases o with
      | halted h => cases run
      | failed =>
        unfold Run.repeated at run
        cases needed : atLeastOnce && values.isEmpty with
        | true =>
          rw [needed] at run
          cases run
        | false =>
          rw [needed] at run
          cases run
          exact ⟨[], by simp [MatchTree.values], .ended here⟩
      | matched u mid =>
        obtain ⟨m, rfl, item⟩ := each i s u mid s₁ here
        dsimp only at run
        split at run
        next same =>
          subst same
          cases needed : atLeastOnce && values.isEmpty with
          | true =>
            have none : values = [] := List.isEmpty_iff.mp (Bool.and_eq_true_iff.mp needed).2
            rw [needed] at run
            simp only [Run.repeated, if_true, List.isEmpty_cons, Bool.and_false] at run
            cases run
            exact ⟨[m], by simp [none, MatchTree.values], .only here item⟩
          | false =>
            rw [needed] at run
            simp only [Run.repeated, needed, Bool.false_eq_true, if_false] at run
            cases run
            exact ⟨[], by simp [MatchTree.values], .idle here item⟩
        next further =>
          obtain ⟨ms, rfl, rest⟩ := ih run
          rw [List.isEmpty_cons, Bool.and_false] at rest
          exact ⟨m :: ms, by simp [MatchTree.values], .round here item further rest⟩

mutual
theorem exists_matches : ∀ (e : Expr) {room : Room} {i stop : Int} {s s' : Parse} {v : Value},
    p.evaluate input call e i room s = (.matched v stop, s') →
      ∃ m, m.value = v ∧ p.Matches input call (.one e) room i s [m] stop s'
  | .literal _, _, _, _, _, _, v, run | .oneOf _, _, _, _, _, _, v, run | .reference _, _, _, _, _, _, v, run
  | .choice _, _, _, _, _, _, v, run | .ahead _, _, _, _, _, _, v, run | .notAhead _, _, _, _, _, _, v, run
  | .unknown _, _, _, _, _, _, v, run => ⟨.leaf v, rfl, .leaf rfl run⟩
  | .sequence items, room, i, stop, s, s', v, run => by
    simp only [evaluate] at run
    obtain ⟨left, level, run⟩ := Run.exists_of_nested run
    obtain ⟨vs, mid, s₁, all, done⟩ := Run.exists_of_andThen run
    cases done
    obtain ⟨ms, rfl, matched⟩ := exists_matches_all items all
    exact ⟨_, rfl, .sequence level matched⟩
  | .optional item, room, i, stop, s, s', v, run => by
    simp only [evaluate] at run
    obtain ⟨left, level, run⟩ := Run.exists_of_nested run
    rcases Run.cases_of_orElse run with here | ⟨s₁, here, done⟩
    · obtain ⟨m, rfl, matched⟩ := exists_matches item here
      exact ⟨.present m, rfl, .present level here matched⟩
    · cases done
      exact ⟨.absent, rfl, .absent level here⟩
  | .repetition atLeastOnce item, room, i, stop, s, s', v, run => by
    simp only [evaluate] at run
    obtain ⟨left, level, run⟩ := Run.exists_of_nested run
    obtain ⟨ms, rfl, rounds⟩ := exists_matches_many (fun i s v stop s' => exists_matches item) run
    rw [List.isEmpty_nil, Bool.and_true] at rounds
    exact ⟨.rounds ms, rfl, .repetition level rounds⟩
  | .bind name item, room, i, stop, s, s', v, run => by
    simp only [evaluate] at run
    obtain ⟨m, rfl, matched⟩ := exists_matches item run
    exact ⟨.bound m, rfl, .bind matched⟩

theorem exists_matches_all : ∀ (es : List Expr) {room : Room} {i stop : Int} {s s' : Parse} {vs : List Value},
    p.evaluateAll input call es i room s = (.matched vs stop, s') →
      ∃ ms, MatchTree.values ms = vs ∧ p.Matches input call (.all es) room i s ms stop s'
  | [], _, _, _, _, _, _, run => by
    simp only [evaluateAll] at run
    cases run
    exact ⟨[], rfl, .nil⟩
  | e :: es, room, i, stop, s, s', vs, run => by
    simp only [evaluateAll] at run
    obtain ⟨v, mid, s₁, first, run⟩ := Run.exists_of_andThen run
    obtain ⟨rest, last, s₂, all, done⟩ := Run.exists_of_andThen run
    cases done
    obtain ⟨m, rfl, matched⟩ := exists_matches e first
    obtain ⟨ms, rfl, later⟩ := exists_matches_all es all
    exact ⟨m :: ms, rfl, .cons matched later⟩
end

end TypedGrammar

end Packrat
