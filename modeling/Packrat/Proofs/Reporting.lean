import Mathlib.Data.List.Forall2
import Packrat.Lexer.Basic

namespace Packrat

theorem ok_of_bind {ε α β : Type} {work : Except ε α} {next : α → Except ε β} {b : β}
    (run : (work >>= next) = .ok b) : ∃ a, work = .ok a ∧ next a = .ok b := by
  cases work with
  | ok a => exact ⟨a, rfl, run⟩
  | error e => cases run

theorem error_of_bind {ε α β : Type} {work : Except ε α} {next : α → Except ε β} {e : ε}
    (run : (work >>= next) = .error e) : work = .error e ∨ ∃ a, work = .ok a ∧ next a = .error e := by
  cases work with
  | ok a => exact .inr ⟨a, rfl, run⟩
  | error e' =>
    cases run
    exact .inl rfl

theorem exists_mapM {ε α β : Type} {work : α → Except ε β} {xs : List α} (each : ∀ x ∈ xs, ∃ y, work x = .ok y) :
    ∃ ys, xs.mapM work = .ok ys := by
  induction xs with
  | nil => exact ⟨[], rfl⟩
  | cons x xs ih =>
    obtain ⟨y, first⟩ := each x List.mem_cons_self
    obtain ⟨ys, rest⟩ := ih fun z listed => each z (List.mem_cons_of_mem _ listed)
    refine ⟨y :: ys, ?_⟩
    rw [List.mapM_cons, first, rest]
    rfl

theorem mapM_eq_ok {ε α β : Type} {work : α → Except ε β} {f : α → β} {xs : List α}
    (each : ∀ x ∈ xs, work x = .ok (f x)) :
    xs.mapM work = .ok (xs.map f) := by
  induction xs with
  | nil => rfl
  | cons x xs ih =>
    rw [List.mapM_cons, each x List.mem_cons_self, ih fun z listed => each z (List.mem_cons_of_mem _ listed)]
    rfl

theorem ok_of_mapError {ε δ α : Type} {work : Except ε α} {f : ε → δ} {a : α} (run : work.mapError f = .ok a) :
    work = .ok a := by
  cases work with
  | ok b =>
    cases run
    rfl
  | error e => cases run

theorem ok_of_forM {ε α : Type} {work : α → Except ε Unit} {xs : List α} (run : xs.forM work = .ok ()) {x : α}
    (listed : x ∈ xs) : work x = .ok () := by
  induction xs with
  | nil => cases listed
  | cons y ys ih =>
    obtain ⟨_, first, rest⟩ := ok_of_bind run
    rcases List.mem_cons.mp listed with rfl | listed
    · exact first
    · exact ih rest listed

/-- The work comes to what has `Q`, or else to an error with `E`. -/
def Yields {ε α : Type} (E : ε → Prop) (Q : α → Prop) : Except ε α → Prop
  | .ok a => Q a
  | .error e => E e

namespace Yields

variable {ε α β : Type} {E : ε → Prop} {Q : α → Prop} {P : β → Prop} {work : Except ε α}

theorem imp {E' : ε → Prop} {Q' : α → Prop} (yields : Yields E Q work) (errors : ∀ e, E e → E' e)
    (weaker : ∀ a, Q a → Q' a) :
    Yields E' Q' work := by
  cases work with
  | ok a => exact weaker a yields
  | error e => exact errors e yields

theorem weaken {Q' : α → Prop} (yields : Yields E Q work) (weaker : ∀ a, Q a → Q' a) : Yields E Q' work :=
  yields.imp (fun _ => id) weaker

theorem of_error {e : ε} (yields : Yields E Q work) (run : work = .error e) : E e := by
  rw [run] at yields
  exact yields

theorem exactly (yields : Yields E Q work) : Yields E (fun a => work = .ok a) work := by
  cases work with
  | ok a => rfl
  | error e => exact yields

theorem bind {next : α → Except ε β} (first : Yields E Q work) (second : ∀ a, Q a → Yields E P (next a)) :
    Yields E P (work >>= next) := by
  cases work with
  | ok a => exact second a first
  | error e => exact first

theorem map {f : α → β} (yields : Yields E (fun a => P (f a)) work) : Yields E P (work.map f) := by
  cases work <;> exact yields

end Yields

theorem run_bind_eq {σ ε α β : Type} (work : ExceptT ε (StateM σ) α) (next : α → ExceptT ε (StateM σ) β) (s : σ) :
    (work >>= next).run.run s = (ExceptT.bindCont next (work.run.run s).1).run (work.run.run s).2 := rfl

namespace Reporting

variable {ε α β : Type} {events events' : List Event}

/-- The work succeeds with a value, whatever it reports. -/
def Gives (work : Reporting ε α) (a : α) : Prop := ∃ events events', work.run.run events = (.ok a, events')

theorem Gives.of_bind {work : Reporting ε α} {next : α → Reporting ε β} {b : β}
    (gives : Gives (work >>= next) b) : ∃ a, Gives work a ∧ Gives (next a) b := by
  obtain ⟨events, events', run⟩ := gives
  cases first : work.run.run events with
  | mk result later =>
    rw [run_bind_eq, first] at run
    cases result with
    | ok a => exact ⟨a, ⟨events, later, first⟩, ⟨later, events', run⟩⟩
    | error e => cases run

theorem Gives.of_pure {a b : α} (gives : Gives (pure a : Reporting ε α) b) : b = a := by
  obtain ⟨events, events', run⟩ := gives
  cases run
  rfl

theorem Gives.of_lift {result : Except ε α} {a : α} (gives : Gives (liftM result : Reporting ε α) a) :
    result = .ok a := by
  obtain ⟨events, events', run⟩ := gives
  cases result with
  | ok b =>
    cases run
    rfl
  | error e => cases run

theorem Gives.not_throw {e : ε} {a : α} (gives : Gives (throw e : Reporting ε α) a) : False := by
  obtain ⟨events, events', run⟩ := gives
  cases run

theorem Gives.of_mapM {work : α → Reporting ε β} {xs : List α} {ys : List β} (gives : Gives (xs.mapM work) ys) :
    List.Forall₂ (fun x y => Gives (work x) y) xs ys := by
  induction xs generalizing ys with
  | nil =>
    rw [List.mapM_nil] at gives
    rw [gives.of_pure]
    exact .nil
  | cons x xs ih =>
    rw [List.mapM_cons] at gives
    obtain ⟨y, first, rest⟩ := gives.of_bind
    obtain ⟨later, others, done⟩ := rest.of_bind
    rw [done.of_pure]
    exact .cons first (ih others)

def Returns (E : ε → Prop) (Q : α → Prop) (work : Reporting ε α) : Prop := ∀ events, Yields E Q (work.run.run events).1

namespace Returns

variable {E : ε → Prop} {Q : α → Prop} {P : β → Prop} {work : Reporting ε α}

theorem pure {a : α} (holds : Q a) : Returns E Q (Pure.pure a : Reporting ε α) := fun _ => holds

theorem throw {e : ε} (allowed : E e) : Returns E Q (MonadExcept.throw e : Reporting ε α) := fun _ => allowed

theorem report (event : Event) : Returns E (fun _ => True) (Packrat.report event : Reporting ε Unit) := fun _ => trivial

theorem lift {result : Except ε α} (yields : Yields E Q result) : Returns E Q (liftM result : Reporting ε α) := by
  intro events
  cases result <;> exact yields

theorem exactly (returns : Returns E Q work) : Returns E (Gives work) work := by
  intro events
  have here := returns events
  cases result : work.run.run events with
  | mk o later =>
    rw [result] at here
    cases o with
    | ok a => exact ⟨events, later, result⟩
    | error e => exact here

theorem bind {next : α → Reporting ε β} (first : Returns E Q work) (second : ∀ a, Q a → Returns E P (next a)) :
    Returns E P (work >>= next) := by
  intro events
  have here := first events
  rw [run_bind_eq]
  cases run : work.run.run events with
  | mk result later =>
    rw [run] at here
    cases result with
    | ok a => exact second a here later
    | error e => exact here

theorem mapM {work : α → Reporting ε β} {xs : List α} (each : ∀ x ∈ xs, Returns E P (work x)) :
    Returns E (fun ys => ∀ y ∈ ys, P y) (xs.mapM work) := by
  induction xs with
  | nil => exact pure fun _ listed => by cases listed
  | cons x xs ih =>
    rw [List.mapM_cons]
    refine (each x List.mem_cons_self).bind fun y here => ?_
    refine (ih fun z listed => each z (List.mem_cons_of_mem _ listed)).bind fun ys all => ?_
    exact pure (List.forall_mem_cons.mpr ⟨here, all⟩)

theorem forM {work : α → Reporting ε Unit} {xs : List α} (each : ∀ x ∈ xs, Returns E (fun _ => True) (work x)) :
    Returns E (fun _ => True) (xs.forM work) := by
  induction xs with
  | nil => exact pure trivial
  | cons x xs ih =>
    refine (each x List.mem_cons_self).bind fun _ _ => ?_
    exact ih fun z listed => each z (List.mem_cons_of_mem _ listed)

end Returns

def ComesTo (work : Reporting ε α) (result : Except ε α) : Prop := ∀ events, (work.run.run events).1 = result

namespace ComesTo

variable {work : Reporting ε α} {next : α → Reporting ε β} {result : Except ε β} {a : α} {e : ε}

theorem unique {first second : Except ε α} (here : ComesTo work first) (there : ComesTo work second) :
    first = second := (here []).symm.trans (there [])

theorem pure (a : α) : ComesTo (Pure.pure a : Reporting ε α) (.ok a) := fun _ => rfl

theorem throw (e : ε) : ComesTo (MonadExcept.throw e : Reporting ε α) (.error e) := fun _ => rfl

theorem report (event : Event) : ComesTo (Packrat.report event : Reporting ε Unit) (.ok ()) := fun _ => rfl

theorem lift (result : Except ε α) : ComesTo (liftM result : Reporting ε α) result := by
  intro events
  cases result <;> rfl

theorem bind (first : ComesTo work (.ok a)) (rest : ComesTo (next a) result) : ComesTo (work >>= next) result := by
  intro events
  rw [run_bind_eq, first events]
  exact rest _

theorem bind_error (first : ComesTo work (.error e)) : ComesTo (work >>= next) (.error e) := by
  intro events
  rw [run_bind_eq, first events]
  rfl

end ComesTo

end Reporting

end Packrat
