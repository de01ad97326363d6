import Packrat.Proofs.Parse.Derivation

namespace Packrat

def Path.Leads (path : Path) (v : Value) : Prop := ∃ part, path.get v = .ok part

namespace Path

variable {path : Path} {v : Value} {vs : List Value}

theorem Leads.present (leads : path.Leads v) : (Path.present path).Leads v := by
  obtain ⟨part, here⟩ := leads
  cases v with
  | none => exact ⟨.none, rfl⟩
  | _ => exact ⟨part, here⟩

theorem leads_present_none : (Path.present path).Leads .none := ⟨.none, rfl⟩

theorem leads_each (each : ∀ v ∈ vs, path.Leads v) : (Path.each path).Leads (.list vs) := by
  obtain ⟨parts, here⟩ := exists_mapM each
  refine ⟨.list parts, ?_⟩
  simp only [get, Value.parts?, here]
  rfl

theorem get_slot {index : Nat} (here : vs[index]? = some v) : (Path.slot index path).get (.tuple vs) = path.get v := by
  simp [get, Value.parts?, here]

end Path

namespace Value

variable {v : Value} {vs : List Value}

theorem gather_of_lt (more : 1 < vs.length) : gather vs = .tuple vs := by
  match vs with
  | _ :: _ :: _ => rfl

theorem gather_of_mem (few : ¬ 1 < vs.length) (member : v ∈ vs) : gather vs = v := by
  match vs with
  | [_] => exact (List.mem_singleton.mp member).symm
  | _ :: _ :: _ => simp at few

end Value

namespace Expr

def Binds (e : Expr) (v : Value) : Prop := ∀ paths, e.boundPaths = .ok paths → ∀ x ∈ paths, x.2.Leads v

mutual
theorem isSignificant_of_boundPaths : ∀ {e : Expr} {paths : List (String × Path)} {x : String × Path},
    e.boundPaths = .ok paths → x ∈ paths → e.isSignificant = true
  | .bind _ _, _, _, _, _ => rfl
  | .optional item, paths, x, bound, listed | .repetition _ item, paths, x, bound, listed => by
    rw [boundPaths] at bound
    obtain ⟨inner, here, done⟩ := ok_of_bind bound
    cases done
    obtain ⟨y, member, rfl⟩ := List.mem_map.mp listed
    exact isSignificant_of_boundPaths (e := item) here member
  | .sequence items, paths, x, bound, listed => by
    rw [boundPaths] at bound
    exact anySignificant_of_itemPaths bound listed
  | .choice _, paths, x, bound, listed | .ahead _, paths, x, bound, listed | .notAhead _, paths, x, bound, listed => by
    rw [boundPaths] at bound
    split at bound <;> cases bound
    cases listed
  | .literal _, _, _, bound, listed | .oneOf _, _, _, bound, listed | .reference _, _, _, bound, listed
  | .unknown _, _, _, bound, listed => by
    cases bound
    cases listed

theorem anySignificant_of_itemPaths : ∀ {es : List Expr} {several : Bool} {mask : List Bool} {slot : Nat}
    {paths : List (String × Path)} {x : String × Path}, itemPaths several mask slot es = .ok paths → x ∈ paths →
      anySignificant es = true
  | [], _, _, _, _, _, bound, listed => by
    cases bound
    cases listed
  | e :: es, several, mask, slot, paths, x, bound, listed => by
    rw [itemPaths] at bound
    obtain ⟨inner, first, bound⟩ := ok_of_bind bound
    obtain ⟨later, rest, done⟩ := ok_of_bind bound
    cases done
    rw [anySignificant, Bool.or_eq_true]
    rcases List.mem_append.mp listed with here | there
    · left
      split at here
      · obtain ⟨y, member, rfl⟩ := List.mem_map.mp here
        exact isSignificant_of_boundPaths first member
      · exact isSignificant_of_boundPaths first here
    · exact .inr (anySignificant_of_itemPaths rest there)
end

section Items

variable {several : Bool} {mask : List Bool} {slot : Nat} {items : List Expr} {paths : List (String × Path)}
  {vs : List Value} {x : String × Path}

theorem exists_item_of_itemPaths (bound : itemPaths several mask slot items = .ok paths)
    (same : vs.length = items.length)
    (kept : List.Forall₂ (fun b e => ∀ inner, boundPaths e = .ok inner → ∀ y ∈ inner, b = true) mask items)
    (listed : x ∈ paths) :
    ∃ j : Nat, ∃ e v inner y, items[j]? = some e ∧ vs[j]? = some v ∧ boundPaths e = .ok inner ∧ y ∈ inner ∧ y.1 = x.1 ∧
      if several then ∃ k, x.2 = .slot (slot + k) y.2 ∧ (select mask vs)[k]? = some v
      else x.2 = y.2 ∧ v ∈ select mask vs := by
  induction kept generalizing slot paths vs with
  | nil =>
    cases bound
    cases listed
  | @cons b e mask es keeps _ ih =>
    cases vs with
    | nil => cases same
    | cons v vs =>
      rw [itemPaths] at bound
      obtain ⟨inner, first, bound⟩ := ok_of_bind bound
      obtain ⟨later, rest, done⟩ := ok_of_bind bound
      cases done
      rcases List.mem_append.mp listed with here | there
      · cases several with
        | true =>
          obtain ⟨y, member, rfl⟩ := List.mem_map.mp here
          obtain rfl := keeps inner first y member
          exact ⟨0, e, v, inner, y, rfl, rfl, first, member, rfl, 0, rfl, rfl⟩
        | false =>
          obtain rfl := keeps inner first x here
          exact ⟨0, e, v, inner, x, rfl, rfl, first, here, rfl, rfl, List.mem_cons_self⟩
      · obtain ⟨j, e', u, inner', y, item, value, bound, member, name, leads⟩ := ih rest (Nat.succ.inj same) there
        refine ⟨j + 1, e', u, inner', y, item, value, bound, member, name, ?_⟩
        cases b with
        | false => exact leads
        | true =>
          cases several with
          | true =>
            obtain ⟨k, path, found⟩ := leads
            refine ⟨k + 1, ?_, found⟩
            rw [path]
            congr 1
            simp only [List.head?_cons, Option.getD_some, if_true]
            omega
          | false => exact ⟨leads.1, List.mem_cons_of_mem _ leads.2⟩

theorem length_select {α : Type} {xs : List α} (same : xs.length = mask.length) :
    (select mask xs).length = mask.count true := by
  induction mask generalizing xs with
  | nil => cases xs <;> rfl
  | cons b mask ih =>
    cases xs with
    | nil => cases same
    | cons x xs => cases b <;> simp [select, ih (Nat.succ.inj same)]

theorem exists_item_of_sequence (bound : boundPaths (.sequence items) = .ok paths) (same : vs.length = items.length)
    (listed : x ∈ paths) :
    ∃ j : Nat, ∃ e v inner y, items[j]? = some e ∧ vs[j]? = some v ∧ boundPaths e = .ok inner ∧ y ∈ inner ∧ y.1 = x.1 ∧
      x.2.get (.gather (select (contributing items) vs)) = y.2.get v := by
  rw [boundPaths] at bound
  have significant := anySignificant_of_itemPaths bound listed
  have kept : List.Forall₂ (fun b e => ∀ inner, boundPaths e = .ok inner → ∀ y ∈ inner, b = true)
      (contributing items) items := by
    rw [contributing, if_pos significant, List.forall₂_map_left_iff]
    exact List.forall₂_same.mpr fun e _ inner here y member => isSignificant_of_boundPaths here member
  obtain ⟨j, e, v, inner, y, item, value, there, member, name, leads⟩ := exists_item_of_itemPaths bound same kept listed
  refine ⟨j, e, v, inner, y, item, value, there, member, name, ?_⟩
  have selected : (select (contributing items) vs).length = (contributing items).count true :=
    length_select (by rw [length_contributing, same])
  have several : (select (contributing items) (contributing items)).length = (contributing items).count true :=
    length_select rfl
  rw [several, ← selected] at leads
  by_cases more : 1 < (select (contributing items) vs).length
  · rw [if_pos (decide_eq_true more)] at leads
    obtain ⟨k, path, found⟩ := leads
    rw [path, Value.gather_of_lt more, Nat.zero_add, Path.get_slot found]
  · rw [if_neg (by simpa using more)] at leads
    rw [leads.1, Value.gather_of_mem more leads.2]

theorem binds_sequence (each : List.Forall₂ Binds items vs) :
    Binds (.sequence items) (.gather (select (contributing items) vs)) := by
  intro paths bound x listed
  obtain ⟨j, e, v, inner, y, item, value, there, member, _, leads⟩ :=
    exists_item_of_sequence bound each.length_eq.symm listed
  obtain ⟨u, found, binds⟩ := getElem?_of_forall₂ each item
  cases value.symm.trans found
  obtain ⟨part, dug⟩ := binds inner there y member
  exact ⟨part, leads.trans dug⟩

end Items

end Expr

def Goal.Binds (vs : List Value) : Goal → Prop
  | .expr e => ∀ v ∈ vs, e.Binds v
  | .items es => List.Forall₂ Expr.Binds es vs
  | .rounds item => ∀ v ∈ vs, item.Binds v

theorem TypedGrammar.Derives.binds {p : TypedGrammar} {input : Input} {goal : Goal} {i stop : Int} {vs : List Value}
    (derived : p.Derives input goal i vs stop) : goal.Binds vs := by
  have unbound : ∀ {e : Expr} {v : Value}, (∀ paths, e.boundPaths = .ok paths → paths = []) → e.Binds v := by
    intro e v none paths bound x listed
    rw [none paths bound] at listed
    cases listed
  induction derived with
  | literal | oneOf | token | rule =>
    exact List.forall_mem_singleton.mpr (unbound fun _ bound => by cases bound; rfl)
  | choice | ahead | notAhead =>
    refine List.forall_mem_singleton.mpr (unbound fun paths bound => ?_)
    rw [Expr.boundPaths] at bound
    split at bound <;> cases bound
    rfl
  | sequence _ ih => exact List.forall_mem_singleton.mpr (Expr.binds_sequence ih)
  | present _ ih =>
    refine List.forall_mem_singleton.mpr fun paths bound x listed => ?_
    rw [Expr.boundPaths] at bound
    obtain ⟨inner, here, done⟩ := ok_of_bind bound
    cases done
    obtain ⟨y, member, rfl⟩ := List.mem_map.mp listed
    exact (List.forall_mem_singleton.mp ih inner here y member).present
  | absent =>
    refine List.forall_mem_singleton.mpr fun paths bound x listed => ?_
    rw [Expr.boundPaths] at bound
    obtain ⟨inner, here, done⟩ := ok_of_bind bound
    cases done
    obtain ⟨y, member, rfl⟩ := List.mem_map.mp listed
    exact Path.leads_present_none
  | repetition _ _ ih =>
    refine List.forall_mem_singleton.mpr fun paths bound x listed => ?_
    rw [Expr.boundPaths] at bound
    obtain ⟨inner, here, done⟩ := ok_of_bind bound
    cases done
    obtain ⟨y, member, rfl⟩ := List.mem_map.mp listed
    exact Path.leads_each fun v inside => ih v inside inner here y member
  | @bind name e i v stop _ ih =>
    refine List.forall_mem_singleton.mpr fun paths bound x listed => ?_
    rw [Expr.boundPaths] at bound
    obtain ⟨inner, here, done⟩ := ok_of_bind bound
    cases done
    rcases List.mem_cons.mp listed with rfl | member
    · exact ⟨v, rfl⟩
    · exact List.forall_mem_singleton.mp ih inner here x member
  | nil => exact .nil
  | cons _ _ first rest => exact .cons (List.forall_mem_singleton.mp first) rest
  | done => exact fun _ inside => by cases inside
  | round _ _ first rest =>
    exact List.forall_mem_cons.mpr ⟨List.forall_mem_singleton.mp first, rest⟩

namespace Typing

variable {ctx : Context} {pending : List String} {p : Production}

def Finds (items : List Expr) (b : Binding) : Prop :=
  ∃ item paths, items[b.index]? = some item ∧ item.boundPaths = .ok paths ∧ (b.name, b.path) ∈ paths

theorem addBindings_mem {index : Nat} {bound bindings : List Binding} {paths : List (String × Path)}
    (added : addBindings p pending index bound paths = .ok bindings) {b : Binding} (listed : b ∈ bindings) :
    b ∈ bound ∨ b.index = index ∧ (b.name, b.path) ∈ paths := by
  induction paths generalizing bound with
  | nil =>
    cases added
    exact .inl listed
  | cons first rest ih =>
    rcases ih (addBindings_cons added).2 with old | ⟨same, member⟩
    · rcases List.mem_append.mp old with old | new
      · exact .inl old
      · rw [List.mem_singleton.mp new]
        exact .inr ⟨rfl, List.mem_cons_self⟩
    · exact .inr ⟨same, List.mem_cons_of_mem _ member⟩

theorem finds_of_bindingsFrom (before : List Expr) {items : List Expr} {bound bindings : List Binding}
    (made : bindingsFrom p pending before.length bound items = .ok bindings)
    (sofar : ∀ b ∈ bound, Finds (before ++ items) b) : ∀ b ∈ bindings, Finds (before ++ items) b := by
  induction items generalizing before bound with
  | nil =>
    cases made
    exact sofar
  | cons item rest ih =>
    unfold bindingsFrom at made
    split at made
    · next paths here =>
      obtain ⟨bound', added, made⟩ := ok_of_bind made
      have whole : before ++ item :: rest = (before ++ [item]) ++ rest := by simp
      rw [whole] at sofar ⊢
      refine ih _ (by simpa using made) fun b listed => ?_
      rcases addBindings_mem added listed with old | ⟨same, member⟩
      · exact sofar b old
      · exact ⟨item, paths, by simp [same], here, member⟩
    · obtain ⟨_, _, refused⟩ := ok_of_bind made
      cases refused

theorem finds_of_typedProduction {r : Rule} {items : List Expr} {types : List ValueType} {q : TypedProduction}
    (made : typedProduction ctx pending r p items types = .ok q) : ∀ b ∈ q.bindings, Finds q.items b := by
  obtain ⟨bindings, bound, made⟩ := ok_of_bind made
  have finds : ∀ b ∈ bindings, Finds items b := finds_of_bindingsFrom [] bound fun _ listed => by cases listed
  split at made
  · obtain ⟨action, _, made⟩ := ok_of_bind made
    cases made
    exact finds
  · cases made
    exact finds

end Typing

theorem Binding.exists_value {b : Binding} {items : List Expr} {vs : List Value} (finds : Typing.Finds items b)
    (each : List.Forall₂ Expr.Binds items vs) : ∃ v, b.value vs = .ok v := by
  obtain ⟨item, paths, here, bound, member⟩ := finds
  obtain ⟨v, there, binds⟩ := getElem?_of_forall₂ each here
  obtain ⟨part, found⟩ := binds paths bound _ member
  exact ⟨part, by rw [value, there]; exact found⟩

theorem TypedProduction.exists_arguments {q : TypedProduction} {vs : List Value}
    (finds : ∀ b ∈ q.bindings, Typing.Finds q.items b) (each : List.Forall₂ Expr.Binds q.items vs) :
    ∃ arguments, q.arguments vs = .ok arguments := by
  unfold arguments
  split
  · exact ⟨_, rfl⟩
  · have bound : ∃ named, q.bindings.mapM (fun (b : Binding) => do return (b.name, ← b.value vs)) = .ok named := by
      refine exists_mapM fun b listed => ?_
      obtain ⟨v, found⟩ := Binding.exists_value (finds b listed) each
      exact ⟨(b.name, v), by rw [found]; rfl⟩
    obtain ⟨named, here⟩ := bound
    exact ⟨.named named, by rw [here]; rfl⟩

theorem TypedProduction.not_misfit {q : TypedProduction} {vs : List Value}
    (finds : ∀ b ∈ q.bindings, Typing.Finds q.items b) (each : List.Forall₂ Expr.Binds q.items vs) (m : Misfit) :
    q.value vs ≠ .error (.misfit m) := by
  obtain ⟨arguments, here⟩ := exists_arguments finds each
  unfold value
  split
  · nofun
  · next action _ =>
    rw [here]
    dsimp only
    cases action.run arguments <;> nofun

end Packrat
