import Packrat.Parse.Apply

namespace Packrat

namespace Memo

def Ordered (m : Memo) : Prop :=
  m.Pairwise fun a b => b.call.start ≤ a.call.start ∧ a.call ≠ b.call

theorem call_of_get? {m : Memo} {c : Call} {e : Entry} (found : m.get? c = some e) : e.call = c := by
  induction m with
  | nil => cases found
  | cons first rest ih =>
    simp only [get?] at found
    split at found
    · next here => cases found; exact here
    · split at found
      · cases found
      · exact ih found

theorem mem_of_get? {m : Memo} {c : Call} {e : Entry} (found : m.get? c = some e) : e ∈ m := by
  induction m with
  | nil => cases found
  | cons first rest ih =>
    simp only [get?] at found
    split at found
    · cases found; exact List.mem_cons_self
    · split at found
      · cases found
      · exact List.mem_cons_of_mem _ (ih found)

theorem get?_of_mem {m : Memo} {e : Entry} (ordered : m.Ordered) (member : e ∈ m) :
    m.get? e.call = some e := by
  induction ordered with
  | nil => cases member
  | @cons first rest below _ ih =>
    rcases List.mem_cons.mp member with rfl | member
    · simp [get?]
    · obtain ⟨before, apart⟩ := below e member
      have notBehind : ¬ first.call.start < e.call.start := by omega
      simp [get?, apart, notBehind, ih member]

theorem get?_eq_some_iff {m : Memo} {c : Call} {e : Entry} (ordered : m.Ordered) :
    m.get? c = some e ↔ e ∈ m ∧ e.call = c := by
  constructor
  · intro found
    exact ⟨mem_of_get? found, call_of_get? found⟩
  · intro here
    obtain ⟨member, rfl⟩ := here
    exact get?_of_mem ordered member

theorem mem_insert {m : Memo} {entry e : Entry} : e ∈ m.insert entry ↔ e = entry ∨ e ∈ m := by
  induction m with
  | nil => simp [insert]
  | cons first rest ih =>
    simp only [insert]
    split
    · simp
    · simp only [List.mem_cons, ih]
      grind

theorem Ordered.insert {m : Memo} {entry : Entry} (ordered : m.Ordered)
    (fresh : m.get? entry.call = none) : (m.insert entry).Ordered := by
  have apart : ∀ e ∈ m, e.call ≠ entry.call := by
    intro e member same
    have found := get?_of_mem ordered member
    rw [same, fresh] at found
    cases found
  clear fresh
  induction ordered with
  | nil => simp [Memo.insert, Ordered]
  | @cons first rest below tail ih =>
    simp only [Memo.insert]
    split
    · next before =>
      refine .cons (fun e member => ?_) (.cons below tail)
      refine ⟨?_, fun same => apart e member same.symm⟩
      rcases List.mem_cons.mp member with rfl | member
      · exact before
      · exact Int.le_trans (below e member).1 before
    · next after =>
      refine .cons (fun e member => ?_) (ih fun e member => apart e (List.mem_cons_of_mem _ member))
      rcases mem_insert.mp member with rfl | member
      · exact ⟨by omega, apart first List.mem_cons_self⟩
      · exact below e member

theorem get?_modify {m : Memo} {c d : Call} {f : Entry → Entry} (same : ∀ e, (f e).call = e.call) :
    (m.modify c f).get? d = if d = c then (m.get? c).map f else m.get? d := by
  induction m with
  | nil => simp [modify, get?]
  | cons first rest ih =>
    simp only [modify]
    split
    · next here =>
      subst here
      by_cases this : d = first.call
      · subst this
        simp [get?, same]
      · have other : first.call ≠ d := fun h => this h.symm
        simp [get?, same, this, other]
    · next elsewhere =>
      simp only [get?, ih]
      by_cases this : d = c
      · subst this
        simp only [if_neg elsewhere, if_true]
        split <;> rfl
      · simp [this]

theorem mem_modify {m : Memo} {c : Call} {f : Entry → Entry} {e : Entry} (member : e ∈ m.modify c f) :
    ∃ e₀ ∈ m, e = e₀ ∨ e₀.call = c ∧ e = f e₀ := by
  induction m with
  | nil => cases member
  | cons first rest ih =>
    simp only [modify] at member
    split at member
    · next here =>
      rcases List.mem_cons.mp member with rfl | member
      · exact ⟨first, List.mem_cons_self, .inr ⟨here, rfl⟩⟩
      · exact ⟨e, List.mem_cons_of_mem _ member, .inl rfl⟩
    · rcases List.mem_cons.mp member with rfl | member
      · exact ⟨e, List.mem_cons_self, .inl rfl⟩
      · obtain ⟨e₀, member, this⟩ := ih member
        exact ⟨e₀, List.mem_cons_of_mem _ member, this⟩

theorem Ordered.modify {m : Memo} {c : Call} {f : Entry → Entry} (ordered : m.Ordered)
    (same : ∀ e, (f e).call = e.call) : (m.modify c f).Ordered := by
  induction ordered with
  | nil => exact .nil
  | @cons first rest below tail ih =>
    simp only [Memo.modify]
    split
    · refine .cons (fun e member => ?_) tail
      rw [same]
      exact below e member
    · refine .cons (fun e member => ?_) ih
      obtain ⟨e₀, listed, rfl | ⟨_, rfl⟩⟩ := mem_modify member
      · exact below e listed
      · rw [same]
        exact below e₀ listed

theorem mem_of_mem_erase {m : Memo} {c : Call} {e : Entry} (member : e ∈ m.erase c) : e ∈ m := by
  induction m with
  | nil => cases member
  | cons first rest ih =>
    simp only [erase] at member
    split at member
    · exact List.mem_cons_of_mem _ member
    · rcases List.mem_cons.mp member with rfl | member
      · exact List.mem_cons_self
      · exact List.mem_cons_of_mem _ (ih member)

theorem Ordered.erase {m : Memo} (ordered : m.Ordered) (c : Call) : (m.erase c).Ordered := by
  induction ordered with
  | nil => exact .nil
  | @cons first rest below tail ih =>
    simp only [Memo.erase]
    split
    · exact tail
    · exact .cons (fun e member => below e (mem_of_mem_erase member)) ih

theorem mem_erase {m : Memo} {c : Call} {e : Entry} (ordered : m.Ordered) :
    e ∈ m.erase c ↔ e ∈ m ∧ e.call ≠ c := by
  induction ordered with
  | nil => simp [erase]
  | @cons first rest below _ ih =>
    simp only [erase]
    split
    · next here =>
      subst here
      constructor
      · intro member
        exact ⟨List.mem_cons_of_mem _ member, fun same => (below e member).2 same.symm⟩
      · intro ⟨member, other⟩
        rcases List.mem_cons.mp member with rfl | member
        · exact absurd rfl other
        · exact member
    · next elsewhere =>
      simp only [List.mem_cons, ih]
      constructor
      · intro here
        rcases here with rfl | ⟨member, other⟩
        · exact ⟨.inl rfl, elsewhere⟩
        · exact ⟨.inr member, other⟩
      · intro here
        obtain ⟨rfl | member, other⟩ := here
        · exact .inl rfl
        · exact .inr ⟨member, other⟩

theorem get?_erase {m : Memo} {c d : Call} (ordered : m.Ordered) :
    (m.erase c).get? d = if d = c then none else m.get? d := by
  apply Option.ext
  intro e
  rw [get?_eq_some_iff (ordered.erase c), mem_erase ordered]
  split
  · next same =>
    subst same
    simp only [reduceCtorEq, iff_false]
    intro ⟨⟨_, other⟩, here⟩
    exact other here
  · next other =>
    rw [get?_eq_some_iff ordered]
    constructor
    · intro ⟨⟨member, _⟩, here⟩
      exact ⟨member, here⟩
    · intro here
      obtain ⟨member, rfl⟩ := here
      exact ⟨⟨member, other⟩, rfl⟩

theorem get?_filter {m : Memo} (ordered : m.Ordered) (q : Call → Bool) {c : Call} :
    get? (m.filter fun e => q e.call) c = if q c then m.get? c else none := by
  have filtered : Ordered (m.filter fun e => q e.call) := List.Pairwise.filter _ ordered
  apply Option.ext
  intro e
  rw [get?_eq_some_iff filtered, List.mem_filter]
  split
  · next here =>
    rw [get?_eq_some_iff ordered]
    constructor
    · intro ⟨⟨member, _⟩, same⟩
      exact ⟨member, same⟩
    · intro here
      obtain ⟨member, rfl⟩ := here
      exact ⟨⟨member, here⟩, rfl⟩
  · next left =>
    simp only [reduceCtorEq, iff_false]
    intro here
    obtain ⟨⟨_, here⟩, rfl⟩ := here
    exact left here

end Memo

end Packrat
