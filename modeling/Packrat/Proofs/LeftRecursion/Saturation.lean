import Mathlib.Logic.Function.Iterate
import Packrat.LeftRecursion.Saturation

namespace Packrat.Saturation

variable {joins : (String → Bool) → String → Bool}

def step (joins : (String → Bool) → String → Bool) (members : List String) (name : String) :
    List String :=
  if name ∉ members ∧ joins (fun n => n ∈ members) name = true then name :: members else members

theorem pass_cons (name : String) (rest members : List String) :
    pass joins (name :: rest) members = pass joins rest (step joins members name) := rfl

theorem step_nodup {members : List String} (name : String) (distinct : members.Nodup) :
    (step joins members name).Nodup := by
  unfold step
  split
  · next joined => exact List.nodup_cons.mpr ⟨joined.1, distinct⟩
  · exact distinct

theorem pass_nodup (names : List String) {members : List String} (distinct : members.Nodup) :
    (pass joins names members).Nodup := by
  induction names generalizing members with
  | nil => exact distinct
  | cons name rest ih => exact ih (step_nodup name distinct)

theorem mem_of_mem_pass {names members : List String} {n : String}
    (member : n ∈ pass joins names members) : n ∈ names ∨ n ∈ members := by
  induction names generalizing members with
  | nil => exact .inr member
  | cons name rest ih =>
    rw [pass_cons] at member
    rcases ih member with later | here
    · exact .inl (List.mem_cons_of_mem _ later)
    · unfold step at here
      split at here
      · rcases List.mem_cons.mp here with rfl | here
        · exact .inl List.mem_cons_self
        · exact .inr here
      · exact .inr here

theorem pass_subset {names members : List String} (within : members ⊆ names) : pass joins names members ⊆ names := by
  intro n member
  rcases mem_of_mem_pass member with listed | member
  · exact listed
  · exact within member

theorem pass_grows (names members : List String) : members <:+ pass joins names members := by
  induction names generalizing members with
  | nil => exact List.suffix_refl _
  | cons name rest ih =>
    have first : members <:+ step joins members name := by
      unfold step
      split
      · exact List.suffix_cons name members
      · exact List.suffix_refl _
    exact first.trans (ih _)

theorem closed_of_pass_eq {names members : List String} (stable : pass joins names members = members)
    {name : String} (listed : name ∈ names) (joined : joins (fun n => n ∈ members) name = true) :
    name ∈ members := by
  induction names with
  | nil => cases listed
  | cons first rest ih =>
    rw [pass_cons] at stable
    have same : step joins members first = members := by
      have grown : step joins members first <:+ pass joins rest (step joins members first) :=
        pass_grows rest _
      rw [stable] at grown
      unfold step at grown ⊢
      split
      · next joined =>
        rw [if_pos joined] at grown
        have short := grown.length_le
        rw [List.length_cons] at short
        omega
      · rfl
    rw [same] at stable
    rcases List.mem_cons.mp listed with rfl | listed
    · unfold step at same
      split at same
      · have long := congrArg List.length same
        simp at long
      · next refused => exact Decidable.byContradiction fun missing => refused ⟨missing, joined⟩
    · exact ih stable listed

theorem pass_passesUpTo {names : List String} {passes : Nat} {members : List String}
    (distinct : members.Nodup) (within : members ⊆ names) (enough : names.length < passes + members.length) :
    pass joins names (passesUpTo joins names passes members) = passesUpTo joins names passes members := by
  induction passes generalizing members with
  | zero =>
    have short := List.Nodup.length_le_of_subset distinct within
    omega
  | succ passes ih =>
    have grown : members <:+ pass joins names members := pass_grows names members
    unfold passesUpTo
    dsimp only
    split
    · next same => exact (grown.eq_of_length same.symm).symm
    · next longer =>
      have atLeast := grown.length_le
      exact ih (pass_nodup names distinct) (pass_subset within) (by omega)

theorem mem_saturate_of_joins {names : List String} {name : String} (listed : name ∈ names)
    (joined : joins (fun n => n ∈ saturate joins names) name = true) : name ∈ saturate joins names :=
  closed_of_pass_eq (pass_passesUpTo .nil (List.nil_subset _) (by simp)) listed joined

theorem pass_congr {joins' : (String → Bool) → String → Bool} {names members : List String}
    (same : ∀ asked ∈ passQuestions joins names members, joins' (fun n => n ∈ asked.1) asked.2 =
      joins (fun n => n ∈ asked.1) asked.2) :
    pass joins' names members = pass joins names members := by
  induction names generalizing members with
  | nil => rfl
  | cons name rest ih =>
    rw [passQuestions] at same
    rw [pass_cons, pass_cons, step, step]
    by_cases old : name ∈ members
    · rw [if_pos old] at same
      rw [if_neg fun joined => joined.1 old, if_neg fun joined => joined.1 old]
      exact ih same
    · rw [if_neg old] at same
      obtain ⟨here, later⟩ := List.forall_mem_cons.mp same
      simp only [here, old, not_false_eq_true, true_and]
      exact ih later

theorem saturate_congr {joins' : (String → Bool) → String → Bool} {names : List String}
    (same : ∀ asked ∈ questions joins names, joins' (fun n => n ∈ asked.1) asked.2 =
      joins (fun n => n ∈ asked.1) asked.2) :
    saturate joins' names = saturate joins names := by
  have each : ∀ passes members,
      (∀ asked ∈ questionsUpTo joins names passes members,
        joins' (fun n => n ∈ asked.1) asked.2 = joins (fun n => n ∈ asked.1) asked.2) →
      passesUpTo joins' names passes members = passesUpTo joins names passes members := by
    intro passes
    induction passes with
    | zero => exact fun _ _ => rfl
    | succ passes ih =>
      intro members same
      rw [questionsUpTo] at same
      rw [passesUpTo, passesUpTo]
      by_cases stable : (pass joins names members).length = members.length
      · rw [if_pos stable] at same
        rw [pass_congr same, if_pos stable, if_pos stable]
      · rw [if_neg stable] at same
        obtain ⟨here, later⟩ := List.forall_mem_append.mp same
        rw [pass_congr here, if_neg stable, if_neg stable, ih _ later]
  exact each _ _ same

theorem iterate_pass (names : List String) (passes : Nat) :
    ((pass joins names)^[passes] []).Nodup ∧ (pass joins names)^[passes] [] ⊆ names := by
  induction passes with
  | zero => exact ⟨.nil, List.nil_subset _⟩
  | succ passes ih =>
    rw [Function.iterate_succ_apply']
    exact ⟨pass_nodup names ih.1, pass_subset ih.2⟩

theorem exists_passes (names : List String) (passes : Nat) (members : List String) :
    ∃ productive, (pass joins names)^[productive] members = passesUpTo joins names passes members ∧
      ∀ earlier < productive, ((pass joins names)^[earlier] members).length <
        ((pass joins names)^[earlier + 1] members).length := by
  induction passes generalizing members with
  | zero => exact ⟨0, rfl, nofun⟩
  | succ passes ih =>
    unfold passesUpTo
    dsimp only
    split
    · exact ⟨0, rfl, nofun⟩
    · next longer =>
      obtain ⟨productive, result, adds⟩ := ih (pass joins names members)
      refine ⟨productive + 1, result, fun earlier early => ?_⟩
      cases earlier with
      | zero => exact Nat.lt_of_le_of_ne (pass_grows names members).length_le (Ne.symm longer)
      | succ earlier => exact adds earlier (by omega)

/-- The members after some passes over the names that each add something, when one more would add nothing. -/
def EndsWith (joins : (String → Bool) → String → Bool) (names members : List String) (passes : Nat) : Prop :=
  (pass joins names)^[passes] [] = members ∧ pass joins names members = members ∧
    ∀ earlier < passes, (pass joins names)^[earlier + 1] [] ≠ (pass joins names)^[earlier] []

theorem exists_endsWith (joins : (String → Bool) → String → Bool) (names : List String) :
    ∃ passes ≤ names.length, EndsWith joins names (saturate joins names) passes := by
  obtain ⟨passes, result, adds⟩ := @exists_passes joins names (names.length + 1) []
  have atLeast : ∀ earlier ≤ passes, earlier ≤ ((pass joins names)^[earlier] []).length := by
    intro earlier
    induction earlier with
    | zero => exact fun _ => Nat.zero_le _
    | succ earlier ih => exact fun early => Nat.lt_of_le_of_lt (ih (by omega)) (adds earlier early)
  obtain ⟨distinct, within⟩ := @iterate_pass joins names passes
  refine ⟨passes, Nat.le_trans (atLeast passes (Nat.le_refl _)) (distinct.length_le_of_subset within), result, ?_, ?_⟩
  · exact pass_passesUpTo .nil (List.nil_subset _) (by simp)
  · exact fun earlier early same => Nat.ne_of_gt (adds earlier early) (congrArg List.length same)

/-- The least set of names that holds all names that join it. -/
structure Least (joins : (String → Bool) → String → Bool) (names members : List String) : Prop where
  within : ∀ name ∈ members, name ∈ names
  closed : ∀ name ∈ names, joins (fun n => n ∈ members) name = true → name ∈ members
  least : ∀ holds : String → Bool, (∀ name ∈ names, joins holds name = true → holds name = true) →
    ∀ name ∈ members, holds name = true

def Monotone (joins : (String → Bool) → String → Bool) : Prop :=
  ∀ {fewer more : String → Bool}, (∀ n, fewer n = true → more n = true) →
    ∀ name, joins fewer name = true → joins more name = true

theorem step_le {members : List String} {name : String} {holds : String → Bool} (monotone : Monotone joins)
    (closed : joins holds name = true → holds name = true) (below : ∀ n ∈ members, holds n = true) :
    ∀ n ∈ step joins members name, holds n = true := by
  unfold step
  split
  · next joined =>
    have joins' : joins holds name = true := monotone (fun n member => below n (of_decide_eq_true member)) name joined.2
    exact List.forall_mem_cons.mpr ⟨closed joins', below⟩
  · exact below

theorem pass_le {names members : List String} {holds : String → Bool} (monotone : Monotone joins)
    (closed : ∀ name ∈ names, joins holds name = true → holds name = true) (below : ∀ n ∈ members, holds n = true) :
    ∀ n ∈ pass joins names members, holds n = true := by
  induction names generalizing members with
  | nil => exact below
  | cons name rest ih =>
    obtain ⟨here, closed⟩ := List.forall_mem_cons.mp closed
    exact ih closed (step_le monotone here below)

theorem iterate_le {names : List String} {holds : String → Bool} (monotone : Monotone joins)
    (closed : ∀ name ∈ names, joins holds name = true → holds name = true) (passes : Nat) :
    ∀ n ∈ (pass joins names)^[passes] [], holds n = true := by
  induction passes with
  | zero => exact nofun
  | succ passes ih =>
    rw [Function.iterate_succ_apply']
    exact pass_le monotone closed ih

theorem least_saturate (names : List String) (monotone : Monotone joins) :
    Least joins names (saturate joins names) := by
  obtain ⟨passes, _, result, _⟩ := exists_endsWith joins names
  -- A set that is closed under joining holds what each pass adds.
  refine ⟨fun name member => ?_, fun name listed => mem_saturate_of_joins listed, fun holds closed name member => ?_⟩
  · rw [← result] at member
    exact (iterate_pass names passes).2 member
  · rw [← result] at member
    exact iterate_le monotone closed passes name member

theorem Least.mem_of_mem {joins' : (String → Bool) → String → Bool} {names names' members members' : List String}
    (least : Least joins names members) (least' : Least joins' names' members')
    (same : ∀ holds name, joins holds name = true → joins' holds name = true) (listed : ∀ name ∈ names, name ∈ names')
    {name : String} (member : name ∈ members) : name ∈ members' := by
  refine of_decide_eq_true (least.least (fun n => n ∈ members') (fun n here joined => ?_) name member)
  exact decide_eq_true (least'.closed n (listed n here) (same _ n joined))

end Packrat.Saturation
