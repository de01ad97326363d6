import Packrat.Action.Stock
import Packrat.Proofs.Parse.Matches
import Packrat.Proofs.Typing.Bindings

namespace Packrat

namespace Expr

mutual
def boundNames : Expr → List String
  | .bind name item => name :: boundNames item
  | .sequence items | .choice items => allBoundNames items
  | .optional item | .repetition _ item | .ahead item | .notAhead item => boundNames item
  | .literal _ | .oneOf _ | .reference _ | .unknown _ => []

def allBoundNames : List Expr → List String
  | [] => []
  | e :: es => boundNames e ++ allBoundNames es
end

mutual
/-- What a name stands for in a match: the value of what is bound to it, nothing inside an optional that did not
match, and one value for each round of a repetition. -/
def read (name : String) : Expr → MatchTree → Value
  | .bind bound item, .bound inner => if bound = name then inner.value else read name item inner
  | .optional item, .present inner => read name item inner
  | .repetition _ item, .rounds kept => .list (kept.map fun m => read name item m)
  | .sequence items, .sequence _ parts => readAll name items parts
  | _, _ => .none

def readAll (name : String) : List Expr → List MatchTree → Value
  | e :: es, m :: ms => if name ∈ boundNames e then read name e m else readAll name es ms
  | _, _ => .none
end

mutual
theorem boundNames_of_no_binding : ∀ {e : Expr}, hasBinding e = false → boundNames e = []
  | .bind _ _, free => by cases free
  | .sequence items, free | .choice items, free =>
    allBoundNames_of_no_binding (show anyHasBinding items = false from free)
  | .optional item, free | .repetition _ item, free | .ahead item, free | .notAhead item, free =>
    boundNames_of_no_binding (e := item) free
  | .literal _, _ | .oneOf _, _ | .reference _, _ | .unknown _, _ => rfl

theorem allBoundNames_of_no_binding : ∀ {es : List Expr}, anyHasBinding es = false → allBoundNames es = []
  | [], _ => rfl
  | e :: es, free => by
    obtain ⟨first, rest⟩ := Bool.or_eq_false_iff.mp free
    rw [allBoundNames, boundNames_of_no_binding first, allBoundNames_of_no_binding rest, List.append_nil]
end

mutual
theorem map_fst_boundPaths : ∀ {e : Expr} {paths : List (String × Path)}, e.boundPaths = .ok paths →
    paths.map Prod.fst = e.boundNames
  | .bind name item, paths, bound => by
    rw [boundPaths] at bound
    obtain ⟨inner, here, done⟩ := ok_of_bind bound
    cases done
    rw [List.map_cons, map_fst_boundPaths here, boundNames]
  | .optional item, paths, bound | .repetition _ item, paths, bound => by
    rw [boundPaths] at bound
    obtain ⟨inner, here, done⟩ := ok_of_bind bound
    cases done
    rw [List.map_map, boundNames, ← map_fst_boundPaths here]
    rfl
  | .sequence items, paths, bound => by
    rw [boundPaths] at bound
    exact map_fst_itemPaths bound
  | .choice items, paths, bound => by
    rw [boundPaths] at bound
    split at bound
    · cases bound
    next free =>
      cases bound
      exact (allBoundNames_of_no_binding (by simpa using free)).symm
  | .ahead item, paths, bound | .notAhead item, paths, bound => by
    rw [boundPaths] at bound
    split at bound
    · cases bound
    next free =>
      cases bound
      exact (boundNames_of_no_binding (e := item) (by simpa using free)).symm
  | .literal _, _, bound | .oneOf _, _, bound | .reference _, _, bound | .unknown _, _, bound => by
    cases bound
    rfl

theorem map_fst_itemPaths : ∀ {es : List Expr} {several : Bool} {mask : List Bool} {slot : Nat}
    {paths : List (String × Path)}, itemPaths several mask slot es = .ok paths → paths.map Prod.fst = allBoundNames es
  | [], _, _, _, _, bound => by
    cases bound
    rfl
  | e :: es, several, mask, slot, paths, bound => by
    rw [itemPaths] at bound
    obtain ⟨inner, first, bound⟩ := ok_of_bind bound
    obtain ⟨later, rest, done⟩ := ok_of_bind bound
    cases done
    rw [List.map_append, map_fst_itemPaths rest, allBoundNames, ← map_fst_boundPaths first]
    split
    · rw [List.map_map]
      rfl
    · rfl
end

theorem allBoundNames_append (first second : List Expr) :
    allBoundNames (first ++ second) = allBoundNames first ++ allBoundNames second := by
  induction first with
  | nil => rfl
  | cons e es ih => rw [List.cons_append, allBoundNames, ih, allBoundNames, List.append_assoc]

mutual
theorem allBoundNames_laidOpen : ∀ e : Expr, allBoundNames (laidOpen e) = boundNames e
  | .sequence items => allBoundNames_allLaidOpen items
  | .literal _ | .oneOf _ | .reference _ | .choice _ | .optional _ | .repetition _ _ | .bind _ _
  | .ahead _ | .notAhead _ | .unknown _ => by simp only [laidOpen, allBoundNames, List.append_nil]

theorem allBoundNames_allLaidOpen : ∀ es : List Expr, allBoundNames (allLaidOpen es) = allBoundNames es
  | [] => rfl
  | e :: es => by
    rw [allLaidOpen, allBoundNames_append, allBoundNames_laidOpen e, allBoundNames_allLaidOpen es, allBoundNames]
end

section Items

variable {items : List Expr} {ms : List MatchTree} {name : String} {j : Nat} {e : Expr} {m : MatchTree}

theorem nodup_of_item (distinct : (allBoundNames items).Nodup) (item : items[j]? = some e) : e.boundNames.Nodup := by
  induction items generalizing j with
  | nil => cases item
  | cons first rest ih =>
    obtain ⟨here, there, _⟩ := List.nodup_append.mp distinct
    cases j with
    | zero =>
      cases item
      exact here
    | succ j => exact ih there item

theorem mem_allBoundNames (item : items[j]? = some e) (bound : name ∈ e.boundNames) : name ∈ allBoundNames items := by
  induction items generalizing j with
  | nil => cases item
  | cons first rest ih =>
    cases j with
    | zero =>
      cases item
      exact List.mem_append_left _ bound
    | succ j => exact List.mem_append_right _ (ih item)

theorem readAll_eq (distinct : (allBoundNames items).Nodup) (item : items[j]? = some e) (tree : ms[j]? = some m)
    (bound : name ∈ e.boundNames) : readAll name items ms = read name e m := by
  induction items generalizing j ms with
  | nil => cases item
  | cons first rest ih =>
    cases ms with
    | nil => cases tree
    | cons m' ms =>
      obtain ⟨_, there, apart⟩ := List.nodup_append.mp distinct
      rw [readAll]
      cases j with
      | zero =>
        cases item
        cases tree
        rw [if_pos bound]
      | succ j =>
        rw [if_neg fun here => apart name here name (mem_allBoundNames item bound) rfl]
        exact ih there item tree

end Items

def Reads (e : Expr) (m : MatchTree) : Prop :=
  e.boundNames.Nodup → ∀ paths, e.boundPaths = .ok paths → ∀ x ∈ paths, x.2.get m.value = .ok (e.read x.1 m)

namespace Reads

variable {e : Expr} {m : MatchTree} {ms : List MatchTree}

theorem of_isLeaf (plain : e.isLeaf = true) : e.Reads m := by
  intro distinct paths bound x listed
  have unbound : paths = [] := by
    cases e with
    | literal | oneOf | reference | unknown =>
      cases bound
      rfl
    | choice | ahead | notAhead =>
      rw [boundPaths] at bound
      split at bound <;> cases bound
      rfl
    | sequence | optional | repetition | bind => cases plain
  rw [unbound] at listed
  cases listed

theorem get_none {path : Path} {v : Value} (dug : path.get .none = .ok v) : v = .none := by
  cases path with
  | whole | present _ =>
    cases dug
    rfl
  | each _ | slot _ _ => cases dug

theorem optional_present (reads : e.Reads m) : (Expr.optional e).Reads (.present m) := by
  intro distinct paths bound x listed
  rw [boundPaths] at bound
  obtain ⟨inner, here, done⟩ := ok_of_bind bound
  cases done
  obtain ⟨y, member, rfl⟩ := List.mem_map.mp listed
  have dug := reads distinct inner here y member
  rw [MatchTree.value, read]
  cases same : m.value with
  | none =>
    rw [same] at dug
    rw [get_none dug]
    rfl
  | _ =>
    rw [same] at dug
    exact dug

theorem optional_absent : (Expr.optional e).Reads .absent := by
  intro distinct paths bound x listed
  rw [boundPaths] at bound
  obtain ⟨inner, here, done⟩ := ok_of_bind bound
  cases done
  obtain ⟨y, member, rfl⟩ := List.mem_map.mp listed
  rfl

theorem repetition {atLeastOnce : Bool} (reads : ∀ m ∈ ms, e.Reads m) :
    (Expr.repetition atLeastOnce e).Reads (.rounds ms) := by
  intro distinct paths bound x listed
  rw [boundPaths] at bound
  obtain ⟨inner, here, done⟩ := ok_of_bind bound
  cases done
  obtain ⟨y, member, rfl⟩ := List.mem_map.mp listed
  have each : (MatchTree.values ms).mapM y.2.get = .ok (ms.map fun m => e.read y.1 m) := by
    rw [MatchTree.values_eq_map, List.mapM_map]
    exact mapM_eq_ok fun m inside => reads m inside distinct inner here y member
  simp only [MatchTree.value, Path.get, Value.parts?, each, read]
  rfl

theorem bind {name : String} (reads : e.Reads m) : (Expr.bind name e).Reads (.bound m) := by
  intro distinct paths bound x listed
  obtain ⟨fresh, distinct⟩ := List.nodup_cons.mp distinct
  rw [boundPaths] at bound
  obtain ⟨inner, here, done⟩ := ok_of_bind bound
  cases done
  rw [MatchTree.value, read]
  rcases List.mem_cons.mp listed with rfl | member
  · rw [if_pos rfl]
    rfl
  · have other : name ≠ x.1 := by
      rintro rfl
      exact fresh (map_fst_boundPaths here ▸ List.mem_map_of_mem member)
    rw [if_neg other]
    exact reads distinct inner here x member

theorem sequence {items : List Expr} (each : List.Forall₂ Expr.Reads items ms) :
    (Expr.sequence items).Reads (.sequence (contributing items) ms) := by
  intro distinct paths bound x listed
  have same : (MatchTree.values ms).length = items.length := by
    rw [MatchTree.values_eq_map, List.length_map, each.length_eq]
  obtain ⟨j, e, v, inner, y, item, value, there, member, name, leads⟩ := exists_item_of_sequence bound same listed
  obtain ⟨m, tree, reads⟩ := getElem?_of_forall₂ each item
  have dug := reads (nodup_of_item distinct item) inner there y member
  have bound : y.1 ∈ e.boundNames := map_fst_boundPaths there ▸ List.mem_map_of_mem member
  rw [MatchTree.values_eq_map, List.getElem?_map, tree] at value
  cases value
  rw [MatchTree.value, read, leads, ← name, readAll_eq distinct item tree bound, dug]

end Reads

end Expr

def Stretch.Reads (ms : List MatchTree) : Stretch → Prop
  | .one e => ∀ m ∈ ms, e.Reads m
  | .all es => List.Forall₂ Expr.Reads es ms
  | .rounds _ item => ∀ m ∈ ms, item.Reads m

theorem TypedGrammar.Matches.reads {p : TypedGrammar} {input : Input} {call : String → Int → Run Value}
    {stretch : Stretch}
    {room : Room} {i stop : Int} {s s' : Parse} {ms : List MatchTree}
    (matched : p.Matches input call stretch room i s ms stop s') : stretch.Reads ms := by
  induction matched with
  | leaf plain => exact List.forall_mem_singleton.mpr (.of_isLeaf plain)
  | sequence _ _ ih => exact List.forall_mem_singleton.mpr (.sequence ih)
  | present _ _ _ ih => exact List.forall_mem_singleton.mpr (.optional_present (List.forall_mem_singleton.mp ih))
  | absent => exact List.forall_mem_singleton.mpr .optional_absent
  | repetition _ _ ih => exact List.forall_mem_singleton.mpr (.repetition ih)
  | bind _ ih => exact List.forall_mem_singleton.mpr (.bind (List.forall_mem_singleton.mp ih))
  | nil => exact .nil
  | cons _ _ first rest => exact .cons (List.forall_mem_singleton.mp first) rest
  | ended | idle => exact fun _ inside => by cases inside
  | only _ _ ih => exact ih
  | round _ _ _ _ first rest => exact List.forall_mem_cons.mpr ⟨List.forall_mem_singleton.mp first, rest⟩

namespace Typing

variable {ctx : Context} {pending : List String} {r : Rule} {p : Production}

theorem names_of_addBindings {index : Nat} {bound bindings : List Binding} {paths : List (String × Path)}
    (added : addBindings p pending index bound paths = .ok bindings) (distinct : (bound.map (·.name)).Nodup) :
    bindings.map (·.name) = bound.map (·.name) ++ paths.map Prod.fst ∧ (bindings.map (·.name)).Nodup := by
  induction paths generalizing bound with
  | nil =>
    cases added
    exact ⟨by simp, distinct⟩
  | cons first rest ih =>
    obtain ⟨fresh, added⟩ := addBindings_cons added
    have absent : first.1 ∉ bound.map (·.name) := by simpa using fresh
    have grown : ((bound ++ [(⟨index, first.1, first.2⟩ : Binding)]).map (·.name)).Nodup := by
      rw [List.map_append, List.map_singleton]
      refine List.nodup_append.mpr ⟨distinct, by simp, fun name listed other here same => absent ?_⟩
      obtain rfl : name = first.1 := same.trans (List.mem_singleton.mp here)
      exact listed
    obtain ⟨names, distinct⟩ := ih added grown
    exact ⟨by simpa using names, distinct⟩

theorem names_of_bindingsFrom {index : Nat} {items : List Expr} {bound bindings : List Binding}
    (made : bindingsFrom p pending index bound items = .ok bindings) (distinct : (bound.map (·.name)).Nodup) :
    bindings.map (·.name) = bound.map (·.name) ++ Expr.allBoundNames items ∧ (bindings.map (·.name)).Nodup := by
  induction items generalizing index bound with
  | nil =>
    cases made
    exact ⟨by simp [Expr.allBoundNames], distinct⟩
  | cons item rest ih =>
    unfold bindingsFrom at made
    split at made
    next paths here =>
      obtain ⟨bound', added, made⟩ := ok_of_bind made
      obtain ⟨names, distinct⟩ := names_of_addBindings added distinct
      obtain ⟨all, distinct⟩ := ih made distinct
      refine ⟨?_, distinct⟩
      rw [all, names, Expr.map_fst_boundPaths here, Expr.allBoundNames, List.append_assoc]
    next =>
      obtain ⟨_, _, refused⟩ := ok_of_bind made
      cases refused

theorem names_of_typedProduction {items : List Expr} {types : List ValueType} {q : TypedProduction}
    (made : typedProduction ctx pending r p items types = .ok q) :
    q.bindings.map (·.name) = Expr.allBoundNames items ∧ (Expr.allBoundNames items).Nodup := by
  obtain ⟨bindings, bound, made⟩ := ok_of_bind made
  obtain ⟨names, distinct⟩ := names_of_bindingsFrom bound (by simp)
  rw [List.map_nil, List.nil_append] at names
  rw [names] at distinct
  split at made
  · obtain ⟨action, _, made⟩ := ok_of_bind made
    cases made
    exact ⟨names, distinct⟩
  · cases made
    exact ⟨names, distinct⟩

end Typing

namespace TypedProduction

variable {q : TypedProduction} {ms : List MatchTree}

theorem value_of_finds {b : Binding} (finds : Typing.Finds q.items b) (reads : List.Forall₂ Expr.Reads q.items ms)
    (distinct : (Expr.allBoundNames q.items).Nodup) :
    b.value (MatchTree.values ms) = .ok (Expr.readAll b.name q.items ms) := by
  obtain ⟨item, paths, here, bound, member⟩ := finds
  obtain ⟨m, tree, reads⟩ := getElem?_of_forall₂ reads here
  have named : b.name ∈ item.boundNames := Expr.map_fst_boundPaths bound ▸ List.mem_map_of_mem member
  rw [Binding.value, MatchTree.values_eq_map, List.getElem?_map, tree, Expr.readAll_eq distinct here tree named]
  exact reads (Expr.nodup_of_item distinct here) paths bound _ member

theorem arguments_eq (finds : ∀ b ∈ q.bindings, Typing.Finds q.items b) (reads : List.Forall₂ Expr.Reads q.items ms)
    (names : q.bindings.map (·.name) = Expr.allBoundNames q.items) (distinct : (Expr.allBoundNames q.items).Nodup)
    (some : Expr.allBoundNames q.items ≠ []) : q.arguments (MatchTree.values ms) =
      .ok (.named ((Expr.allBoundNames q.items).map fun name => (name, Expr.readAll name q.items ms))) := by
  have bound : q.bindings.mapM (fun (b : Binding) => do return (b.name, ← b.value (MatchTree.values ms))) =
      .ok (q.bindings.map fun b => (b.name, Expr.readAll b.name q.items ms)) :=
    mapM_eq_ok fun b listed => by rw [value_of_finds (finds b listed) reads distinct]; rfl
  have nonempty : ¬ q.bindings.isEmpty := by
    rw [List.isEmpty_iff]
    rintro none
    rw [none] at names
    exact some names.symm
  rw [arguments, if_neg nonempty, bound, ← names, List.map_map]
  rfl

end TypedProduction

def Action.call (action : Action) (arguments : Arguments) (start stop : Int) : Run Value :=
  .inRoomFor 3 fun _ s =>
    (match action.run arguments with
      | .ok v => .matched v stop
      | .error f => .halted (.fault f), { s with events := .acting start stop action.label :: s.events })

namespace TypedGrammar

theorem finish_eq_call {q : TypedProduction} {action : Action} {vs : List Value} {arguments : Arguments}
    (acts : q.action = some action) (made : q.arguments vs = .ok arguments) (start stop : Int) :
    finish q start vs stop = action.call arguments start stop := by
  unfold finish Action.call TypedProduction.value
  rw [acts]
  simp only [made]
  congr 1
  funext room s
  cases action.run arguments <;> rfl

/-- A production with bindings calls its action with the names that are bound in it, in order and each once, and with
what can be read off its match: the one tree of the very run. -/
theorem called_with_bindings {p : TypedGrammar} {actions : List (String × Action)}
    (accepted : Typing.typedRules p.grammar actions = .ok p.typedRules) {name : String} {r : Rule}
    (found : p.grammar.rule? name = some r) {k : Nat} {production : Production}
    (source : r.productions[k]? = some production) {spec : ActionSpec} (asked : production.action = some spec)
    {action : Action} (resolved : Typing.findAction ⟨p.grammar, actions⟩ [] spec = .ok (some action))
    (binds : Expr.allBoundNames production.items ≠ []) :
    (Expr.allBoundNames production.items).Nodup ∧
    ∃ typed q, p.typed? name = some typed ∧ typed.productions[k]? = some q ∧
      q.items = Expr.allLaidOpen production.items ∧
      ∀ input call i room left s vs stop s', room.take? 1 = some left →
        p.evaluateAll input call q.items i left s = (.matched vs stop, s') →
        (∃ ms, p.Matches input call (.all q.items) left i s ms stop s') ∧
        ∀ ms, p.Matches input call (.all q.items) left i s ms stop s' →
          p.production input call q i room s = action.call (.named ((Expr.allBoundNames production.items).map
            fun name => (name, Expr.readAll name q.items ms))) i stop left s' := by
  have complete := Typing.complete_of_typedRules accepted
  have same := Grammar.name_of_rule? found
  obtain ⟨typed, known⟩ := complete.known r (Grammar.mem_of_rule? found)
  rw [same] at known
  obtain ⟨r', found', checked⟩ := complete.checked known
  cases found.symm.trans found'
  obtain ⟨q, plan, pending, types, _, made⟩ := getElem?_of_forall₂ checked.productions.flip source
  obtain ⟨items, _, acts⟩ := Typing.typedProduction_cases made
  obtain ⟨names, distinct⟩ := Typing.names_of_typedProduction made
  have finds := Typing.finds_of_typedProduction made
  have acts : q.action = some action := by
    rcases acts with ⟨plain, _⟩ | ⟨spec', asked', resolved', _⟩
    · cases asked.symm.trans plain
    · cases asked.symm.trans asked'
      exact Except.ok.inj (resolved'.symm.trans resolved)
  rw [← items] at names distinct
  have bound : Expr.allBoundNames q.items = Expr.allBoundNames production.items := by
    rw [items, Expr.allBoundNames_allLaidOpen]
  rw [← bound] at binds ⊢
  refine ⟨distinct, typed, q, known, plan, items, fun input call i room left s vs stop s' level run => ?_⟩
  obtain ⟨ms, rfl, matched⟩ := exists_matches_all q.items run
  refine ⟨⟨ms, matched⟩, fun ms' matched' => ?_⟩
  obtain ⟨rfl, _⟩ := matched'.unique matched
  have arguments := TypedProduction.arguments_eq finds matched.reads names distinct binds
  rw [← finish_eq_call acts arguments]
  unfold TypedGrammar.production Run.nested
  simp only [level, Run.andThen, run]

def entry : Grammar where
  rules :=
    let more : List Expr := [.literal ",", .bind "more" (.literal "b"), .optional (.bind "mark" (.literal "!"))]
    let items : List Expr := [.bind "first" (.literal "a"), .repetition false (.sequence more)]
    [⟨"entry", [⟨items, some { callable := some (.node "entry") }⟩], none, true, none, ""⟩]
  tokens := []
  states := []
  name := "entry"
  distinctRules := by decide
  distinctTokens := Grammar.distinctTokens_nil
  disjoint := by decide
  distinctInStates := Grammar.distinctInStates_nil

theorem entry_called : ∃ p : TypedGrammar, p.grammar = entry ∧ Typing.typedRules entry [] = .ok p.typedRules ∧
    ∃ (q : TypedProduction) (ms : List MatchTree) (s' : Parse),
      p.Matches (.text #['a', ',', 'b', '!', ',', 'b']) (fun _ _ => .noMatch) (.all q.items) .unlimited 0 {} ms 6 s' ∧
      ["first", "more", "mark"].map (fun name => (name, Expr.readAll name q.items ms)) =
        [("first", .text "a"), ("more", .list [.text "b", .text "b"]), ("mark", .list [.text "!", .none])] := by
  obtain ⟨rules, typed, q, accepted, known, plan, vs, s', run, outcome⟩ :
      ∃ rules typed q, Typing.typedRules entry [] = .ok rules ∧ rules.lookup "entry" = some typed ∧
        typed.productions[0]? = some q ∧ ∃ vs s',
        evaluateAll ⟨entry, rules⟩ (.text #['a', ',', 'b', '!', ',', 'b']) (fun _ _ => .noMatch) q.items 0 .unlimited
          {} = (.matched vs 6, s') ∧
        (production ⟨entry, rules⟩ (.text #['a', ',', 'b', '!', ',', 'b']) (fun _ _ => .noMatch) q 0 .unlimited
          {}).1 = .matched (.namedNode "entry"
            [("first", .text "a"), ("more", .list [.text "b", .text "b"]), ("mark", .list [.text "!", .none])]) 6 :=
    ⟨_, _, _, rfl, rfl, rfl, _, _, rfl, rfl⟩
  have found : (⟨entry, rules⟩ : TypedGrammar).grammar.rule? "entry" = some entry.rules[0] := rfl
  have source : entry.rules[0].productions[0]? = some entry.rules[0].productions[0] := rfl
  have resolved : Typing.findAction ⟨entry, []⟩ [] { callable := some (.node "entry") } =
    .ok (some (.node "entry")) := rfl
  obtain ⟨_, typed', q', known', plan', _, called⟩ :=
    called_with_bindings accepted found source rfl resolved (by decide)
  cases known.symm.trans known'
  cases plan.symm.trans plan'
  obtain ⟨⟨ms, matched⟩, reads⟩ := called _ _ 0 .unlimited .unlimited {} vs 6 s' rfl run
  refine ⟨⟨entry, rules⟩, rfl, accepted, q, ms, s', matched, ?_⟩
  rw [reads ms matched] at outcome
  injection outcome with node
  injection node with _ fields

end TypedGrammar

end Packrat
