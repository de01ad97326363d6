import Packrat.Action
import Packrat.Expr.Basic
import Packrat.Grammar.Error

namespace Packrat

structure Production where
  items : List Expr
  action : Option ActionSpec := none

def Production.text (p : Production) : String :=
  let body := " ".intercalate (Expr.texts p.items)
  if p.action.isSome then body ++ " => ..." else body

def Production.unshowable? (p : Production) : Option Unshowable := Expr.firstUnshowable? p.items

structure Rule where
  name : String
  productions : List Production
  type : Option String := none
  entry : Bool := true
  /-- What a failed parse reports in place of what the rule expects where it starts. -/
  errorName : Option String := none
  location : String := ""

def Rule.text (r : Rule) : String := "Rule(" ++ Text.quote r.name ++ ")"

structure TokenRule where
  name : String
  pattern : Expr
  skip : Bool := false
  errorName : Option String := none
  action : Option Action := none
  type : Option String := none
  enter : Option String := none
  leave : Bool := false
  location : String := ""

namespace TokenRule

def makesValue (t : TokenRule) : Bool := t.action.isSome || t.enter.isSome

def description (t : TokenRule) : String :=
  match t.errorName with
  | some name => if name = "" then t.name else name
  | none => t.name

def text (t : TokenRule) : String := "TokenDef(" ++ Text.quote t.name ++ ")"

end TokenRule

def Rule.names (rules : List Rule) : List String := rules.map (·.name)

def TokenRule.names (tokens : List TokenRule) : List String := tokens.map (·.name)

/-- Rules and tokens in the order they are declared, no two of the same name. Where two tokens match
the same text, the one declared first wins. -/
structure Grammar where
  rules : List Rule
  tokens : List TokenRule
  states : List (String × List TokenRule)
  name : String
  distinctRules : (Rule.names rules).Nodup
  distinctTokens : (TokenRule.names tokens).Nodup
  disjoint : ∀ name ∈ TokenRule.names tokens, name ∉ Rule.names rules
  distinctInStates : ∀ state ∈ states, (TokenRule.names state.2).Nodup

namespace Grammar

def rule? (g : Grammar) (name : String) : Option Rule := g.rules.find? (·.name == name)

def token? (g : Grammar) (name : String) : Option TokenRule := g.tokens.find? (·.name == name)

def ruleNames (g : Grammar) : List String := Rule.names g.rules

def isKnown (g : Grammar) : Bool := g.rules.all fun r => r.productions.all fun p => Expr.allKnown p.items

def usesTokens (g : Grammar) : Bool := !g.tokens.isEmpty

def entries (g : Grammar) : List String := Rule.names (g.rules.filter (·.entry))

def text (g : Grammar) : String :=
  s!"Grammar({Text.quote g.name}, {g.rules.length} rules, {g.tokens.length} tokens)"

def duplicate (what name place first second : String) : GrammarError where
  kind := .duplicateDefinition
  text := s!"Found more than one {what} named {name}{place}:\n- {first}\n- {second}"
  blamed := some name

def checkRules : (seen : List Rule) → List Rule → Except GrammarError Unit
  | _, [] => .ok ()
  | seen, r :: rest =>
    match seen.find? (·.name == r.name) with
    | some earlier => .error (duplicate "rule" r.name "" earlier.location r.location)
    | none => checkRules (r :: seen) rest

def checkTokens (rules : List Rule) (place : String) :
    (seen : List TokenRule) → List TokenRule → Except GrammarError Unit
  | _, [] => .ok ()
  | seen, t :: rest =>
    match seen.find? (·.name == t.name), rules.find? (·.name == t.name) with
    | some earlier, _ => .error (duplicate "token" t.name place earlier.location t.location)
    | none, some r => .error
        { kind := .duplicateDefinition
          text := s!"Found a token and a rule both named {t.name}:\n" ++
            s!"- The rule was defined at {r.location}\n- The token was defined at {t.location}"
          blamed := some t.name }
    | none, none => checkTokens rules place (t :: seen) rest

def checkStates : List (String × List TokenRule) → Except GrammarError Unit
  | [] => .ok ()
  | (state, tokens) :: rest => do
    checkTokens [] s!" in lexer state {state}" [] tokens
    checkStates rest

theorem checkRules_distinct {seen rules : List Rule} (h : checkRules seen rules = .ok ()) :
    (Rule.names rules).Nodup ∧ ∀ name ∈ Rule.names rules, name ∉ Rule.names seen := by
  induction rules generalizing seen with
  | nil => simp [Rule.names]
  | cons r rest ih =>
    unfold checkRules at h
    split at h
    · cases h
    · next absent =>
      have fresh : r.name ∉ Rule.names seen := by
        simpa [Rule.names, List.find?_eq_none] using absent
      obtain ⟨distinct, apart⟩ := ih h
      simp only [Rule.names, List.map_cons, List.nodup_cons, List.mem_cons, not_or] at *
      refine ⟨⟨fun member => (apart _ member).1 rfl, distinct⟩, fun name member => ?_⟩
      rcases member with rfl | member
      · exact fresh
      · exact (apart name member).2

theorem checkTokens_distinct {rules : List Rule} {place : String} {seen tokens : List TokenRule}
    (h : checkTokens rules place seen tokens = .ok ()) :
    (TokenRule.names tokens).Nodup ∧
      ∀ name ∈ TokenRule.names tokens, name ∉ TokenRule.names seen ∧ name ∉ Rule.names rules := by
  induction tokens generalizing seen with
  | nil => simp [TokenRule.names]
  | cons t rest ih =>
    unfold checkTokens at h
    split at h
    · cases h
    · cases h
    · next absent noRule =>
      have fresh : t.name ∉ TokenRule.names seen := by
        simpa [TokenRule.names, List.find?_eq_none] using absent
      have free : t.name ∉ Rule.names rules := by
        simpa [Rule.names, List.find?_eq_none] using noRule
      obtain ⟨distinct, apart⟩ := ih h
      simp only [TokenRule.names, List.map_cons, List.nodup_cons, List.mem_cons, not_or] at *
      refine ⟨⟨fun member => (apart _ member).1.1 rfl, distinct⟩, fun name member => ?_⟩
      rcases member with rfl | member
      · exact ⟨fresh, free⟩
      · exact ⟨(apart name member).1.2, (apart name member).2⟩

theorem checkStates_distinct {states : List (String × List TokenRule)} (h : checkStates states = .ok ()) :
    ∀ state ∈ states, (TokenRule.names state.2).Nodup := by
  induction states with
  | nil => simp
  | cons state rest ih =>
    simp only [checkStates] at h
    cases first : checkTokens [] s!" in lexer state {state.1}" [] state.2 with
    | error e => rw [first] at h; cases h
    | ok =>
      rw [first] at h
      intro other member
      rcases List.mem_cons.1 member with rfl | member
      · exact (checkTokens_distinct first).1
      · exact ih h other member

def setState (name : String) (tokens : List TokenRule) :
    List (String × List TokenRule) → List (String × List TokenRule)
  | [] => [(name, tokens)]
  | (n, ts) :: rest =>
    if n = name then (n, tokens) :: rest else (n, ts) :: setState name tokens rest

def mergeStates (states : List (String × List TokenRule)) : List (String × List TokenRule) :=
  states.foldl (fun merged (name, tokens) => setState name tokens merged) []

def nameOr (name : Option String) : String :=
  if name.getD "" = "" then "grammar" else name.getD ""

def ofParts (rules : List Rule) (tokens : List TokenRule) (states : List (String × List TokenRule))
    (name : Option String) : Except GrammarError Grammar :=
  let states := mergeStates states
  match hr : checkRules [] rules, ht : checkTokens rules "" [] tokens, hs : checkStates states with
  | .error e, _, _ | .ok (), .error e, _ | .ok (), .ok (), .error e => .error e
  | .ok (), .ok (), .ok () => .ok
      { rules, tokens, states, name := nameOr name
        distinctRules := (checkRules_distinct hr).1
        distinctTokens := (checkTokens_distinct ht).1
        disjoint := fun name member => ((checkTokens_distinct ht).2 name member).2
        distinctInStates := checkStates_distinct hs }

end Grammar

end Packrat
