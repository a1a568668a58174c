import TreeGrammar.Grammar.Basic
import TreeGrammar.Token.Literal

/-! # Canonical text

    Every grammar has one canonical text. It keeps the order of the
    definitions, so that reading it back hands out the same handles, and has
    parentheses only where they are needed.

    Key idea:
    - a `Place` says what stands around a rule, and `Place.needsParens` which
      rules cannot stand there bare;
    - each definition is a block: the node on a line of its own, then one
      line for each choice.
-/

namespace TreeGrammar

/-- What stands around a rule. -/
inductive Place where
  /-- Nothing: it is the whole rule of a node. -/
  | top
  /-- It is one of several choices. -/
  | choice
  /-- It is one of several parts in a row. -/
  | part
  /-- A label is in front of it. -/
  | labeled
  /-- A `?` or `*` is behind it. -/
  | quantified
  deriving DecidableEq, Repr

/-- Whether a rule has to be put in parentheses at a place. -/
def Place.needsParens (place : Place) : NamedRule → Bool
  -- A single name or literal takes a `?` or `*` directly.
  | .node _ | .token _ => false
  | .labeled _ _ | .opt _ | .rep _ => place = .quantified
  | .seq _ => place = .part || place = .labeled || place = .quantified
  | .alt _ => place ≠ .top

/-- Puts a text in parentheses if it needs them. -/
def enclose (needed : Bool) (text : String) : String :=
  if needed then "(" ++ text ++ ")" else text

namespace Rule

mutual

/-- The text of a rule without parentheses around it. -/
def bareText : NamedRule → String
  | .node name => name
  | .token name => Literal.spelling name
  | .labeled label body => label ++ ":" ++ enclose (Place.labeled.needsParens body) (bareText body)
  | .seq parts => " ".intercalate (textsAt .part parts)
  | .alt choices => " | ".intercalate (textsAt .choice choices)
  | .opt body => enclose (Place.quantified.needsParens body) (bareText body) ++ "?"
  | .rep body => enclose (Place.quantified.needsParens body) (bareText body) ++ "*"

/-- The texts of several rules, each at a place of the same kind. -/
def textsAt (place : Place) : List NamedRule → List String
  | [] => []
  | rule :: rules => enclose (place.needsParens rule) (bareText rule) :: textsAt place rules

end

/-- The text of a rule at a place. -/
def textAt (place : Place) (rule : NamedRule) : String :=
  enclose (place.needsParens rule) (bareText rule)

@[simp] theorem textsAt_eq_map (place : Place) (rules : List NamedRule) :
    textsAt place rules = rules.map (textAt place) := by
  induction rules with
  | nil => rfl
  | cons rule rules ih => simp [textsAt, textAt, ih]

/-- The texts of the choices that the rule of a node consists of, one if it is no choice. -/
def choiceTexts : NamedRule → List String
  | .alt choices => choices.map (textAt .choice)
  | rule => [textAt .top rule]

end Rule

/-- The canonical text of the definition of a node. -/
def definitionText (name : String) (rule : NamedRule) : String :=
  name ++ " =\n  " ++ "\n| ".intercalate rule.choiceTexts ++ "\n"

/-- The canonical text of a grammar. -/
def Grammar.canonicalText (g : Grammar) : String :=
  "\n".intercalate
    (g.definedNodes.map fun (_, node) => definitionText node.name (g.named node.rule))

end TreeGrammar
