import TreeGrammar.Grammar.Basic
import TreeGrammar.Json.Pretty

/-! # Export

    A grammar as JSON for other programs: its nodes and tokens in the order
    of their handles, with names in place of handles. A rule is an object
    with one member, whose key tells what sort of rule it is.
-/

namespace TreeGrammar

namespace Rule

mutual

/-- A rule as JSON. -/
def toJson : NamedRule → Json
  | .node name => .tagged "node" (.string name)
  | .token name => .tagged "token" (.string name)
  | .labeled label body =>
    .tagged "labeled" (.object [("label", .string label), ("rule", toJson body)])
  | .seq parts => .tagged "seq" (.array (toJsonList parts))
  | .alt choices => .tagged "alt" (.array (toJsonList choices))
  | .opt body => .tagged "opt" (toJson body)
  | .rep body => .tagged "rep" (toJson body)

/-- The rules of a list as JSON. -/
def toJsonList : List NamedRule → List Json
  | [] => []
  | rule :: rules => toJson rule :: toJsonList rules

end

@[simp] theorem toJsonList_eq_map (rules : List NamedRule) :
    toJsonList rules = rules.map toJson := by
  induction rules with
  | nil => rfl
  | cons rule rules ih => simp [toJsonList, ih]

end Rule

namespace Grammar

/-- A node as JSON. -/
def nodeToJson (g : Grammar) (node : Node) : Json :=
  .object [("name", .string node.name), ("rule", (g.named node.rule).toJson)]

/-- A grammar as JSON. -/
def toJson (g : Grammar) : Json :=
  .object [("nodes", .array (g.nodes.map g.nodeToJson)), ("tokens", .array (g.tokens.map .string))]

/-- The text of the export of a grammar. -/
def exportText (g : Grammar) : String :=
  g.toJson.pretty

end Grammar

end TreeGrammar
