import TreeGrammar.Grammar.Rule

/-! # Grammars

    A grammar is a table of nodes with their rules and a table of tokens.
    Rules refer to both by handle, the index in the table, so that rules may
    be recursive.

    Key idea:
    - handles count nodes and tokens in the order in which they are first
      seen;
    - `Grammar.definitions` keeps the order in which nodes are defined, which
      may be another one;
    - `Grammar.named` shows a rule with names in place of handles.
-/

namespace TreeGrammar

/-- The handle of a node. -/
structure NodeId where
  /-- The place of the node in its table. -/
  index : Nat
  deriving DecidableEq, Repr, Inhabited

/-- The handle of a token. -/
structure TokenId where
  /-- The place of the token in its table. -/
  index : Nat
  deriving DecidableEq, Repr, Inhabited

/-- A rule as a grammar stores it. -/
abbrev HandleRule := Rule NodeId TokenId

/-- A rule as it is printed. -/
abbrev NamedRule := Rule String String

/-- A node of a grammar. -/
structure Node where
  /-- The name of the node. -/
  name : String
  /-- What its children are. -/
  rule : HandleRule
  deriving DecidableEq, Repr, Inhabited

/-- A table of nodes and a table of tokens. -/
structure Grammar where
  /-- The nodes in the order of their handles. -/
  nodes : List Node
  /-- The names of the tokens in the order of their handles. -/
  tokens : List String
  /-- The nodes in the order of their definitions. -/
  definitions : List NodeId
  deriving DecidableEq, Repr, Inhabited

namespace Grammar

/-- The handles of all nodes. -/
def nodeIds (g : Grammar) : List NodeId :=
  (List.range g.nodes.length).map NodeId.mk

/-- The handles of all tokens. -/
def tokenIds (g : Grammar) : List TokenId :=
  (List.range g.tokens.length).map TokenId.mk

/-- The node with a handle, if the handle is in range. -/
def node? (g : Grammar) (id : NodeId) : Option Node :=
  g.nodes[id.index]?

/-- The name of the token with a handle, if the handle is in range. -/
def token? (g : Grammar) (id : TokenId) : Option String :=
  g.tokens[id.index]?

/-- The handle of the first node with a name. -/
def findNode? (g : Grammar) (name : String) : Option NodeId :=
  (g.nodes.findIdx? (·.name = name)).map NodeId.mk

/-- The handle of the first token with a name. -/
def findToken? (g : Grammar) (name : String) : Option TokenId :=
  (g.tokens.findIdx? (· = name)).map TokenId.mk

/-- The name of a node. A handle out of range has no name. -/
def nodeName (g : Grammar) (id : NodeId) : String :=
  ((g.node? id).map Node.name).getD ""

/-- The name of a token. A handle out of range has no name. -/
def tokenName (g : Grammar) (id : TokenId) : String :=
  (g.token? id).getD ""

/-- A rule of the grammar with names in place of handles. -/
def named (g : Grammar) (rule : HandleRule) : NamedRule :=
  rule.map g.nodeName g.tokenName

/-- The nodes with their handles in the order of their definitions. -/
def definedNodes (g : Grammar) : List (NodeId × Node) :=
  g.definitions.filterMap fun id => (g.node? id).map (id, ·)

end Grammar

end TreeGrammar
