import TreeGrammar.Grammar.Event
import TreeGrammar.Grammar.SyntaxError

/-! # Drafts

    A draft holds the tables of a grammar while it is read. A node enters the
    table when its name is first seen, before or at its definition, and gets
    its rule when the definition has been read.

    Key idea:
    - `Draft.internNode` and `Draft.internToken` hand out handles and only
      ever add to the end of the tables;
    - `Draft.define` fills in the rule of a node;
    - `Draft.complete` makes a grammar, if every node has its rule.
-/

namespace TreeGrammar

/-- A node that may not be defined yet. -/
structure PendingNode where
  /-- The name of the node. -/
  name : String
  /-- Where the name was first seen. -/
  span : Span
  /-- The rule, once it has been read. -/
  rule? : Option HandleRule
  deriving DecidableEq, Repr

/-- The tables of a grammar while it is read. -/
structure Draft where
  /-- The nodes seen so far. -/
  nodes : List PendingNode := []
  /-- The names of the tokens seen so far. -/
  tokens : List String := []
  /-- The nodes defined so far, in the order of their definitions. -/
  definitions : List NodeId := []
  /-- What has happened so far. -/
  log : Array Event := #[]
  deriving DecidableEq, Repr

namespace Draft

/-- The handle of the node with a name. -/
def findNode? (d : Draft) (name : String) : Option NodeId :=
  (d.nodes.findIdx? (·.name = name)).map NodeId.mk

/-- The handle of the token with a name. -/
def findToken? (d : Draft) (name : String) : Option TokenId :=
  (d.tokens.findIdx? (· = name)).map TokenId.mk

/-- Whether the node with a name has its rule. -/
def isDefined (d : Draft) (name : String) : Bool :=
  d.nodes.any fun node => node.name = name && node.rule?.isSome

/-- The handle of the node with a name, which is entered if it is new. -/
def internNode (d : Draft) (name : String) (span : Span) : NodeId × Draft :=
  match d.findNode? name with
  | some id => (id, d)
  | none =>
    -- The next free place of the table becomes the handle.
    let id : NodeId := ⟨d.nodes.length⟩
    (id, { d with
      nodes := d.nodes ++ [⟨name, span, none⟩]
      log := d.log.push (.internedNode name id) })

/-- The handle of the token with a name, which is entered if it is new. -/
def internToken (d : Draft) (name : String) : TokenId × Draft :=
  match d.findToken? name with
  | some id => (id, d)
  | none =>
    let id : TokenId := ⟨d.tokens.length⟩
    (id, { d with
      tokens := d.tokens ++ [name]
      log := d.log.push (.internedToken name id) })

/-- Gives a node its rule. -/
def define (d : Draft) (id : NodeId) (name : String) (rule : HandleRule) : Draft :=
  { d with
    nodes := d.nodes.modify id.index fun node => { node with rule? := some rule }
    definitions := d.definitions ++ [id]
    log := d.log.push (.definedNode name) }

/-- The node of a grammar that a pending node has become, or the complaint that it has not. -/
def finishNode (node : PendingNode) : Except SyntaxError Node :=
  match node.rule? with
  | some rule => .ok ⟨node.name, rule⟩
  | none => .error (.undefinedNode node.name node.span)

/-- The grammar of a draft in which every node has its rule. Otherwise the first one without
    a rule is to blame. -/
def complete (d : Draft) : Except SyntaxError Grammar := do
  let nodes ← d.nodes.mapM finishNode
  return ⟨nodes, d.tokens, d.definitions⟩

end Draft

end TreeGrammar
