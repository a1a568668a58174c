import TreeGrammar.Grammar.Basic
import TreeGrammar.Text.Quoted

/-! # Events

    What happens while a grammar is read, for those who want to follow it.
-/

namespace TreeGrammar

/-- A step of reading a grammar. -/
inductive Event where
  /-- A text was cut into tokens. -/
  | scanned (tokens : Nat)
  /-- A node was seen for the first time. -/
  | internedNode (name : String) (id : NodeId)
  /-- A token was seen for the first time. -/
  | internedToken (name : String) (id : TokenId)
  /-- The rule of a node was read. -/
  | definedNode (name : String)
  /-- All was read, and the tables have so many entries. -/
  | completed (nodes tokens : Nat)
  deriving DecidableEq, Repr

/-- How detailed a log has to be to show an event. -/
inductive LogLevel where
  | debug
  | trace
  deriving DecidableEq, Repr

/-- The word that marks a level in a log. -/
def LogLevel.tag : LogLevel → String
  | .debug => "DEBUG"
  | .trace => "TRACE"

namespace Event

/-- The level at which an event is logged. -/
def level : Event → LogLevel
  | .completed _ _ => .debug
  | _ => .trace

/-- What a log says about an event. -/
def message : Event → String
  | .scanned tokens => s!"lexed {tokens} tokens"
  | .internedNode name id => s!"interned node {name} as {id.index}"
  | .internedToken name id => s!"interned token {quotedText name} as {id.index}"
  | .definedNode name => s!"defined node {name}"
  | .completed nodes tokens => s!"parsed grammar with {nodes} nodes and {tokens} tokens"

/-- The line of a log for an event. -/
def line (e : Event) : String :=
  e.level.tag ++ " " ++ e.message

end Event

end TreeGrammar
