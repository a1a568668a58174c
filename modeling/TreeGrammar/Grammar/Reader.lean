import TreeGrammar.Grammar.ReadM

/-! # Reading grammars

    Tokens are read as a grammar by recursive descent over

        grammar    := (name '=' rule)*
        rule       := sequence ('|' sequence)*
        sequence   := atom+
        atom       := name ':' atom | primary ('?' | '*')?
        primary    := name | literal | '(' rule ')'

    Key idea:
    - a name in front of `=` starts the next definition, so it is never an
      atom (`AtomHead.read?`);
    - the reader of an optional atom consumes nothing when it finds none, and
      at least one token otherwise, so that repetition never runs into its
      bound, the tokens that are left;
    - `atom?` recurses on the room that is left for nesting, so the limit on
      open parentheses and labels is what makes it total.
-/

namespace TreeGrammar

/-- How many parentheses and labels may be open at once. -/
def maxNesting : Nat := 128

/-- What is known while the rule of a node is read. -/
structure Scope where
  /-- The name of the node. -/
  node : String
  /-- The offset behind the last one of all tokens. -/
  stop : Nat
  deriving DecidableEq, Repr

/-- The kind of the first token. -/
def headKind? (tokens : List Token) : Option TokenKind :=
  tokens.head?.map Token.kind

/-- Whether the tokens start with a name and `=`. -/
def startsDefinition (tokens : List Token) : Bool :=
  headKind? tokens = some .name && headKind? tokens.tail = some .equals

/-! ### Atoms -/

/-- How an atom starts. -/
inductive AtomHead where
  /-- A name and `:`, in front of the labeled atom. -/
  | label (name : String) (span : Span)
  /-- A reference to a node. -/
  | node (name : String) (span : Span)
  /-- A reference to a token. -/
  | token (name : String)
  /-- An opening parenthesis. -/
  | group (span : Span)
  deriving DecidableEq, Repr

/-- The start of an atom and the tokens behind it, if the tokens start with an atom. -/
def AtomHead.read? : List Token → Option (AtomHead × List Token)
  | [] => none
  | t :: rest =>
    match t.kind with
    | .name =>
      -- One more token tells a reference from a label and from the next definition.
      match headKind? rest with
      | some .equals => none
      | some .colon => some (.label t.text t.span, rest.tail)
      | _ => some (.node t.text t.span, rest)
    | .literal => some (.token t.text, rest)
    | .openParen => some (.group t.span, rest)
    | _ => none

/-- Applies the `?` or `*` at the start of the tokens, if there is one, to a rule. -/
def quantify (rule : HandleRule) (tokens : List Token) : HandleRule × List Token :=
  match headKind? tokens with
  | some .question => (.opt rule, tokens.tail)
  | some .star => (.rep rule, tokens.tail)
  | _ => (rule, tokens)

/-- What is wrong where an atom is needed and none starts. A name and `=` end the rule too
    early, and if that name has its definition already, this is the graver fault. -/
def missingAtom (scope : Scope) (s : ReadState) : SyntaxError :=
  match s.rest with
  | [] => .emptyRule scope.node (.point scope.stop)
  | token :: _ =>
    if startsDefinition s.rest then
      -- The node being read has no rule yet, but a second definition of it is one too many.
      if token.text = scope.node || s.draft.isDefined token.text then
        .duplicateNode token.text token.span
      else .emptyRule scope.node (.point token.span.start)
    else .unexpectedToken .rule token.kind token.span

namespace ReadM

/-- Reads the `?` or `*` behind a rule, if there is one. -/
def quantified (rule : HandleRule) : ReadM HandleRule := fun s =>
  let (rule, rest) := quantify rule s.rest
  .ok rule { s with rest }

/-- Reads an atom where there has to be one. -/
def required (scope : Scope) (atom? : ReadM (Option HandleRule)) : ReadM HandleRule := do
  match ← atom? with
  | some rule => return rule
  | none => fun s => .error (missingAtom scope s) s

/-- Reads a sequence of atoms, at least one. -/
def sequence (scope : Scope) (atom? : ReadM (Option HandleRule)) : ReadM HandleRule := do
  let first ← required scope atom?
  let others ← many atom?
  return Rule.ofSeq (first :: others)

/-- Reads `|` and a sequence behind it, if there is a `|`. -/
def alternative? (scope : Scope) (atom? : ReadM (Option HandleRule)) :
    ReadM (Option HandleRule) := fun s =>
  if headKind? s.rest = some .bar then
    (some <$> sequence scope atom?) { s with rest := s.rest.tail }
  else .ok none s

/-- Reads sequences with `|` between them, at least one. -/
def rule (scope : Scope) (atom? : ReadM (Option HandleRule)) : ReadM HandleRule := do
  let first ← sequence scope atom?
  let others ← many (alternative? scope atom?)
  return Rule.ofAlt (first :: others)

/-- The reader of atoms behind one more open parenthesis or label, if there is room for it. -/
def enter (inner? : Option (ReadM (Option HandleRule))) (span : Span) :
    ReadM (ReadM (Option HandleRule)) :=
  match inner? with
  | some inner => return inner
  | none => throw (.nestingTooDeep span)

/-- Reads the rest of an atom behind its start. The atoms inside it are read by `inner?`, if it
    may hold any. -/
def atomBehind (scope : Scope) (inner? : Option (ReadM (Option HandleRule))) :
    AtomHead → ReadM HandleRule
  | .node name span => do quantified (.node (← internNode name span))
  | .token name => do quantified (.token (← internToken name))
  -- A label takes no `?` or `*` of its own: the one behind it belongs to the labeled atom.
  | .label name span => do return .labeled name (← required scope (← enter inner? span))
  | .group span => do
    let body ← rule scope (← enter inner? span)
    let _ ← expect .closeParen
    quantified body

/-- Reads an atom, if one starts here, and the atoms inside it by `inner?`. -/
def atomAround (scope : Scope) (inner? : Option (ReadM (Option HandleRule))) :
    ReadM (Option HandleRule) := fun s =>
  match AtomHead.read? s.rest with
  | none => .ok none s
  | some (head, rest) => (some <$> atomBehind scope inner? head) { s with rest }

/-- Reads an atom, if one starts here, with room for so many more open parentheses and
    labels. -/
def atom? (scope : Scope) : Nat → ReadM (Option HandleRule)
  | 0 => atomAround scope none
  | room + 1 => atomAround scope (some (atom? scope room))

/-! ### Definitions -/

/-- Refuses a name that has its definition already. -/
def checkNew (name : String) (span : Span) : ReadM Unit := fun s =>
  if s.draft.isDefined name then .error (.duplicateNode name span) s else .ok () s

/-- Gives a node its rule. -/
def define (id : NodeId) (name : String) (rule : HandleRule) : ReadM Unit := fun s =>
  .ok () { s with draft := s.draft.define id name rule }

/-- Reads one definition. -/
def definition (stop : Nat) : ReadM Unit := do
  let head ← expect .name
  -- The node is entered even if no `=` follows, or if it turns out to be defined already.
  let id ← internNode head.text head.span
  let _ ← expect .equals
  checkNew head.text head.span
  let scope : Scope := ⟨head.text, stop⟩
  let body ← rule scope (atom? scope maxNesting)
  define id head.text body

/-- Reads definitions up to the last token, at most one for each token of `bound`. -/
def definitionsWithin (stop : Nat) : List Token → ReadM Unit
  | [] => return
  | _ :: bound => fun s =>
    if s.rest.isEmpty then .ok () s
    else (do definition stop; definitionsWithin stop bound : ReadM Unit) s

/-- Reads definitions up to the last token. Each takes at least one token. -/
def definitions (stop : Nat) : ReadM Unit := fun s =>
  definitionsWithin stop s.rest s

/-- Makes a grammar of what was read. -/
def finish : ReadM Grammar := fun s =>
  match s.draft.complete with
  | .error e => .error e s
  | .ok g =>
    .ok g { s with draft.log := s.draft.log.push (.completed g.nodes.length g.tokens.length) }

/-- Reads a whole grammar. -/
def grammar (stop : Nat) : ReadM Grammar := do
  definitions stop
  finish

end ReadM

namespace Grammar

/-- The offset behind the last token, zero if there is none. -/
def stopOf (tokens : List Token) : Nat :=
  (tokens.getLast?.map (·.span.stop)).getD 0

/-- Reads tokens as a grammar and tells what happened on the way, up to the failure if there
    is one. -/
def readTokens (tokens : List Token) : Except SyntaxError Grammar × List Event :=
  match (ReadM.grammar (stopOf tokens)).run ⟨tokens, {}⟩ with
  | .ok g s => (.ok g, s.draft.log.toList)
  | .error e s => (.error e, s.draft.log.toList)

/-- The grammar that a list of tokens describes. -/
def ofTokens (tokens : List Token) : Except SyntaxError Grammar :=
  (readTokens tokens).1

end Grammar

end TreeGrammar
