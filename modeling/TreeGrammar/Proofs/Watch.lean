import Mathlib.Data.List.Basic
import TreeGrammar.Grammar.Reader

/-! # Reading under watch

    The reader of grammars again, with all that it works with in one state: a
    cursor into the tokens, a counter of what is open, the tables with a hash
    map for each, and the calls that are active. What may go wrong inside the
    reader is an outcome here, not ruled out by the types.

    Key idea:
    - a `Moment` is noted at every call and at every return of the seven
      readers (`calling`), with the whole state at that time;
    - rules that are collected for a sequence or a choice are held in the
      state while the next one is read (`holding`);
    - a place that a table does not have, a counter below zero, a length that
      is wrong and a loop that does not end are faults (`Fault`).

    That this is the same reader, and that no fault ever happens, is proved in
    `Watched` and `Faultless`.
-/

namespace TreeGrammar

namespace Watch

/-! ### States -/

/-- The readers whose calls and returns are noted. -/
inductive Site where
  | definition
  | rule
  | sequence
  /-- An atom where there has to be one. -/
  | required
  /-- An atom, if there is one. -/
  | atom
  | internNode
  | internToken
  deriving DecidableEq, Repr

/-- A call that has not returned. -/
structure Call where
  /-- What was called. -/
  site : Site
  /-- Where the cursor was. -/
  start : Nat
  deriving DecidableEq, Repr

/-- All that the reader works with, apart from the tokens. -/
structure State where
  /-- The place of the next token. -/
  pos : Nat := 0
  /-- The number of open parentheses and labels. -/
  depth : Nat := 0
  /-- The tables. -/
  draft : Draft := {}
  /-- The handles of the nodes by name. -/
  nodeNames : Std.HashMap String NodeId := {}
  /-- The handles of the tokens by name. -/
  tokenNames : Std.HashMap String TokenId := {}
  /-- The active calls, the last one first. -/
  callers : List Call := []
  /-- The rules that active calls have collected. -/
  held : List HandleRule := []

/-- The start and the end of a call. -/
inductive Phase where
  | call
  /-- The return, with the rules that are handed back. -/
  | back (rules : List HandleRule)
  deriving DecidableEq, Repr

/-- A call or a return, with the state of the caller. -/
structure Moment where
  /-- What is called, or returns. -/
  site : Site
  /-- Whether it is called or returns. -/
  phase : Phase
  /-- The state at this time. The active calls are those around this one. -/
  state : State

/-- A state and the moments before it. -/
structure World where
  /-- The state. -/
  state : State := {}
  /-- The moments up to now, the last one first. -/
  moments : List Moment := []

/-- What must not happen inside the reader. -/
inductive Fault where
  /-- A table does not have the place that is looked at. -/
  | place
  /-- Nothing is open that could be closed. -/
  | underflow
  /-- The definitions are not as many as the nodes. -/
  | lengths
  /-- A loop or a recursion does not end in time. -/
  | bound
  deriving DecidableEq, Repr

/-- Why a reader stops. -/
inductive Stop where
  /-- The tokens are no grammar. -/
  | refused (error : SyntaxError)
  /-- The reader itself has failed. -/
  | fault (fault : Fault)
  deriving DecidableEq, Repr

/-- A reader under watch. -/
abbrev WatchM := EStateM Stop World

/-! ### Calls -/

section Calls

variable {α : Type}

/-- Notes a call or a return. -/
def World.note (w : World) (site : Site) (phase : Phase) : World :=
  { w with moments := ⟨site, phase, w.state⟩ :: w.moments }

/-- Starts a call. -/
def World.push (w : World) (site : Site) : World :=
  { w with state.callers := ⟨site, w.state.pos⟩ :: w.state.callers }

/-- Ends the last call. -/
def World.pop (w : World) : World :=
  { w with state.callers := w.state.callers.tail }

/-- Puts the cursor further on. -/
def World.move (w : World) (count : Nat) : World :=
  { w with state.pos := w.state.pos + count }

/-- Keeps more rules for later. -/
def World.hold (w : World) (rules : List HandleRule) : World :=
  { w with state.held := rules ++ w.state.held }

/-- Sets the number of open parentheses and labels. -/
def World.setDepth (w : World) (depth : Nat) : World :=
  { w with state.depth := depth }

/-- A call of a reader. It is noted, and so is its return with the rules that it has built. -/
def calling (site : Site) (built : α → List HandleRule) (body : WatchM α) : WatchM α := fun w =>
  match body ((w.note site .call).push site) with
  | .ok a w' => .ok a (w'.pop.note site (.back (built a)))
  | .error stop w' => .error stop w'

/-- Reads on while some rules are kept for later. -/
def holding (rules : List HandleRule) (act : WatchM α) : WatchM α := fun w =>
  match act (w.hold rules) with
  | .ok a w' => .ok a { w' with state.held := w.state.held }
  | .error stop w' => .error stop w'

/-- Refuses the tokens. -/
def refuse (e : SyntaxError) : WatchM α := throw (.refused e)

/-- Fails, which must not happen. -/
def fail (fault : Fault) : WatchM α := throw (.fault fault)

end Calls

/-! ### Tables and counters -/

/-- The node with a handle. -/
def nodeAt (id : NodeId) : WatchM PendingNode := fun w =>
  match w.state.draft.nodes[id.index]? with
  | some node => .ok node w
  | none => .error (.fault .place) w

/-- Enters a node into the table and into the map, unless the map has it. -/
def enterNode (name : String) (span : Span) : WatchM NodeId := fun w =>
  match w.state.nodeNames[name]? with
  | some id => .ok id w
  | none =>
    let id : NodeId := ⟨w.state.draft.nodes.length⟩
    .ok id { w with
      state.draft.nodes := w.state.draft.nodes ++ [⟨name, span, none⟩]
      state.draft.log := w.state.draft.log.push (.internedNode name id)
      state.nodeNames := w.state.nodeNames.insert name id }

/-- Enters a token into the table and into the map, unless the map has it. -/
def enterToken (name : String) : WatchM TokenId := fun w =>
  match w.state.tokenNames[name]? with
  | some id => .ok id w
  | none =>
    let id : TokenId := ⟨w.state.draft.tokens.length⟩
    .ok id { w with
      state.draft.tokens := w.state.draft.tokens ++ [name]
      state.draft.log := w.state.draft.log.push (.internedToken name id)
      state.tokenNames := w.state.tokenNames.insert name id }

/-- The handle of the node with a name. -/
def internNode (name : String) (span : Span) : WatchM NodeId :=
  calling .internNode (fun id => [.node id]) (enterNode name span)

/-- The handle of the token with a name. -/
def internToken (name : String) : WatchM TokenId :=
  calling .internToken (fun id => [.token id]) (enterToken name)

/-- Gives a node its rule. -/
def define (id : NodeId) (name : String) (rule : HandleRule) : WatchM Unit := do
  let _ ← nodeAt id
  modify fun w => { w with state.draft := w.state.draft.define id name rule }

/-- Opens a parenthesis or a label. -/
def enter (span : Span) : WatchM Unit := fun w =>
  if maxNesting ≤ w.state.depth then .error (.refused (.nestingTooDeep span)) w
  else .ok () (w.setDepth (w.state.depth + 1))

/-- Closes a parenthesis or a label. -/
def leave : WatchM Unit := fun w =>
  match w.state.depth with
  | 0 => .error (.fault .underflow) w
  | depth + 1 => .ok () (w.setDepth depth)

/-- Refuses a definition without a rule. -/
def refuseEmpty {α : Type} (id : NodeId) (span : Span) : WatchM α := do
  let node ← nodeAt id
  refuse (.emptyRule node.name span)

/-! ### Tokens -/

/-- Passes some tokens. -/
def skip (count : Nat) : WatchM Unit := fun w =>
  .ok () (w.move count)

/-- Reads items as long as there are any. Those read before are given in reverse, and are held. -/
def collect (item? : WatchM (Option HandleRule)) : Nat → List HandleRule → WatchM (List HandleRule)
  | 0, _ => fail .bound
  | bound + 1, items => do
    match ← holding items item? with
    | none => return items.reverse
    | some item => collect item? bound (item :: items)

section Reading

variable (tokens : List Token)

/-- The kind of the token at a place. -/
def kindAt? (pos : Nat) : Option TokenKind :=
  tokens[pos]?.map Token.kind

/-- Reads one token of a given kind. The cursor moves on even if the kind is wrong. -/
def expect (kind : TokenKind) : WatchM Token := fun w =>
  match tokens[w.state.pos]? with
  | none => .error (.refused (.unexpectedEnd (.token kind))) w
  | some t =>
    if t.kind = kind then .ok t (w.move 1)
    else .error (.refused (.unexpectedToken (.token kind) t.kind t.span)) (w.move 1)

/-- Reads the `?` or `*` behind a rule, if there is one. -/
def quantified (rule : HandleRule) : WatchM HandleRule := fun w =>
  match kindAt? tokens w.state.pos with
  | some .question => .ok (.opt rule) (w.move 1)
  | some .star => .ok (.rep rule) (w.move 1)
  | _ => .ok rule w

/-- Says why an atom is missing. -/
def refuseMissing {α : Type} (node : NodeId) : WatchM α := fun w =>
  match tokens[w.state.pos]? with
  | none => refuseEmpty node (.point (Grammar.stopOf tokens)) w
  | some t =>
    if t.kind = .name ∧ kindAt? tokens (w.state.pos + 1) = some .equals then
      match w.state.nodeNames[t.text]? with
      | none => refuseEmpty node (.point t.span.start) w
      | some next =>
        if next = node then refuse (.duplicateNode t.text t.span) w
        else
          (do
            if (← nodeAt next).rule?.isSome then refuse (.duplicateNode t.text t.span)
            else refuseEmpty node (.point t.span.start) : WatchM α) w
    else refuse (.unexpectedToken .rule t.kind t.span) w

/-- Reads an atom where there has to be one. -/
def required (node : NodeId) (atom? : WatchM (Option HandleRule)) : WatchM HandleRule :=
  calling .required (fun rule => [rule]) do
    match ← atom? with
    | some rule => return rule
    | none => refuseMissing tokens node

/-- Reads a sequence of atoms, at least one. -/
def sequence (node : NodeId) (atom? : WatchM (Option HandleRule)) : WatchM HandleRule :=
  calling .sequence (fun rule => [rule]) do
    let first ← required tokens node atom?
    let parts ← collect atom? (tokens.length + 1) [first]
    return Rule.ofSeq parts

/-- Reads `|` and a sequence behind it, if there is a `|`. -/
def alternative? (node : NodeId) (atom? : WatchM (Option HandleRule)) :
    WatchM (Option HandleRule) := fun w =>
  if kindAt? tokens w.state.pos = some .bar then
    (do
      skip 1
      some <$> sequence tokens node atom? : WatchM (Option HandleRule)) w
  else .ok none w

/-- Reads sequences with `|` between them, at least one. -/
def rule (node : NodeId) (atom? : WatchM (Option HandleRule)) : WatchM HandleRule :=
  calling .rule (fun rule => [rule]) do
    let first ← sequence tokens node atom?
    let choices ← collect (alternative? tokens node atom?) (tokens.length + 1) [first]
    return Rule.ofAlt choices

/-- Reads an atom that starts with a token, if one does. The atoms inside it are read by
    `inner`. -/
def atomFrom (node : NodeId) (inner : WatchM (Option HandleRule)) (t : Token) :
    WatchM (Option HandleRule) := fun w =>
  match t.kind with
  | .name =>
    match kindAt? tokens (w.state.pos + 1) with
    | some .equals => .ok none w
    | some .colon =>
      (do
        skip 2
        enter t.span
        let body ← required tokens node inner
        leave
        return some (.labeled t.text body) : WatchM (Option HandleRule)) w
    | _ =>
      (do
        skip 1
        let id ← internNode t.text t.span
        some <$> quantified tokens (.node id) : WatchM (Option HandleRule)) w
  | .literal =>
    (do
      skip 1
      let id ← internToken t.text
      some <$> quantified tokens (.token id) : WatchM (Option HandleRule)) w
  | .openParen =>
    (do
      skip 1
      enter t.span
      let body ← rule tokens node inner
      leave
      let _ ← expect tokens .closeParen
      some <$> quantified tokens body : WatchM (Option HandleRule)) w
  | _ => .ok none w

/-- Reads an atom, if one starts here. -/
def atomAt (node : NodeId) (inner : WatchM (Option HandleRule)) : WatchM (Option HandleRule) :=
  fun w =>
    match tokens[w.state.pos]? with
    | none => .ok none w
    | some t => atomFrom tokens node inner t w

/-- Reads an atom, if one starts here, and the atoms inside it by `inner`. -/
def atomAround (node : NodeId) (inner : WatchM (Option HandleRule)) : WatchM (Option HandleRule) :=
  calling .atom Option.toList (atomAt tokens node inner)

/-- Reads an atom, if one starts here. The bound on the recursion is as good as the limit on what
    is open. -/
def atom? (node : NodeId) : Nat → WatchM (Option HandleRule)
  | 0 => atomAround tokens node (fail .bound)
  | bound + 1 => atomAround tokens node (atom? node bound)

/-- Reads one definition. -/
def definition : WatchM Unit :=
  calling .definition (fun _ => []) do
    let head ← expect tokens .name
    let id ← internNode head.text head.span
    let _ ← expect tokens .equals
    let node ← nodeAt id
    if node.rule?.isSome then refuse (.duplicateNode node.name head.span)
    let body ← rule tokens id (atom? tokens id maxNesting)
    define id head.text body

/-- Reads definitions up to the last token. -/
def definitions : Nat → WatchM Unit
  | 0 => fail .bound
  | bound + 1 => fun w =>
    if w.state.pos < tokens.length then
      (do
        definition tokens
        definitions bound : WatchM Unit) w
    else .ok () w

/-- Makes a grammar of what was read. -/
def finish : WatchM Grammar := fun w =>
  match w.state.draft.complete with
  | .error e => .error (.refused e) w
  | .ok g =>
    if g.nodes.length = g.definitions.length then
      .ok g { w with
        state.draft.log := w.state.draft.log.push (.completed g.nodes.length g.tokens.length) }
    else .error (.fault .lengths) w

/-- Reads a whole grammar. -/
def grammar : WatchM Grammar := do
  definitions tokens (tokens.length + 1)
  finish

end Reading

end Watch

end TreeGrammar
