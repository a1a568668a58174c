import TreeGrammar.Grammar.Draft

/-! # Readers

    A reader consumes tokens and fills a draft. Larger readers are made from
    smaller ones, and what they do follows from what their parts do.

    Key idea:
    - a reader is a function of its `ReadState`; when it fails it still returns
      the state in which it failed, so that its log is not lost;
    - one after the other, readers succeed exactly if both do
      (`ReadM.bind_eq_ok_iff`);
    - repetition is bounded by the tokens that are left (`ReadM.many`).
-/

namespace TreeGrammar

/-- What a reader works on. -/
structure ReadState where
  /-- The tokens that are still to be read. -/
  rest : List Token
  /-- What was read so far. -/
  draft : Draft
  deriving DecidableEq, Repr

/-- A reader: it consumes tokens and fills the draft until it succeeds or fails. -/
abbrev ReadM := EStateM SyntaxError ReadState

namespace ReadM

/-! ### Running readers

    What a reader does is a function of the state that it starts from. A
    composed reader succeeds if both parts do, and fails where the first of
    them fails. -/

section Running

variable {α β : Type}

@[simp] theorem pure_apply (a : α) (s : ReadState) : (pure a : ReadM α) s = .ok a s := rfl

@[simp] theorem throw_apply (e : SyntaxError) (s : ReadState) :
    (throw e : ReadM α) s = .error e s := rfl

theorem bind_eq_ok_iff {x : ReadM α} {f : α → ReadM β} {s s' : ReadState} {b : β} :
    (x >>= f) s = .ok b s' ↔ ∃ a t, x s = .ok a t ∧ f a t = .ok b s' := by
  show EStateM.bind x f s = _ ↔ _
  unfold EStateM.bind
  cases x s with
  | ok a t => simp only [EStateM.Result.ok.injEq]; grind
  | error e t => simp

theorem map_eq_ok_iff {x : ReadM α} {f : α → β} {s s' : ReadState} {b : β} :
    (f <$> x) s = .ok b s' ↔ ∃ a, x s = .ok a s' ∧ f a = b := by
  show EStateM.map f x s = _ ↔ _
  unfold EStateM.map
  cases x s with
  | ok a t => simp only [EStateM.Result.ok.injEq]; grind
  | error e t => simp

theorem map_eq_error_iff {x : ReadM α} {f : α → β} {s s' : ReadState} {e : SyntaxError} :
    (f <$> x) s = .error e s' ↔ x s = .error e s' := by
  show EStateM.map f x s = _ ↔ _
  unfold EStateM.map
  cases x s with
  | ok a t => simp
  | error e t => simp

end Running

/-! ### Single steps -/

/-- Reads one token of a given kind. -/
def expect (kind : TokenKind) : ReadM Token := fun s =>
  match s.rest with
  | [] => .error (.unexpectedEnd (.token kind)) s
  | token :: rest =>
    if token.kind = kind then .ok token { s with rest }
    else .error (.unexpectedToken (.token kind) token.kind token.span) s

/-- Enters a node into the draft. -/
def internNode (name : String) (span : Span) : ReadM NodeId := fun s =>
  let (id, draft) := s.draft.internNode name span
  .ok id { s with draft }

/-- Enters a token into the draft. -/
def internToken (name : String) : ReadM TokenId := fun s =>
  let (id, draft) := s.draft.internToken name
  .ok id { s with draft }

/-- A token is read exactly if it comes first and is of the right kind. -/
theorem expect_eq_ok_iff {kind : TokenKind} {s s' : ReadState} {token : Token} :
    expect kind s = .ok token s' ↔
      s.rest = token :: s'.rest ∧ token.kind = kind ∧ s'.draft = s.draft := by
  obtain ⟨rest, draft⟩ := s
  obtain ⟨rest', draft'⟩ := s'
  cases rest with
  | nil => simp [expect]
  | cons t rest => simp only [expect]; split <;> simp <;> grind

/-! ### Repetition -/

/-- Reads items as long as there are any, at most one for each token of `bound`. Those read
    before are given in reverse. -/
def manyWithin {α : Type} (item? : ReadM (Option α)) : List Token → List α → ReadM (List α)
  | [], items => return items.reverse
  | _ :: bound, items => do
    match ← item? with
    | none => return items.reverse
    | some item => manyWithin item? bound (item :: items)

/-- Reads items as long as there are any. Each takes at least one token. -/
def many {α : Type} (item? : ReadM (Option α)) : ReadM (List α) := fun s =>
  manyWithin item? s.rest [] s

end ReadM

end TreeGrammar
