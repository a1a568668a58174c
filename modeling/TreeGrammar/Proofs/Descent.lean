import TreeGrammar.Grammar.Reader

/-! # Descent, one token at a time

    What the readers of atoms and of repetitions do, as equations on the
    tokens in front of them. Later proofs use these equations and open none
    of the definitions.

    Key idea:
    - the start of an atom is settled by one or two tokens, and for each case
      there is one equation for `atom?`;
    - a repetition whose items take a token each is not limited by its bound,
      so it obeys the equation of an unbounded one (`many_apply`).
-/

namespace TreeGrammar

/-! ### One after the other -/

section Bind

variable {ε σ α β : Type} {x : EStateM ε σ α} {s s' : σ}

theorem bind_of_ok {a : α} (h : x s = .ok a s') (f : α → EStateM ε σ β) :
    (x >>= f) s = f a s' := by
  show EStateM.bind x f s = _
  rw [EStateM.bind, h]

theorem bind_of_error {e : ε} (h : x s = .error e s') (f : α → EStateM ε σ β) :
    (x >>= f) s = .error e s' := by
  show EStateM.bind x f s = _
  rw [EStateM.bind, h]

end Bind

namespace ReadM

/-! ### Repetition -/

section Repetition

variable {α : Type} {item? : ReadM (Option α)}

/-- The reader takes at least one token with every item, and does nothing when there is none. -/
structure Advances (item? : ReadM (Option α)) : Prop where
  /-- An item takes a token. -/
  shorter : ∀ {s s' a}, item? s = .ok (some a) s' → s'.rest.length < s.rest.length
  /-- Where there is no item, nothing happens. -/
  unchanged : ∀ {s s'}, item? s = .ok none s' → s' = s
  /-- There is no item at the end. -/
  atEnd : ∀ d, item? ⟨[], d⟩ = .ok none ⟨[], d⟩

/-- A bound that is as long as the tokens that are left is no limit. -/
theorem manyWithin_eq (h : Advances item?) {bound : List Token} {s : ReadState}
    (hbound : s.rest.length ≤ bound.length) (items : List α) :
    manyWithin item? bound items s =
      ((fun more => items.reverse ++ more) <$> many item?) s := by
  suffices hgeneral : ∀ (bound bound' : List Token) (items items' : List α) (s : ReadState),
      s.rest.length ≤ bound.length → s.rest.length ≤ bound'.length →
        manyWithin item? bound (items' ++ items) s =
          ((fun more => items.reverse ++ more) <$> manyWithin item? bound' items') s by
    have := hgeneral bound s.rest items [] s hbound (Nat.le_refl _)
    rw [List.nil_append] at this
    exact this
  clear hbound s items bound
  intro bound
  induction bound with
  | nil =>
    intro bound' items items' s hbound _
    obtain ⟨rest, draft⟩ := s
    obtain rfl : rest = [] := List.length_eq_zero_iff.1 (Nat.le_zero.1 hbound)
    cases bound' with
    | nil => simp [manyWithin, Functor.map, EStateM.map]
    | cons t bound' => simp [manyWithin, Functor.map, EStateM.map, bind, EStateM.bind, h.atEnd]
  | cons t bound ih =>
    intro bound' items items' s hbound hbound'
    cases bound' with
    | nil =>
      obtain ⟨rest, draft⟩ := s
      obtain rfl : rest = [] := List.length_eq_zero_iff.1 (Nat.le_zero.1 hbound')
      simp [manyWithin, Functor.map, EStateM.map, bind, EStateM.bind, h.atEnd]
    | cons t' bound' =>
      simp only [manyWithin, Functor.map, EStateM.map, bind, EStateM.bind]
      cases hitem : item? s with
      | error e s' => rfl
      | ok item s' =>
        cases item with
        | none => simp
        | some a =>
          have hlt := h.shorter hitem
          simp only [List.length_cons] at hbound hbound'
          exact ih bound' items (a :: items') s' (by omega) (by omega)

/-- What a repetition does: it reads an item, if there is one, and goes on. -/
theorem many_apply (h : Advances item?) (s : ReadState) :
    many item? s =
      match item? s with
      | .ok none s' => .ok [] s'
      | .ok (some a) s' => ((fun more => a :: more) <$> many item?) s'
      | .error e s' => .error e s' := by
  obtain ⟨rest, draft⟩ := s
  cases rest with
  | nil =>
    rw [h.atEnd]
    rfl
  | cons t rest =>
    rw [many]
    simp only [manyWithin, bind, EStateM.bind]
    cases hitem : item? ⟨t :: rest, draft⟩ with
    | error e s' => rfl
    | ok item s' =>
      cases item with
      | none => rfl
      | some a =>
        have hlt := h.shorter hitem
        simp only [List.length_cons] at hlt
        exact manyWithin_eq h (Nat.le_of_lt_succ hlt) [a]

end Repetition

/-! ### How an atom starts -/

section Quantify

variable (rule : HandleRule) {t : Token} {tokens : List Token}

theorem quantify_question (ht : t.kind = .question) (tokens : List Token) :
    quantify rule (t :: tokens) = (.opt rule, tokens) := by
  simp [quantify, headKind?, ht]

theorem quantify_star (ht : t.kind = .star) (tokens : List Token) :
    quantify rule (t :: tokens) = (.rep rule, tokens) := by
  simp [quantify, headKind?, ht]

/-- Only `?` and `*` change a primary. -/
theorem quantify_other (hquestion : headKind? tokens ≠ some .question)
    (hstar : headKind? tokens ≠ some .star) : quantify rule tokens = (rule, tokens) := by
  unfold quantify
  split
  · contradiction
  · contradiction
  · rfl

end Quantify

theorem quantified_apply (rule : HandleRule) (rest : List Token) (d : Draft) :
    quantified rule ⟨rest, d⟩ = .ok (quantify rule rest).1 ⟨(quantify rule rest).2, d⟩ := rfl

section Atom

variable (scope : Scope) (room : Nat) (d : Draft) {t u : Token} {rest : List Token}

/-- An atom reads its start and then what is behind it. -/
theorem atom?_apply (s : ReadState) :
    atom? scope room s = atomAround scope (match room with
      | 0 => none
      | room + 1 => some (atom? scope room)) s := by
  cases room <;> rfl

theorem atom?_nil : atom? scope room ⟨[], d⟩ = .ok none ⟨[], d⟩ := by
  rw [atom?_apply]
  rfl

/-- A name and `=` start no atom. -/
theorem atom?_definition (ht : t.kind = .name) (hu : u.kind = .equals) :
    atom? scope room ⟨t :: u :: rest, d⟩ = .ok none ⟨t :: u :: rest, d⟩ := by
  have hread : AtomHead.read? (t :: u :: rest) = none := by
    simp [AtomHead.read?, ht, hu, headKind?]
  rw [atom?_apply, atomAround, hread]

/-- Only names, literals and opening parentheses start an atom. -/
theorem atom?_other (hname : t.kind ≠ .name) (hliteral : t.kind ≠ .literal)
    (hparen : t.kind ≠ .openParen) :
    atom? scope room ⟨t :: rest, d⟩ = .ok none ⟨t :: rest, d⟩ := by
  have hread : AtomHead.read? (t :: rest) = none := by
    unfold AtomHead.read?
    split <;> simp_all
  rw [atom?_apply, atomAround, hread]

/-- A name and `:` are a label. -/
theorem atom?_label (ht : t.kind = .name) (hu : u.kind = .colon) :
    atom? scope (room + 1) ⟨t :: u :: rest, d⟩ =
      (required scope (atom? scope room) >>= fun body =>
        pure (some (Rule.labeled t.text body)) : ReadM _) ⟨rest, d⟩ := by
  have hread : AtomHead.read? (t :: u :: rest) = some (.label t.text t.span, rest) := by
    simp [AtomHead.read?, ht, hu, headKind?]
  rw [atom?_apply, atomAround, hread]
  show (some <$> (required scope (atom? scope room) >>= fun body =>
    pure (Rule.labeled t.text body)) : ReadM _) ⟨rest, d⟩ = _
  simp only [map_bind, map_pure]

/-- A label without room for it is refused. -/
theorem atom?_label_zero (ht : t.kind = .name) (hu : u.kind = .colon) :
    atom? scope 0 ⟨t :: u :: rest, d⟩ = .error (.nestingTooDeep t.span) ⟨rest, d⟩ := by
  have hread : AtomHead.read? (t :: u :: rest) = some (.label t.text t.span, rest) := by
    simp [AtomHead.read?, ht, hu, headKind?]
  rw [atom?_apply, atomAround, hread]
  rfl

/-- Any other name is a reference. -/
theorem atom?_reference (ht : t.kind = .name) (hequals : headKind? rest ≠ some .equals)
    (hcolon : headKind? rest ≠ some .colon) :
    atom? scope room ⟨t :: rest, d⟩ =
      (some <$> quantified (.node (d.internNode t.text t.span).1))
        ⟨rest, (d.internNode t.text t.span).2⟩ := by
  have hread : AtomHead.read? (t :: rest) = some (.node t.text t.span, rest) := by
    simp only [AtomHead.read?, ht]
  rw [atom?_apply, atomAround, hread]
  rfl

theorem atom?_literal (ht : t.kind = .literal) :
    atom? scope room ⟨t :: rest, d⟩ =
      (some <$> quantified (.token (d.internToken t.text).1))
        ⟨rest, (d.internToken t.text).2⟩ := by
  have hread : AtomHead.read? (t :: rest) = some (.token t.text, rest) := by
    simp [AtomHead.read?, ht]
  rw [atom?_apply, atomAround, hread]
  rfl

/-- An opening parenthesis starts a group. -/
theorem atom?_group (ht : t.kind = .openParen) :
    atom? scope (room + 1) ⟨t :: rest, d⟩ =
      (rule scope (atom? scope room) >>= fun body =>
        expect .closeParen >>= fun _ => some <$> quantified body : ReadM _) ⟨rest, d⟩ := by
  have hread : AtomHead.read? (t :: rest) = some (.group t.span, rest) := by
    simp [AtomHead.read?, ht]
  rw [atom?_apply, atomAround, hread]
  show (some <$> (rule scope (atom? scope room) >>= fun body =>
    expect .closeParen >>= fun _ => quantified body) : ReadM _) ⟨rest, d⟩ = _
  simp only [map_bind]

/-- A group without room for it is refused. -/
theorem atom?_group_zero (ht : t.kind = .openParen) :
    atom? scope 0 ⟨t :: rest, d⟩ = .error (.nestingTooDeep t.span) ⟨rest, d⟩ := by
  have hread : AtomHead.read? (t :: rest) = some (.group t.span, rest) := by
    simp [AtomHead.read?, ht]
  rw [atom?_apply, atomAround, hread]
  rfl

end Atom

end ReadM

end TreeGrammar
