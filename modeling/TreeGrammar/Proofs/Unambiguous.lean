import TreeGrammar.Proofs.Derivation

/-! # Derivations are unique

    A list of symbols has one derivation at most.

    Key idea:
    - a phrase is read off the front of a longer list, so what stands behind
      it has to be limited: no `?`, `*`, `:` or `=` behind an atom, no atom
      behind a sequence, no `|` behind a choice;
    - where the grammar puts a phrase, these limits hold;
    - two phrases of a sort that start the same list, with admissible rests
      behind them, are the same phrase. The proof goes by recursion over the
      first of them.
-/

namespace TreeGrammar

/-! ### What may stand behind a phrase -/

/-- Whether an atom starts with the symbol. A name starts one unless `=` follows. -/
def Symbol.opens : Symbol → Bool
  | .name _ | .literal _ | .mark .openParen => true
  | .mark _ => false

/-- Whether the symbols start with an atom. -/
def startsAtom : List Symbol → Bool
  | .name _ :: .mark .equals :: _ => false
  | symbol :: _ => symbol.opens
  | [] => false

/-- Only `=` behind a name makes something else of it than an atom. -/
theorem startsAtom_name_eq_false_iff {text : String} {symbols : List Symbol} :
    startsAtom (.name text :: symbols) = false ↔ symbols.head? = some (.mark .equals) := by
  match symbols with
  | [] | .name _ :: _ | .literal _ :: _ => simp [startsAtom, Symbol.opens]
  | .mark kind :: _ => cases kind <;> simp [startsAtom, Symbol.opens]

/-- The symbols can stand behind an atom: they change nothing in it. -/
structure EndsAtom (behind : List Symbol) : Prop where
  noQuestion : behind.head? ≠ some (.mark .question)
  noStar : behind.head? ≠ some (.mark .star)
  noColon : behind.head? ≠ some (.mark .colon)
  noEquals : behind.head? ≠ some (.mark .equals)

/-- The symbols can stand behind a sequence: they do not prolong it. -/
structure EndsSequence (behind : List Symbol) : Prop extends EndsAtom behind where
  noAtom : startsAtom behind = false

/-- The symbols can stand behind a choice: they do not prolong it. -/
structure EndsChoice (behind : List Symbol) : Prop extends EndsSequence behind where
  noBar : behind.head? ≠ some (.mark .bar)

theorem endsAtom_cons {symbol : Symbol} (h : symbol.opens = true) (behind : List Symbol) :
    EndsAtom (symbol :: behind) := by
  constructor <;> rintro ⟨⟩ <;> simp [Symbol.opens] at h

theorem endsSequence_bar (behind : List Symbol) : EndsSequence (.mark .bar :: behind) := by
  constructor
  · constructor <;> simp
  · rfl

theorem endsChoice_closeParen (behind : List Symbol) :
    EndsChoice (.mark .closeParen :: behind) := by
  constructor
  · constructor
    · constructor <;> simp
    · rfl
  · simp

/-- A choice ends where the next definition starts, and where there is none. -/
theorem endsChoice_symbols (D : Derivation) : EndsChoice D.symbols := by
  cases D with
  | nil => exact ⟨⟨⟨by simp, by simp, by simp, by simp⟩, rfl⟩, by simp⟩
  | cons d D =>
    simp only [Derivation.symbols_cons, Definition.symbols, List.cons_append]
    exact ⟨⟨endsAtom_cons rfl _, rfl⟩, by simp⟩

/-! ### How a phrase starts -/

theorem Primary.exists_symbols_eq_cons (p : Primary) :
    ∃ symbol symbols, p.symbols = symbol :: symbols ∧ symbol.opens = true := by
  cases p with
  | node name => exact ⟨.name name, [], rfl, rfl⟩
  | token text => exact ⟨.literal text, [], rfl, rfl⟩
  | group body => exact ⟨.mark .openParen, _, rfl, rfl⟩

theorem Atom.exists_symbols_eq_cons (a : Atom) :
    ∃ symbol symbols, a.symbols = symbol :: symbols ∧ symbol.opens = true := by
  cases a with
  | labeled label body => exact ⟨.name label, _, rfl, rfl⟩
  | bare operand => exact operand.exists_symbols_eq_cons
  | opt operand =>
    obtain ⟨symbol, symbols, h, hopens⟩ := operand.exists_symbols_eq_cons
    exact ⟨symbol, symbols ++ [.mark .question], by simp [Atom.symbols, h], hopens⟩
  | rep operand =>
    obtain ⟨symbol, symbols, h, hopens⟩ := operand.exists_symbols_eq_cons
    exact ⟨symbol, symbols ++ [.mark .star], by simp [Atom.symbols, h], hopens⟩

theorem Sequence.exists_symbols_eq_cons (s : Sequence) :
    ∃ symbol symbols, s.symbols = symbol :: symbols ∧ symbol.opens = true := by
  cases s with
  | last atom => exact atom.exists_symbols_eq_cons
  | more atom behind =>
    obtain ⟨symbol, symbols, h, hopens⟩ := atom.exists_symbols_eq_cons
    exact ⟨symbol, symbols ++ behind.symbols, by simp [Sequence.symbols, h], hopens⟩

/-- Another sequence behind an atom changes nothing in the atom. -/
theorem Sequence.endsAtom_append (s : Sequence) (behind : List Symbol) :
    EndsAtom (s.symbols ++ behind) := by
  obtain ⟨symbol, symbols, h, hopens⟩ := s.exists_symbols_eq_cons
  rw [h]
  exact endsAtom_cons hopens _

theorem Primary.startsAtom_append (p : Primary) {behind : List Symbol}
    (h : behind.head? ≠ some (.mark .equals)) : startsAtom (p.symbols ++ behind) = true := by
  cases p with
  | node name =>
    rw [← Bool.not_eq_false]
    exact fun hnot => h (startsAtom_name_eq_false_iff.1 hnot)
  | token text => rfl
  | group body => rfl

theorem Atom.startsAtom_append (a : Atom) {behind : List Symbol} (h : EndsAtom behind) :
    startsAtom (a.symbols ++ behind) = true := by
  cases a with
  | labeled label body => rfl
  | bare operand => exact operand.startsAtom_append h.noEquals
  | opt operand =>
    rw [Atom.symbols, List.append_assoc]
    exact operand.startsAtom_append (by simp)
  | rep operand =>
    rw [Atom.symbols, List.append_assoc]
    exact operand.startsAtom_append (by simp)

theorem Sequence.startsAtom_append (s : Sequence) {behind : List Symbol} (h : EndsAtom behind) :
    startsAtom (s.symbols ++ behind) = true := by
  cases s with
  | last atom => exact atom.startsAtom_append h
  | more atom later =>
    rw [Sequence.symbols, List.append_assoc]
    exact atom.startsAtom_append (later.endsAtom_append behind)

/-- Only a reference starts with a name, and it is that name alone. -/
theorem Primary.eq_node_of_symbols_append {p : Primary} {name : String}
    {behind rest : List Symbol} (h : p.symbols ++ behind = .name name :: rest) :
    p = .node name ∧ behind = rest := by
  cases p with
  | node name' => simpa [Primary.symbols] using h
  | token text => simp [Primary.symbols] at h
  | group body => simp [Primary.symbols] at h

/-- A label is no atom of another sort. -/
theorem Atom.labeled_symbols_ne {label : String} {body : Atom} {a : Atom}
    {behind behind' : List Symbol} (hend : EndsAtom behind')
    (h : (Atom.labeled label body).symbols ++ behind = a.symbols ++ behind') :
    ∃ body', a = .labeled label body' ∧ body.symbols ++ behind = body'.symbols ++ behind' := by
  cases a with
  | labeled label' body' =>
    simp only [Atom.symbols, List.cons_append, List.cons.injEq, Symbol.name.injEq, true_and] at h
    obtain ⟨rfl, h⟩ := h
    exact ⟨body', rfl, h⟩
  | bare operand =>
    -- The label would be a reference, and the `:` would stand behind it.
    obtain ⟨rfl, rfl⟩ := Primary.eq_node_of_symbols_append h.symm
    exact absurd rfl hend.noColon
  | opt operand =>
    rw [Atom.symbols.eq_3, List.append_assoc] at h
    obtain ⟨rfl, hrest⟩ := Primary.eq_node_of_symbols_append h.symm
    simp at hrest
  | rep operand =>
    rw [Atom.symbols.eq_4, List.append_assoc] at h
    obtain ⟨rfl, hrest⟩ := Primary.eq_node_of_symbols_append h.symm
    simp at hrest

/-! ### Uniqueness -/

mutual

/-- A list of symbols starts with one primary at most. -/
theorem Primary.unambiguous : ∀ {p p' : Primary} {behind behind' : List Symbol},
    p.symbols ++ behind = p'.symbols ++ behind' → p = p' ∧ behind = behind'
  | .node name, p', behind, behind', h => by
    obtain ⟨rfl, rfl⟩ := Primary.eq_node_of_symbols_append h.symm
    exact ⟨rfl, rfl⟩
  | .token text, p', behind, behind', h => by
    cases p' <;> simp_all [Primary.symbols]
  | .group body, p', behind, behind', h => by
    cases p' with
    | node name => simp [Primary.symbols] at h
    | token text => simp [Primary.symbols] at h
    | group body' =>
      simp only [Primary.symbols, List.cons_append, List.append_assoc, List.cons.injEq,
        true_and] at h
      obtain ⟨rfl, hrest⟩ := Choice.unambiguous (endsChoice_closeParen _)
        (endsChoice_closeParen _) h
      exact ⟨rfl, by simpa using hrest⟩

/-- A list of symbols starts with one atom at most. -/
theorem Atom.unambiguous : ∀ {a a' : Atom} {behind behind' : List Symbol},
    EndsAtom behind → EndsAtom behind' → a.symbols ++ behind = a'.symbols ++ behind' →
      a = a' ∧ behind = behind'
  | .labeled label body, a', behind, behind', hend, hend', h => by
    obtain ⟨body', rfl, hbody⟩ := Atom.labeled_symbols_ne hend' h
    obtain ⟨rfl, rfl⟩ := Atom.unambiguous hend hend' hbody
    exact ⟨rfl, rfl⟩
  | .bare operand, a', behind, behind', hend, hend', h => by
    cases a' with
    | labeled label body =>
      obtain ⟨_, hlabel, -⟩ := Atom.labeled_symbols_ne hend h.symm
      exact absurd hlabel (by simp)
    | bare operand' =>
      obtain ⟨rfl, rfl⟩ := Primary.unambiguous h
      exact ⟨rfl, rfl⟩
    | opt operand' =>
      -- The primaries are the same, so the `?` would stand behind the atom.
      rw [Atom.symbols.eq_3, List.append_assoc] at h
      obtain ⟨-, rfl⟩ := Primary.unambiguous h
      exact absurd rfl hend.noQuestion
    | rep operand' =>
      rw [Atom.symbols.eq_4, List.append_assoc] at h
      obtain ⟨-, rfl⟩ := Primary.unambiguous h
      exact absurd rfl hend.noStar
  | .opt operand, a', behind, behind', hend, hend', h => by
    cases a' with
    | labeled label body =>
      obtain ⟨_, hlabel, -⟩ := Atom.labeled_symbols_ne hend h.symm
      exact absurd hlabel (by simp)
    | bare operand' =>
      rw [Atom.symbols.eq_3, List.append_assoc] at h
      obtain ⟨-, rfl⟩ := Primary.unambiguous h
      exact absurd rfl hend'.noQuestion
    | opt operand' =>
      rw [Atom.symbols, Atom.symbols, List.append_assoc, List.append_assoc] at h
      obtain ⟨rfl, hrest⟩ := Primary.unambiguous h
      exact ⟨rfl, by simpa using hrest⟩
    | rep operand' =>
      rw [Atom.symbols, Atom.symbols, List.append_assoc, List.append_assoc] at h
      obtain ⟨-, hrest⟩ := Primary.unambiguous h
      simp at hrest
  | .rep operand, a', behind, behind', hend, hend', h => by
    cases a' with
    | labeled label body =>
      obtain ⟨_, hlabel, -⟩ := Atom.labeled_symbols_ne hend h.symm
      exact absurd hlabel (by simp)
    | bare operand' =>
      rw [Atom.symbols.eq_4, List.append_assoc] at h
      obtain ⟨-, rfl⟩ := Primary.unambiguous h
      exact absurd rfl hend'.noStar
    | opt operand' =>
      rw [Atom.symbols, Atom.symbols, List.append_assoc, List.append_assoc] at h
      obtain ⟨-, hrest⟩ := Primary.unambiguous h
      simp at hrest
    | rep operand' =>
      rw [Atom.symbols, Atom.symbols, List.append_assoc, List.append_assoc] at h
      obtain ⟨rfl, hrest⟩ := Primary.unambiguous h
      exact ⟨rfl, by simpa using hrest⟩

/-- A list of symbols starts with one sequence at most. -/
theorem Sequence.unambiguous : ∀ {s s' : Sequence} {behind behind' : List Symbol},
    EndsSequence behind → EndsSequence behind' → s.symbols ++ behind = s'.symbols ++ behind' →
      s = s' ∧ behind = behind'
  | .last atom, .last atom', behind, behind', hend, hend', h => by
    obtain ⟨rfl, rfl⟩ := Atom.unambiguous hend.toEndsAtom hend'.toEndsAtom h
    exact ⟨rfl, rfl⟩
  | .last atom, .more atom' later', behind, behind', hend, hend', h => by
    -- The first atoms are the same, and the rest of the longer sequence starts with an atom.
    rw [Sequence.symbols.eq_2, List.append_assoc] at h
    obtain ⟨-, rfl⟩ := Atom.unambiguous hend.toEndsAtom (later'.endsAtom_append _) h
    have hstart := later'.startsAtom_append hend'.toEndsAtom
    exact absurd hend.noAtom (by simp [hstart])
  | .more atom later, .last atom', behind, behind', hend, hend', h => by
    rw [Sequence.symbols.eq_2, List.append_assoc] at h
    obtain ⟨-, rfl⟩ := Atom.unambiguous (later.endsAtom_append _) hend'.toEndsAtom h
    have hstart := later.startsAtom_append hend.toEndsAtom
    exact absurd hend'.noAtom (by simp [hstart])
  | .more atom later, .more atom' later', behind, behind', hend, hend', h => by
    rw [Sequence.symbols, Sequence.symbols, List.append_assoc, List.append_assoc] at h
    obtain ⟨rfl, hlater⟩ :=
      Atom.unambiguous (later.endsAtom_append _) (later'.endsAtom_append _) h
    obtain ⟨rfl, rfl⟩ := Sequence.unambiguous hend hend' hlater
    exact ⟨rfl, rfl⟩

/-- A list of symbols starts with one choice at most. -/
theorem Choice.unambiguous : ∀ {c c' : Choice} {behind behind' : List Symbol},
    EndsChoice behind → EndsChoice behind' → c.symbols ++ behind = c'.symbols ++ behind' →
      c = c' ∧ behind = behind'
  | .last sequence, .last sequence', behind, behind', hend, hend', h => by
    obtain ⟨rfl, rfl⟩ := Sequence.unambiguous hend.toEndsSequence hend'.toEndsSequence h
    exact ⟨rfl, rfl⟩
  | .last sequence, .more sequence' later', behind, behind', hend, hend', h => by
    -- The first sequences are the same, and a bar would stand behind the shorter choice.
    rw [Choice.symbols.eq_2, List.append_assoc] at h
    obtain ⟨-, rfl⟩ := Sequence.unambiguous hend.toEndsSequence (endsSequence_bar _) h
    exact absurd rfl hend.noBar
  | .more sequence later, .last sequence', behind, behind', hend, hend', h => by
    rw [Choice.symbols.eq_2, List.append_assoc] at h
    obtain ⟨-, rfl⟩ := Sequence.unambiguous (endsSequence_bar _) hend'.toEndsSequence h
    exact absurd rfl hend'.noBar
  | .more sequence later, .more sequence' later', behind, behind', hend, hend', h => by
    rw [Choice.symbols, Choice.symbols, List.append_assoc, List.append_assoc] at h
    obtain ⟨rfl, hrest⟩ := Sequence.unambiguous (endsSequence_bar _) (endsSequence_bar _) h
    simp only [List.cons.injEq, true_and] at hrest
    obtain ⟨rfl, rfl⟩ := Choice.unambiguous hend hend' hrest
    exact ⟨rfl, rfl⟩

end

/-- A list of symbols has one derivation at most. -/
theorem Derivation.unambiguous {D D' : Derivation} (h : D.symbols = D'.symbols) : D = D' := by
  induction D generalizing D' with
  | nil =>
    cases D' with
    | nil => rfl
    | cons d' D' => simp [Definition.symbols] at h
  | cons d D ih =>
    cases D' with
    | nil => simp [Definition.symbols] at h
    | cons d' D' =>
      obtain ⟨head, body⟩ := d
      obtain ⟨head', body'⟩ := d'
      simp only [Derivation.symbols_cons, Definition.symbols, List.cons_append, List.cons.injEq,
        Symbol.name.injEq, true_and] at h
      obtain ⟨rfl, hbody⟩ := h
      obtain ⟨rfl, hrest⟩ :=
        Choice.unambiguous (endsChoice_symbols D) (endsChoice_symbols D') hbody
      rw [ih hrest]

end TreeGrammar
