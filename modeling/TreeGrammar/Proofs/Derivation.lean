import TreeGrammar.Grammar.Basic
import TreeGrammar.Token.Basic
import TreeGrammar.Proofs.Leaves

/-! # Derivations

    The grammar that texts of grammars obey:

        grammar    := (name '=' choice)*
        choice     := sequence ('|' sequence)*
        sequence   := atom+
        atom       := name ':' atom | primary ('?' | '*')?
        primary    := name | literal | '(' choice ')'

    A derivation is a tree with one constructor for each production. It does
    not mention the reader of grammars.

    Key idea:
    - `Token.symbol` is what the grammar sees of a token: spans do not count,
      and marks have no text;
    - every phrase has its symbols, its nesting (how many parentheses and
      labels are open at its deepest place) and its tree (the rule that it
      stands for, by name);
    - a list of symbols has one derivation at most (`Derivation.unambiguous`).
      The proof reads a phrase off the front of a longer list, so it has to
      know what may stand behind the phrase: `EndsAtom`, `EndsSequence` and
      `EndsChoice`.
-/

namespace TreeGrammar

/-! ### Symbols -/

/-- What the grammar of grammars sees of a token. -/
inductive Symbol where
  | name (text : String)
  | literal (text : String)
  /-- Any other token, of which only the kind counts. -/
  | mark (kind : TokenKind)
  deriving DecidableEq, Repr

/-- What the grammar of grammars sees of a token. -/
def Token.symbol (t : Token) : Symbol :=
  match t.kind with
  | .name => .name t.text
  | .literal => .literal t.text
  | kind => .mark kind

/-- What the grammar of grammars sees of a list of tokens. -/
def symbolsOf (tokens : List Token) : List Symbol :=
  tokens.map Token.symbol

@[simp] theorem symbolsOf_nil : symbolsOf [] = [] := rfl

@[simp] theorem symbolsOf_cons (t : Token) (tokens : List Token) :
    symbolsOf (t :: tokens) = t.symbol :: symbolsOf tokens := rfl

@[simp] theorem symbolsOf_append (ts us : List Token) :
    symbolsOf (ts ++ us) = symbolsOf ts ++ symbolsOf us := by
  simp [symbolsOf]

@[simp] theorem Token.symbol_eq_name_iff {t : Token} {text : String} :
    t.symbol = .name text ↔ t.kind = .name ∧ t.text = text := by
  unfold Token.symbol
  split <;> simp_all

@[simp] theorem Token.symbol_eq_literal_iff {t : Token} {text : String} :
    t.symbol = .literal text ↔ t.kind = .literal ∧ t.text = text := by
  unfold Token.symbol
  split <;> simp_all

theorem Token.symbol_eq_mark_iff {t : Token} {kind : TokenKind} (hname : kind ≠ .name)
    (hliteral : kind ≠ .literal) : t.symbol = .mark kind ↔ t.kind = kind := by
  unfold Token.symbol
  split <;> simp_all <;> grind

/-- A token that is a mark is seen as this mark. -/
theorem symbolsOf_cons_mark {t : Token} {kind : TokenKind} (hname : kind ≠ .name)
    (hliteral : kind ≠ .literal) (ht : t.kind = kind) (tokens : List Token) :
    symbolsOf (t :: tokens) = [.mark kind] ++ symbolsOf tokens := by
  rw [symbolsOf_cons, (Token.symbol_eq_mark_iff hname hliteral).2 ht]
  rfl

/-! ### Phrases -/

mutual

/-- A phrase that a `?` or `*` may follow. -/
inductive Primary where
  | node (name : String)
  | token (text : String)
  | group (body : Choice)

/-- A phrase that takes one place of a sequence. -/
inductive Atom where
  /-- A label with the atom behind it. -/
  | labeled (label : String) (body : Atom)
  /-- A primary without a mark behind it. -/
  | bare (operand : Primary)
  /-- A primary with `?` behind it. -/
  | opt (operand : Primary)
  /-- A primary with `*` behind it. -/
  | rep (operand : Primary)

/-- Atoms in a row, at least one. -/
inductive Sequence where
  | last (atom : Atom)
  | more (atom : Atom) (behind : Sequence)

/-- Sequences with `|` between them, at least one. -/
inductive Choice where
  | last (sequence : Sequence)
  | more (sequence : Sequence) (behind : Choice)

end

mutual

/-- The symbols of a primary. -/
def Primary.symbols : Primary → List Symbol
  | .node name => [.name name]
  | .token text => [.literal text]
  | .group body => .mark .openParen :: (body.symbols ++ [.mark .closeParen])

/-- The symbols of an atom. -/
def Atom.symbols : Atom → List Symbol
  | .labeled label body => .name label :: .mark .colon :: body.symbols
  | .bare operand => operand.symbols
  | .opt operand => operand.symbols ++ [.mark .question]
  | .rep operand => operand.symbols ++ [.mark .star]

/-- The symbols of a sequence. -/
def Sequence.symbols : Sequence → List Symbol
  | .last atom => atom.symbols
  | .more atom behind => atom.symbols ++ behind.symbols

/-- The symbols of a choice. -/
def Choice.symbols : Choice → List Symbol
  | .last sequence => sequence.symbols
  | .more sequence behind => sequence.symbols ++ .mark .bar :: behind.symbols

end

mutual

/-- How many parentheses and labels are open at the deepest place of a primary. -/
def Primary.nesting : Primary → Nat
  | .node _ | .token _ => 0
  | .group body => body.nesting + 1

/-- How many parentheses and labels are open at the deepest place of an atom. -/
def Atom.nesting : Atom → Nat
  | .labeled _ body => body.nesting + 1
  | .bare operand | .opt operand | .rep operand => operand.nesting

/-- How many parentheses and labels are open at the deepest place of a sequence. -/
def Sequence.nesting : Sequence → Nat
  | .last atom => atom.nesting
  | .more atom behind => max atom.nesting behind.nesting

/-- How many parentheses and labels are open at the deepest place of a choice. -/
def Choice.nesting : Choice → Nat
  | .last sequence => sequence.nesting
  | .more sequence behind => max sequence.nesting behind.nesting

end

mutual

/-- The rule that a primary stands for. -/
def Primary.tree : Primary → NamedRule
  | .node name => .node name
  | .token text => .token text
  | .group body => Rule.ofAlt body.choices

/-- The rule that an atom stands for. -/
def Atom.tree : Atom → NamedRule
  | .labeled label body => .labeled label body.tree
  | .bare operand => operand.tree
  | .opt operand => .opt operand.tree
  | .rep operand => .rep operand.tree

/-- The rules that the atoms of a sequence stand for. -/
def Sequence.parts : Sequence → List NamedRule
  | .last atom => [atom.tree]
  | .more atom behind => atom.tree :: behind.parts

/-- The rules that the sequences of a choice stand for. -/
def Choice.choices : Choice → List NamedRule
  | .last sequence => [Rule.ofSeq sequence.parts]
  | .more sequence behind => Rule.ofSeq sequence.parts :: behind.choices

end

/-- The rule that a sequence stands for: one atom alone is no sequence. -/
def Sequence.tree (s : Sequence) : NamedRule :=
  Rule.ofSeq s.parts

/-- The rule that a choice stands for: one sequence alone is no choice. -/
def Choice.tree (c : Choice) : NamedRule :=
  Rule.ofAlt c.choices

mutual

/-- The names that a primary refers to. -/
def Primary.references : Primary → List String
  | .node name => [name]
  | .token _ => []
  | .group body => body.references

/-- The names that an atom refers to. A label is no reference. -/
def Atom.references : Atom → List String
  | .labeled _ body => body.references
  | .bare operand | .opt operand | .rep operand => operand.references

/-- The names that a sequence refers to. -/
def Sequence.references : Sequence → List String
  | .last atom => atom.references
  | .more atom behind => atom.references ++ behind.references

/-- The names that a choice refers to. -/
def Choice.references : Choice → List String
  | .last sequence => sequence.references
  | .more sequence behind => sequence.references ++ behind.references

end

/-- A node with its rule. -/
structure Definition where
  /-- The name of the node. -/
  head : String
  /-- The rule as it is written. -/
  body : Choice

/-- The symbols of a definition. -/
def Definition.symbols (d : Definition) : List Symbol :=
  .name d.head :: .mark .equals :: d.body.symbols

/-- A derivation of a grammar: its definitions in order. -/
abbrev Derivation := List Definition

/-- The symbols of a grammar. -/
def Derivation.symbols (D : Derivation) : List Symbol :=
  D.flatMap Definition.symbols

@[simp] theorem Derivation.symbols_nil : Derivation.symbols [] = [] := rfl

@[simp] theorem Derivation.symbols_cons (d : Definition) (D : Derivation) :
    Derivation.symbols (d :: D) = d.symbols ++ Derivation.symbols D := rfl

/-- The defined names with their rules, in order. -/
def Derivation.entries (D : Derivation) : List (String × NamedRule) :=
  D.map fun d => (d.head, d.body.tree)

/-! ### References and trees -/

mutual

theorem Primary.nodeLeaves_tree : ∀ p : Primary, p.tree.nodeLeaves = p.references
  | .node name => rfl
  | .token text => rfl
  | .group body => by
    rw [Primary.tree, Rule.nodeLeaves, Rule.leaves_ofAlt, List.filterMap_flatMap]
    exact Choice.nodeLeaves_choices body

theorem Atom.nodeLeaves_tree : ∀ a : Atom, a.tree.nodeLeaves = a.references
  | .labeled _ body => Atom.nodeLeaves_tree body
  | .bare operand => Primary.nodeLeaves_tree operand
  | .opt operand => Primary.nodeLeaves_tree operand
  | .rep operand => Primary.nodeLeaves_tree operand

theorem Sequence.nodeLeaves_parts : ∀ s : Sequence, s.parts.flatMap Rule.nodeLeaves = s.references
  | .last atom => by
    rw [Sequence.parts, List.flatMap_singleton, Atom.nodeLeaves_tree atom, Sequence.references]
  | .more atom behind => by
    rw [Sequence.parts, List.flatMap_cons, Atom.nodeLeaves_tree atom,
      Sequence.nodeLeaves_parts behind, Sequence.references]

theorem Choice.nodeLeaves_choices : ∀ c : Choice, c.choices.flatMap Rule.nodeLeaves = c.references
  | .last sequence => by
    rw [Choice.choices, List.flatMap_singleton, Rule.nodeLeaves, Rule.leaves_ofSeq,
      List.filterMap_flatMap, Choice.references]
    exact Sequence.nodeLeaves_parts sequence
  | .more sequence behind => by
    rw [Choice.choices, List.flatMap_cons, Choice.nodeLeaves_choices behind, Rule.nodeLeaves,
      Rule.leaves_ofSeq, List.filterMap_flatMap, Choice.references]
    congr 1
    exact Sequence.nodeLeaves_parts sequence

end

/-- The names in the tree of a choice are those that it refers to. -/
theorem Choice.nodeLeaves_tree (c : Choice) : c.tree.nodeLeaves = c.references := by
  rw [Choice.tree, Rule.nodeLeaves, Rule.leaves_ofAlt, List.filterMap_flatMap]
  exact c.nodeLeaves_choices

/-! ### Phrases from lists of phrases -/

/-- The sequence of an atom and some more. -/
def Sequence.ofAtoms (first : Atom) : List Atom → Sequence
  | [] => .last first
  | second :: others => .more first (ofAtoms second others)

/-- The choice of a sequence and some more. -/
def Choice.ofSequences (first : Sequence) : List Sequence → Choice
  | [] => .last first
  | second :: others => .more first (ofSequences second others)

theorem Sequence.symbols_ofAtoms (first : Atom) (others : List Atom) :
    (ofAtoms first others).symbols = first.symbols ++ others.flatMap Atom.symbols := by
  induction others generalizing first with
  | nil => simp [ofAtoms, Sequence.symbols]
  | cons second others ih => simp [ofAtoms, Sequence.symbols, ih]

theorem Sequence.tree_ofAtoms (first : Atom) (others : List Atom) :
    (ofAtoms first others).tree = Rule.ofSeq (first.tree :: others.map Atom.tree) := by
  have hparts : (ofAtoms first others).parts = first.tree :: others.map Atom.tree := by
    induction others generalizing first with
    | nil => rfl
    | cons second others ih => simp [ofAtoms, Sequence.parts, ih]
  rw [Sequence.tree, hparts]

theorem Sequence.nesting_ofAtoms_le {first : Atom} {others : List Atom} {room : Nat}
    (hfirst : first.nesting ≤ room) (hothers : ∀ atom ∈ others, atom.nesting ≤ room) :
    (ofAtoms first others).nesting ≤ room := by
  induction others generalizing first with
  | nil => exact hfirst
  | cons second others ih =>
    rw [List.forall_mem_cons] at hothers
    exact Nat.max_le.2 ⟨hfirst, ih hothers.1 hothers.2⟩

theorem Choice.symbols_ofSequences (first : Sequence) (others : List Sequence) :
    (ofSequences first others).symbols =
      first.symbols ++ others.flatMap fun sequence => .mark .bar :: sequence.symbols := by
  induction others generalizing first with
  | nil => simp [ofSequences, Choice.symbols]
  | cons second others ih => simp [ofSequences, Choice.symbols, ih]

theorem Choice.tree_ofSequences (first : Sequence) (others : List Sequence) :
    (ofSequences first others).tree = Rule.ofAlt (first.tree :: others.map Sequence.tree) := by
  have hchoices : (ofSequences first others).choices =
      first.tree :: others.map Sequence.tree := by
    induction others generalizing first with
    | nil => rfl
    | cons second others ih => simp [ofSequences, Choice.choices, Sequence.tree, ih]
  rw [Choice.tree, hchoices]

theorem Choice.nesting_ofSequences_le {first : Sequence} {others : List Sequence} {room : Nat}
    (hfirst : first.nesting ≤ room) (hothers : ∀ sequence ∈ others, sequence.nesting ≤ room) :
    (ofSequences first others).nesting ≤ room := by
  induction others generalizing first with
  | nil => exact hfirst
  | cons second others ih =>
    rw [List.forall_mem_cons] at hothers
    exact Nat.max_le.2 ⟨hfirst, ih hothers.1 hothers.2⟩

end TreeGrammar
