import TreeGrammar.Grammar.Canonical
import TreeGrammar.Proofs.Derivation
import TreeGrammar.Token.Lexeme

/-! # Canonical forms

    Every rule that comes from a derivation has a canonical derivation, with
    parentheses only where they are needed.

    Key idea:
    - one rule has four forms, one for each sort of phrase; the smaller
      sorts put the larger ones in parentheses (`Forms`);
    - `Rule.Legible` says which rules can be written down at all, and the
      forms of these are derivations of them (`Rule.Legible.derives_forms`);
    - a derivation is nested at least as deeply as the canonical derivation of
      its tree (`Choice.nesting_forms_le`), so the limit on nesting is kept.
-/

namespace TreeGrammar

/-! ### Legible rules -/

/-- The text can be read as a name. -/
def IsName (text : String) : Prop :=
  text.toList ≠ [] ∧ ∀ c ∈ text.toList, isNameChar c = true

/-- A rule that can be written down: its names and labels are names, and no sequence and no choice
    in it has fewer than two parts. -/
inductive Rule.Legible : NamedRule → Prop where
  | node {name : String} : IsName name → Legible (.node name)
  | token (text : String) : Legible (.token text)
  | labeled {label : String} {body : NamedRule} :
      IsName label → Legible body → Legible (.labeled label body)
  | seq {parts : List NamedRule} :
      2 ≤ parts.length → (∀ part ∈ parts, Legible part) → Legible (.seq parts)
  | alt {choices : List NamedRule} :
      2 ≤ choices.length → (∀ choice ∈ choices, Legible choice) → Legible (.alt choices)
  | opt {body : NamedRule} : Legible body → Legible (.opt body)
  | rep {body : NamedRule} : Legible body → Legible (.rep body)

theorem Rule.Legible.ofSeq {parts : List NamedRule} (hne : parts ≠ [])
    (h : ∀ part ∈ parts, Legible part) : Legible (Rule.ofSeq parts) := by
  match parts with
  | [part] => exact h part (by simp)
  | part :: part' :: parts => exact .seq (by simp) h

theorem Rule.Legible.ofAlt {choices : List NamedRule} (hne : choices ≠ [])
    (h : ∀ choice ∈ choices, Legible choice) : Legible (Rule.ofAlt choices) := by
  match choices with
  | [choice] => exact h choice (by simp)
  | choice :: choice' :: choices => exact .alt (by simp) h

theorem Sequence.parts_ne_nil (q : Sequence) : q.parts ≠ [] := by
  cases q <;> simp [parts]

theorem Choice.choices_ne_nil (c : Choice) : c.choices ≠ [] := by
  cases c <;> simp [choices]

/-- The names among some symbols are names. -/
def NamesIn (symbols : List Symbol) : Prop :=
  ∀ name, Symbol.name name ∈ symbols → IsName name

theorem namesIn_append {symbols symbols' : List Symbol} :
    NamesIn (symbols ++ symbols') ↔ NamesIn symbols ∧ NamesIn symbols' := by
  constructor
  · intro h
    exact ⟨fun name hname => h name (List.mem_append_left _ hname),
      fun name hname => h name (List.mem_append_right _ hname)⟩
  · intro hboth name hname
    obtain ⟨h, h'⟩ := hboth
    rcases List.mem_append.1 hname with hname | hname
    · exact h name hname
    · exact h' name hname

theorem NamesIn.tail {symbol : Symbol} {symbols : List Symbol} (h : NamesIn (symbol :: symbols)) :
    NamesIn symbols :=
  fun name hname => h name (List.mem_cons_of_mem _ hname)

mutual

/-- The tree of a phrase whose names are names is legible. -/
theorem Primary.legible : ∀ p : Primary, NamesIn p.symbols → Rule.Legible p.tree
  | .node name, h => .node (h name (by simp [Primary.symbols]))
  | .token text, _ => .token text
  | .group body, h => by
    have hbody := (namesIn_append.1 (NamesIn.tail h)).1
    exact .ofAlt body.choices_ne_nil (Choice.legible body hbody)

theorem Atom.legible : ∀ a : Atom, NamesIn a.symbols → Rule.Legible a.tree
  | .labeled label body, h =>
    .labeled (h label (by simp [Atom.symbols])) (Atom.legible body (NamesIn.tail (NamesIn.tail h)))
  | .bare operand, h => Primary.legible operand h
  | .opt operand, h => .opt (Primary.legible operand (namesIn_append.1 h).1)
  | .rep operand, h => .rep (Primary.legible operand (namesIn_append.1 h).1)

theorem Sequence.legible : ∀ q : Sequence, NamesIn q.symbols → ∀ part ∈ q.parts, Rule.Legible part
  | .last atom, h => by
    rw [Sequence.parts, List.forall_mem_singleton]
    exact Atom.legible atom h
  | .more atom behind, h => by
    obtain ⟨hatom, hbehind⟩ := namesIn_append.1 h
    rw [Sequence.parts, List.forall_mem_cons]
    exact ⟨Atom.legible atom hatom, Sequence.legible behind hbehind⟩

theorem Choice.legible : ∀ c : Choice, NamesIn c.symbols →
    ∀ choice ∈ c.choices, Rule.Legible choice
  | .last sequence, h => by
    rw [Choice.choices, List.forall_mem_singleton]
    exact .ofSeq sequence.parts_ne_nil (Sequence.legible sequence h)
  | .more sequence behind, h => by
    obtain ⟨hsequence, hbehind⟩ := namesIn_append.1 h
    rw [Choice.choices, List.forall_mem_cons]
    exact ⟨.ofSeq sequence.parts_ne_nil (Sequence.legible sequence hsequence),
      Choice.legible behind (NamesIn.tail hbehind)⟩

end

theorem Choice.legible_tree (c : Choice) (h : NamesIn c.symbols) : Rule.Legible c.tree :=
  .ofAlt c.choices_ne_nil (c.legible h)

/-! ### The forms of a rule -/

/-- One rule, written as each sort of phrase. -/
structure Forms where
  /-- The form that a `?` or `*` may follow. -/
  primary : Primary
  /-- The form that takes one place of a sequence. -/
  atom : Atom
  /-- The form that is one of several choices. -/
  sequence : Sequence
  /-- The form that is the whole rule of a node. -/
  choice : Choice

namespace Forms

/-- A primary is good for everything. -/
def ofPrimary (p : Primary) : Forms :=
  ⟨p, .bare p, .last (.bare p), .last (.last (.bare p))⟩

/-- An atom needs parentheses to be a primary. -/
def ofAtom (a : Atom) : Forms :=
  ⟨.group (.last (.last a)), a, .last a, .last (.last a)⟩

/-- A sequence needs parentheses to be an atom. -/
def ofSequence (q : Sequence) : Forms :=
  ⟨.group (.last q), .bare (.group (.last q)), q, .last q⟩

/-- A choice needs parentheses to be a sequence. -/
def ofChoice (c : Choice) : Forms :=
  ⟨.group c, .bare (.group c), .last (.bare (.group c)), c⟩

/-- The symbols of the form that fits a place. -/
def symbolsAt (f : Forms) : Place → List Symbol
  | .top => f.choice.symbols
  | .choice => f.sequence.symbols
  | .part | .labeled => f.atom.symbols
  | .quantified => f.primary.symbols

end Forms

/-- The sequence of some atoms. There is none of no atoms, and the value for it is never used. -/
def Sequence.ofList : List Atom → Sequence
  | [] => .last (.bare (.node ""))
  | first :: others => ofAtoms first others

/-- The choice of some sequences. There is none of no sequences, and the value for it is never
    used. -/
def Choice.ofList : List Sequence → Choice
  | [] => .last (.ofList [])
  | first :: others => ofSequences first others

mutual

/-- The canonical forms of a rule. -/
def Rule.forms : NamedRule → Forms
  | .node name => .ofPrimary (.node name)
  | .token text => .ofPrimary (.token text)
  | .labeled label body => .ofAtom (.labeled label (Rule.forms body).atom)
  | .seq parts => .ofSequence (.ofList ((Rule.formsOfAll parts).map Forms.atom))
  | .alt choices => .ofChoice (.ofList ((Rule.formsOfAll choices).map Forms.sequence))
  | .opt body => .ofAtom (.opt (Rule.forms body).primary)
  | .rep body => .ofAtom (.rep (Rule.forms body).primary)

/-- The canonical forms of several rules. -/
def Rule.formsOfAll : List NamedRule → List Forms
  | [] => []
  | rule :: rules => Rule.forms rule :: Rule.formsOfAll rules

end

@[simp] theorem Rule.formsOfAll_eq_map (rules : List NamedRule) :
    Rule.formsOfAll rules = rules.map Rule.forms := by
  induction rules with
  | nil => rfl
  | cons rule rules ih => simp [Rule.formsOfAll, ih]

/-- The form that fits a place is the form of the whole rule, in parentheses if the rule needs
    them there. -/
theorem Rule.symbolsAt_forms (place : Place) (rule : NamedRule) :
    rule.forms.symbolsAt place =
      if place.needsParens rule then
        .mark .openParen :: (rule.forms.choice.symbols ++ [.mark .closeParen])
      else rule.forms.choice.symbols := by
  cases rule <;> cases place <;> rfl

/-! ### The forms are derivations -/

/-- The forms of a rule are derivations of it. -/
structure Forms.Derives (f : Forms) (rule : NamedRule) : Prop where
  primary : f.primary.tree = rule
  atom : f.atom.tree = rule
  sequence : f.sequence.tree = rule
  choice : f.choice.tree = rule

theorem Forms.derives_ofPrimary (p : Primary) : (ofPrimary p).Derives p.tree :=
  ⟨rfl, rfl, rfl, rfl⟩

theorem Forms.derives_ofAtom (a : Atom) : (ofAtom a).Derives a.tree :=
  ⟨rfl, rfl, rfl, rfl⟩

theorem Forms.derives_ofSequence (q : Sequence) : (ofSequence q).Derives q.tree :=
  ⟨rfl, rfl, rfl, rfl⟩

theorem Forms.derives_ofChoice (c : Choice) : (ofChoice c).Derives c.tree :=
  ⟨rfl, rfl, rfl, rfl⟩

theorem Sequence.tree_ofList {atoms : List Atom} (h : 2 ≤ atoms.length) :
    (ofList atoms).tree = .seq (atoms.map Atom.tree) := by
  match atoms with
  | first :: second :: others =>
    rw [ofList, tree_ofAtoms]
    rfl

theorem Choice.tree_ofList {sequences : List Sequence} (h : 2 ≤ sequences.length) :
    (ofList sequences).tree = .alt (sequences.map Sequence.tree) := by
  match sequences with
  | first :: second :: others =>
    rw [ofList, tree_ofSequences]
    rfl

/-- The canonical forms of a legible rule are derivations of it. -/
theorem Rule.Legible.derives_forms {rule : NamedRule} (h : Rule.Legible rule) :
    rule.forms.Derives rule := by
  induction h with
  | node _ => exact Forms.derives_ofPrimary _
  | token text => exact Forms.derives_ofPrimary _
  | @labeled label body _ _ ih =>
    have hderives := Forms.derives_ofAtom (.labeled label body.forms.atom)
    rwa [Atom.tree, ih.atom] at hderives
  | @seq parts hlength _ ih =>
    -- There are two parts at least, so they do not collapse into one.
    have htree : (Sequence.ofList ((Rule.formsOfAll parts).map Forms.atom)).tree = .seq parts := by
      rw [Sequence.tree_ofList (by simpa using hlength), formsOfAll_eq_map, List.map_map,
        List.map_map]
      congr 1
      exact (List.map_congr_left fun part hpart => (ih part hpart).atom).trans (List.map_id parts)
    have hderives :=
      Forms.derives_ofSequence (Sequence.ofList ((Rule.formsOfAll parts).map Forms.atom))
    rwa [htree] at hderives
  | @alt choices hlength _ ih =>
    have htree : (Choice.ofList ((Rule.formsOfAll choices).map Forms.sequence)).tree =
        .alt choices := by
      rw [Choice.tree_ofList (by simpa using hlength), formsOfAll_eq_map, List.map_map,
        List.map_map]
      congr 1
      exact (List.map_congr_left fun choice hchoice => (ih choice hchoice).sequence).trans
        (List.map_id choices)
    have hderives :=
      Forms.derives_ofChoice (Choice.ofList ((Rule.formsOfAll choices).map Forms.sequence))
    rwa [htree] at hderives
  | @opt body _ ih =>
    have hderives := Forms.derives_ofAtom (.opt body.forms.primary)
    rwa [Atom.tree, ih.primary] at hderives
  | @rep body _ ih =>
    have hderives := Forms.derives_ofAtom (.rep body.forms.primary)
    rwa [Atom.tree, ih.primary] at hderives

/-! ### Nesting -/

/-- The smaller the sort of phrase, the deeper is the form nested, but never by more than one. -/
structure Forms.Graded (f : Forms) : Prop where
  atom_le_primary : f.atom.nesting ≤ f.primary.nesting
  sequence_le_atom : f.sequence.nesting ≤ f.atom.nesting
  choice_le_sequence : f.choice.nesting ≤ f.sequence.nesting
  primary_le_choice : f.primary.nesting ≤ f.choice.nesting + 1

theorem Forms.graded_ofPrimary (p : Primary) : (ofPrimary p).Graded :=
  ⟨Nat.le_refl _, Nat.le_refl _, Nat.le_refl _, Nat.le_succ _⟩

theorem Forms.graded_ofAtom (a : Atom) : (ofAtom a).Graded :=
  ⟨Nat.le_succ _, Nat.le_refl _, Nat.le_refl _, Nat.le_refl _⟩

theorem Forms.graded_ofSequence (q : Sequence) : (ofSequence q).Graded :=
  ⟨Nat.le_refl _, Nat.le_succ _, Nat.le_refl _, Nat.le_refl _⟩

theorem Forms.graded_ofChoice (c : Choice) : (ofChoice c).Graded :=
  ⟨Nat.le_refl _, Nat.le_refl _, Nat.le_succ _, Nat.le_refl _⟩

theorem Rule.graded_forms (rule : NamedRule) : rule.forms.Graded := by
  cases rule with
  | node name => exact Forms.graded_ofPrimary _
  | token text => exact Forms.graded_ofPrimary _
  | labeled label body => exact Forms.graded_ofAtom _
  | seq parts => exact Forms.graded_ofSequence _
  | alt choices => exact Forms.graded_ofChoice _
  | opt body => exact Forms.graded_ofAtom _
  | rep body => exact Forms.graded_ofAtom _

theorem Sequence.nesting_ofList_le {atoms : List Atom} {room : Nat}
    (h : ∀ atom ∈ atoms, atom.nesting ≤ room) : (ofList atoms).nesting ≤ room := by
  cases atoms with
  | nil => exact Nat.zero_le room
  | cons first others =>
    rw [List.forall_mem_cons] at h
    exact nesting_ofAtoms_le h.1 h.2

theorem Choice.nesting_ofList_le {sequences : List Sequence} {room : Nat}
    (h : ∀ sequence ∈ sequences, sequence.nesting ≤ room) : (ofList sequences).nesting ≤ room := by
  cases sequences with
  | nil => exact Nat.zero_le room
  | cons first others =>
    rw [List.forall_mem_cons] at h
    exact nesting_ofSequences_le h.1 h.2

/-- Parts in a row are nested as deeply as the deepest of them. -/
theorem Rule.nesting_forms_ofSeq_le {parts : List NamedRule} {room : Nat}
    (h : ∀ part ∈ parts, part.forms.atom.nesting ≤ room) :
    (ofSeq parts).forms.sequence.nesting ≤ room := by
  match parts with
  | [] => exact Nat.zero_le room
  | [part] => exact Nat.le_trans part.graded_forms.sequence_le_atom (h part (by simp))
  | part :: part' :: parts =>
    show (Sequence.ofList ((formsOfAll (part :: part' :: parts)).map Forms.atom)).nesting ≤ room
    apply Sequence.nesting_ofList_le
    intro atom hatom
    rw [formsOfAll_eq_map, List.map_map] at hatom
    obtain ⟨part, hpart, rfl⟩ := List.mem_map.1 hatom
    exact h part hpart

/-- Choices are nested as deeply as the deepest of them. -/
theorem Rule.nesting_forms_ofAlt_le {choices : List NamedRule} {room : Nat}
    (h : ∀ choice ∈ choices, choice.forms.sequence.nesting ≤ room) :
    (ofAlt choices).forms.choice.nesting ≤ room := by
  match choices with
  | [] => exact Nat.zero_le room
  | [choice] => exact Nat.le_trans choice.graded_forms.choice_le_sequence (h choice (by simp))
  | choice :: choice' :: choices =>
    show (Choice.ofList ((formsOfAll (choice :: choice' :: choices)).map Forms.sequence)).nesting ≤
      room
    apply Choice.nesting_ofList_le
    intro sequence hsequence
    rw [formsOfAll_eq_map, List.map_map] at hsequence
    obtain ⟨choice, hchoice, rfl⟩ := List.mem_map.1 hsequence
    exact h choice hchoice

mutual

/-- The canonical form of a phrase is nested no more deeply than the phrase. -/
theorem Primary.nesting_forms_le : ∀ p : Primary, p.tree.forms.primary.nesting ≤ p.nesting
  | .node _ => Nat.le_refl _
  | .token _ => Nat.le_refl _
  | .group body =>
    Nat.le_trans (Rule.graded_forms _).primary_le_choice
      (Nat.succ_le_succ (Rule.nesting_forms_ofAlt_le (Choice.nesting_choices_le body)))

theorem Atom.nesting_forms_le : ∀ a : Atom, a.tree.forms.atom.nesting ≤ a.nesting
  | .labeled _ body => Nat.succ_le_succ (Atom.nesting_forms_le body)
  | .bare operand => Nat.le_trans (Rule.graded_forms _).atom_le_primary
    (Primary.nesting_forms_le operand)
  | .opt operand => Primary.nesting_forms_le operand
  | .rep operand => Primary.nesting_forms_le operand

theorem Sequence.nesting_parts_le : ∀ q : Sequence,
    ∀ part ∈ q.parts, part.forms.atom.nesting ≤ q.nesting
  | .last atom => by
    rw [Sequence.parts, List.forall_mem_singleton]
    exact Atom.nesting_forms_le atom
  | .more atom behind => by
    rw [Sequence.parts, List.forall_mem_cons]
    refine ⟨Nat.le_trans (Atom.nesting_forms_le atom) (Nat.le_max_left _ _), ?_⟩
    intro part hpart
    exact Nat.le_trans (Sequence.nesting_parts_le behind part hpart) (Nat.le_max_right _ _)

theorem Choice.nesting_choices_le : ∀ c : Choice,
    ∀ choice ∈ c.choices, choice.forms.sequence.nesting ≤ c.nesting
  | .last sequence => by
    rw [Choice.choices, List.forall_mem_singleton]
    exact Rule.nesting_forms_ofSeq_le (Sequence.nesting_parts_le sequence)
  | .more sequence behind => by
    rw [Choice.choices, List.forall_mem_cons]
    have hsequence := Rule.nesting_forms_ofSeq_le (Sequence.nesting_parts_le sequence)
    refine ⟨Nat.le_trans hsequence (Nat.le_max_left _ _), ?_⟩
    intro choice hchoice
    exact Nat.le_trans (Choice.nesting_choices_le behind choice hchoice) (Nat.le_max_right _ _)

end

theorem Choice.nesting_forms_le (c : Choice) : c.tree.forms.choice.nesting ≤ c.nesting :=
  Rule.nesting_forms_ofAlt_le c.nesting_choices_le

end TreeGrammar
