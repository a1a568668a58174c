import TreeGrammar.Proofs.Heads
import TreeGrammar.Proofs.Loadable

/-! # Occurrences

    The handles of a grammar, and the order of the handles in each of its
    rules, can be read off the flat list of tokens, in one walk from left to
    right that knows nothing of rules.

    Key idea:
    - a name with `:` behind it is a label; every other name, and every
      literal, is an occurrence (`occurrencesOf`);
    - the occurrences in the symbols of a phrase are the leaves of its tree
      (`Choice.leavesIn_append` and its companions), so the head and the
      leaves of one definition after the other are the occurrences in all
      tokens (`Derivation.leavesIn_symbols`);
    - a handle is the rank of a first occurrence, since the tables of a
      grammar are filled in this order (`handles_first_seen`).
-/

namespace TreeGrammar

/-! ### Walking through tokens -/

/-- The names that are no labels, and the literals. A name is a label if `:` comes next. -/
def occurrencesOf : List Token → List Token
  | [] => []
  | t :: tokens =>
    if t.kind = .literal ∨ t.kind = .name ∧ headKind? tokens ≠ some .colon then
      t :: occurrencesOf tokens
    else occurrencesOf tokens

/-- The names that are no labels. -/
def mentionsOf (tokens : List Token) : List Token :=
  (occurrencesOf tokens).filter (·.kind = .name)

/-- The literals. -/
def literalsOf (tokens : List Token) : List Token :=
  tokens.filter (·.kind = .literal)

/-- The tokens in front of the next definition. -/
def bodyOf : List Token → List Token
  | [] => []
  | t :: tokens => if startsDefinition (t :: tokens) then [] else t :: bodyOf tokens

/-- The heads of the definitions, each with the tokens between its `=` and the next head. -/
def sectionsOf : List Token → List (Token × List Token)
  | [] => []
  | t :: tokens =>
    if startsDefinition (t :: tokens) then (t, bodyOf tokens.tail) :: sectionsOf tokens
    else sectionsOf tokens

/-! ### Leaves of symbols -/

/-- What the leaf of a rule for an occurrence is. -/
def Token.leaf (t : Token) : String ⊕ String :=
  if t.kind = .literal then .inr t.text else .inl t.text

/-- The names and literals among some symbols, without the labels. -/
def leavesIn : List Symbol → List (String ⊕ String)
  | [] => []
  | .name text :: symbols =>
    if symbols.head? = some (.mark .colon) then leavesIn symbols
    else .inl text :: leavesIn symbols
  | .literal text :: symbols => .inr text :: leavesIn symbols
  | .mark _ :: symbols => leavesIn symbols

theorem leavesIn_name {symbols : List Symbol} (h : symbols.head? ≠ some (.mark .colon))
    (text : String) : leavesIn (.name text :: symbols) = .inl text :: leavesIn symbols := by
  rw [leavesIn, if_neg h]

/-- The walk sees of the tokens their symbols only. -/
theorem map_leaf_occurrencesOf (tokens : List Token) :
    (occurrencesOf tokens).map Token.leaf = leavesIn (symbolsOf tokens) := by
  induction tokens with
  | nil => rfl
  | cons t tokens ih =>
    have hcolon : headKind? tokens = some .colon ↔
        (symbolsOf tokens).head? = some (.mark .colon) :=
      headKind?_eq_some_iff (by decide) (by decide)
    rw [occurrencesOf, symbolsOf_cons]
    cases hsymbol : t.symbol with
    | name text =>
      obtain ⟨hkind, htext⟩ := Token.symbol_eq_name_iff.1 hsymbol
      by_cases hnext : headKind? tokens = some .colon
      · rw [if_neg (by simp [hkind, hnext]), ih, leavesIn, if_pos (hcolon.1 hnext)]
      · rw [if_pos (.inr ⟨hkind, hnext⟩), List.map_cons, ih,
          leavesIn_name (hcolon.not.1 hnext)]
        simp [Token.leaf, hkind, htext]
    | literal text =>
      obtain ⟨hkind, htext⟩ := Token.symbol_eq_literal_iff.1 hsymbol
      rw [if_pos (.inl hkind), List.map_cons, ih, leavesIn]
      simp [Token.leaf, hkind, htext]
    | mark kind =>
      -- A mark is neither a name nor a literal.
      have hname : t.kind ≠ .name := fun h => by
        simp [Token.symbol_eq_name_iff.2 ⟨h, rfl⟩] at hsymbol
      have hliteral : t.kind ≠ .literal := fun h => by
        simp [Token.symbol_eq_literal_iff.2 ⟨h, rfl⟩] at hsymbol
      rw [if_neg (by simp [hname, hliteral]), ih, leavesIn]

theorem kind_of_mem_occurrencesOf {t : Token} {tokens : List Token}
    (h : t ∈ occurrencesOf tokens) : t.kind = .literal ∨ t.kind = .name := by
  induction tokens with
  | nil => simp [occurrencesOf] at h
  | cons u tokens ih =>
    unfold occurrencesOf at h
    split at h
    · rename_i hkind
      rcases List.mem_cons.1 h with rfl | htail
      · exact hkind.imp id And.left
      · exact ih htail
    · exact ih h

/-- The names among the leaves are what the mentions spell. -/
theorem filterMap_getLeft?_leavesIn (tokens : List Token) :
    (leavesIn (symbolsOf tokens)).filterMap Sum.getLeft? = (mentionsOf tokens).map Token.text := by
  rw [← map_leaf_occurrencesOf, List.filterMap_map, mentionsOf, ← List.filterMap_eq_map,
    List.filterMap_filter]
  apply List.filterMap_congr
  intro t ht
  rcases kind_of_mem_occurrencesOf ht with hkind | hkind <;> simp [Token.leaf, hkind]

/-- No literal is left out on the way, so the others are what the literals spell. -/
theorem filterMap_getRight?_leavesIn (tokens : List Token) :
    (leavesIn (symbolsOf tokens)).filterMap Sum.getRight? =
      (literalsOf tokens).map Token.text := by
  have hfilter : (occurrencesOf tokens).filter (·.kind = .literal) = literalsOf tokens := by
    unfold literalsOf
    induction tokens with
    | nil => rfl
    | cons t tokens ih =>
      unfold occurrencesOf
      by_cases hliteral : t.kind = .literal
      · rw [if_pos (.inl hliteral), List.filter_cons_of_pos (by simpa using hliteral),
          List.filter_cons_of_pos (by simpa using hliteral), ih]
      · rw [List.filter_cons_of_neg (by simpa using hliteral), ← ih]
        split
        · exact List.filter_cons_of_neg (by simpa using hliteral)
        · rfl
  rw [← map_leaf_occurrencesOf, List.filterMap_map, ← hfilter, ← List.filterMap_eq_map,
    List.filterMap_filter]
  apply List.filterMap_congr
  intro t ht
  rcases kind_of_mem_occurrencesOf ht with hkind | hkind <;> simp [Token.leaf, hkind]

mutual

/-- The occurrences in a phrase are the leaves of its tree. -/
theorem Primary.leavesIn_append : ∀ (p : Primary) {behind : List Symbol},
    behind.head? ≠ some (.mark .colon) →
      leavesIn (p.symbols ++ behind) = p.tree.leaves ++ leavesIn behind
  | .node name, behind, h => leavesIn_name h name
  | .token text, behind, _ => by
    rw [Primary.symbols, List.singleton_append, leavesIn]
    rfl
  | .group body, behind, _ => by
    have hbody : leavesIn (body.symbols ++ .mark .closeParen :: behind) =
        body.choices.flatMap Rule.leaves ++ leavesIn (.mark .closeParen :: behind) :=
      Choice.leavesIn_append body (by simp)
    rw [Primary.symbols, Primary.tree, Rule.leaves_ofAlt]
    simpa [leavesIn] using hbody

theorem Atom.leavesIn_append : ∀ (a : Atom) {behind : List Symbol},
    behind.head? ≠ some (.mark .colon) →
      leavesIn (a.symbols ++ behind) = a.tree.leaves ++ leavesIn behind
  | .labeled label body, behind, h => by
    -- The label is passed over, and so is its colon.
    rw [Atom.symbols, List.cons_append, leavesIn, if_pos (by simp), List.cons_append, leavesIn,
      Atom.leavesIn_append body h, Atom.tree, Rule.leaves]
  | .bare operand, behind, h => Primary.leavesIn_append operand h
  | .opt operand, behind, _ => by
    have hoperand : leavesIn (operand.symbols ++ .mark .question :: behind) =
        operand.tree.leaves ++ leavesIn (.mark .question :: behind) :=
      Primary.leavesIn_append operand (by simp)
    simpa [Atom.symbols, Atom.tree, Rule.leaves, leavesIn] using hoperand
  | .rep operand, behind, _ => by
    have hoperand : leavesIn (operand.symbols ++ .mark .star :: behind) =
        operand.tree.leaves ++ leavesIn (.mark .star :: behind) :=
      Primary.leavesIn_append operand (by simp)
    simpa [Atom.symbols, Atom.tree, Rule.leaves, leavesIn] using hoperand

theorem Sequence.leavesIn_append : ∀ (s : Sequence) {behind : List Symbol},
    behind.head? ≠ some (.mark .colon) →
      leavesIn (s.symbols ++ behind) = s.parts.flatMap Rule.leaves ++ leavesIn behind
  | .last atom, behind, h => by
    rw [Sequence.symbols, Atom.leavesIn_append atom h, Sequence.parts, List.flatMap_singleton]
  | .more atom others, behind, h => by
    have hnext := (others.endsAtom_append behind).noColon
    rw [Sequence.symbols, List.append_assoc, Atom.leavesIn_append atom hnext,
      Sequence.leavesIn_append others h, Sequence.parts, List.flatMap_cons, List.append_assoc]

theorem Choice.leavesIn_append : ∀ (c : Choice) {behind : List Symbol},
    behind.head? ≠ some (.mark .colon) →
      leavesIn (c.symbols ++ behind) = c.choices.flatMap Rule.leaves ++ leavesIn behind
  | .last sequence, behind, h => by
    rw [Choice.symbols, Sequence.leavesIn_append sequence h, Choice.choices,
      List.flatMap_singleton, Rule.leaves_ofSeq]
  | .more sequence others, behind, h => by
    rw [Choice.symbols, List.append_assoc, List.cons_append,
      Sequence.leavesIn_append sequence (by simp), leavesIn, Choice.leavesIn_append others h,
      Choice.choices, List.flatMap_cons, Rule.leaves_ofSeq, List.append_assoc]

end

/-- The occurrences in the body of a definition are the leaves of its rule. -/
theorem Choice.leavesIn_symbols (c : Choice) : leavesIn c.symbols = c.tree.leaves := by
  have h : leavesIn (c.symbols ++ []) = c.choices.flatMap Rule.leaves ++ leavesIn [] :=
    c.leavesIn_append (by simp)
  rwa [List.append_nil, leavesIn, List.append_nil, ← Rule.leaves_ofAlt] at h

/-- The occurrences in some definitions are head and leaves of one after the other. -/
theorem Derivation.leavesIn_symbols (D : Derivation) :
    leavesIn D.symbols = D.entries.flatMap fun entry => .inl entry.1 :: entry.2.leaves := by
  induction D with
  | nil => rfl
  | cons d D ih =>
    have hnext := (endsChoice_symbols D).noColon
    rw [Derivation.symbols_cons, Definition.symbols, List.cons_append,
      leavesIn_name (by simp), List.cons_append, leavesIn, d.body.leavesIn_append hnext, ih,
      ← Rule.leaves_ofAlt]
    rfl

/-! ### Sections -/

/-- A section has the symbols of a definition. -/
structure Definition.Matches (d : Definition) (part : Token × List Token) : Prop where
  /-- The head is the name of the node. -/
  head : part.1.text = d.head
  /-- The tokens behind its `=` are those of the rule. -/
  body : symbolsOf part.2 = d.body.symbols

theorem bodyOf_append {body behind : List Token} (h : .mark .equals ∉ symbolsOf body)
    (hbehind : behind = [] ∨ startsDefinition behind = true)
    (hnext : headKind? behind ≠ some .equals) : bodyOf (body ++ behind) = body := by
  induction body with
  | nil =>
    rcases hbehind with rfl | hstarts
    · rfl
    · cases behind with
      | nil => rfl
      | cons t behind => exact if_pos hstarts
  | cons t body ih =>
    rw [List.cons_append, bodyOf, if_neg (not_startsDefinition_append h hnext)]
    rw [symbolsOf_cons, List.mem_cons, not_or] at h
    rw [ih h.2]

theorem sectionsOf_append {body behind : List Token} (h : .mark .equals ∉ symbolsOf body)
    (hnext : headKind? behind ≠ some .equals) :
    sectionsOf (body ++ behind) = sectionsOf behind := by
  induction body with
  | nil => rfl
  | cons t body ih =>
    rw [List.cons_append, sectionsOf, if_neg (not_startsDefinition_append h hnext)]
    rw [symbolsOf_cons, List.mem_cons, not_or] at h
    exact ih h.2

theorem sectionsOf_head {t u : Token} (ht : t.kind = .name) (hu : u.kind = .equals)
    (tokens : List Token) :
    sectionsOf (t :: u :: tokens) = (t, bodyOf tokens) :: sectionsOf tokens := by
  have hnot : ¬ startsDefinition (u :: tokens) = true := by
    simp [startsDefinition, headKind?, hu]
  rw [sectionsOf, if_pos ((startsDefinition_cons_cons t u tokens).2 ⟨ht, hu⟩), sectionsOf,
    if_neg hnot]
  rfl

/-- Cutting the tokens at the heads gives one section for each definition. -/
theorem Derivation.matches_sectionsOf {D : Derivation} {tokens : List Token}
    (h : symbolsOf tokens = D.symbols) :
    List.Forall₂ Definition.Matches D (sectionsOf tokens) := by
  induction D generalizing tokens with
  | nil =>
    obtain rfl : tokens = [] := List.map_eq_nil_iff.1 h
    exact .nil
  | cons d D ih =>
    obtain ⟨head, equals, body, behind, rfl, hkind, htext, hequals, hbody, hbehind, -⟩ :=
      exists_tokens h
    have hnone : .mark .equals ∉ symbolsOf body := by
      rw [hbody]
      exact d.body.equals_not_mem
    have hnext := headKind?_ne_equals hbehind
    rw [sectionsOf_head hkind hequals, sectionsOf_append hnone hnext,
      bodyOf_append hnone (eq_nil_or_startsDefinition hbehind) hnext]
    exact .cons ⟨htext, hbody⟩ (ih hbehind)

/-! ### Handles -/

namespace Grammar

/-- The handle that a grammar has for the name or literal of a token. -/
def handleOf? (g : Grammar) (t : Token) : Option (NodeId ⊕ TokenId) :=
  if t.kind = .literal then (g.findToken? t.text).map .inr else (g.findNode? t.text).map .inl

/-- A node is defined by a section: it has the name of its head, and the handles in its rule are
    those of the occurrences behind the head. -/
def DefinedBy (g : Grammar) (id : NodeId) (part : Token × List Token) : Prop :=
  ∃ node, g.node? id = some node ∧ node.name = part.1.text ∧
    node.rule.leaves.map some = (occurrencesOf part.2).map g.handleOf?

/-- The handles of a grammar are those that one walk through some tokens hands out. -/
structure NumberedBy (g : Grammar) (tokens : List Token) : Prop where
  /-- Nodes are numbered as they are first mentioned. -/
  nodeNames : g.nodes.map Node.name = ((mentionsOf tokens).map Token.text).eraseDups
  /-- Tokens are numbered as their literals first occur. -/
  tokenNames : g.tokens = ((literalsOf tokens).map Token.text).eraseDups
  /-- The definitions are the nodes of the heads. -/
  definitions : g.definitions.map some = (headsOf tokens).map fun head => g.findNode? head.text
  /-- Each of them is defined by its section. -/
  sections : List.Forall₂ g.DefinedBy g.definitions (sectionsOf tokens)

/-- A node is found at the place of its name in the table. -/
theorem Coherent.findNode?_eq {entries : List (String × NamedRule)} (h : Coherent entries)
    {name : String} (hname : name ∈ entryNames entries) :
    (ofEntries entries).findNode? name = some (nodeHandle (entryNames entries) name) := by
  have hfind : (ofEntries entries).findNode? name =
      (((ofEntries entries).nodes.map Node.name).findIdx? (· = name)).map NodeId.mk := by
    rw [findNode?, List.findIdx?_map]
    rfl
  rw [hfind, h.names_ofEntries, Draft.findIdx?_eq_some_idxOf hname]
  rfl

/-- A name or literal is found at its place in the table. -/
theorem Coherent.handleOf?_eq {entries : List (String × NamedRule)} (h : Coherent entries)
    {t : Token} (hname : t.kind ≠ .literal → t.text ∈ entryNames entries)
    (hliteral : t.kind = .literal → t.text ∈ entryTokens entries) :
    (ofEntries entries).handleOf? t =
      some (Sum.map (nodeHandle (entryNames entries)) (tokenHandle (entryTokens entries))
        t.leaf) := by
  unfold handleOf? Token.leaf
  split
  case isTrue hkind =>
    show (((entryTokens entries).findIdx? _).map TokenId.mk).map _ = _
    rw [Draft.findIdx?_eq_some_idxOf (hliteral hkind)]
    rfl
  case isFalse hkind =>
    rw [h.findNode?_eq (hname hkind)]
    rfl

/-- The handles in the rule of an entry are those of the occurrences that it was made of. -/
theorem Coherent.definedBy {entries : List (String × NamedRule)} (h : Coherent entries)
    {entry : String × NamedRule} (hentry : entry ∈ entries) {part : Token × List Token}
    (hhead : part.1.text = entry.1)
    (hleaves : (occurrencesOf part.2).map Token.leaf = entry.2.leaves) :
    (ofEntries entries).DefinedBy (nodeHandle (entryNames entries) entry.1) part := by
  refine ⟨_, h.node?_ofEntries hentry, hhead.symm, ?_⟩
  show ((entry.2.map _ _).leaves).map some = _
  rw [Rule.leaves_map, ← hleaves, List.map_map, List.map_map]
  apply List.map_congr_left
  intro t ht
  -- An occurrence is one of the leaves, so that the tables have it.
  have hleaf : t.leaf ∈ entry.2.leaves := hleaves ▸ List.mem_map_of_mem ht
  refine (h.handleOf?_eq (fun hkind => ?_) fun hkind => ?_).symm
  · rw [Token.leaf, if_neg hkind] at hleaf
    exact Grammar.mem_entryNames_iff.2 ⟨entry, hentry, .inr (Rule.mem_nodeLeaves_iff.2 hleaf)⟩
  · rw [Token.leaf, if_pos hkind] at hleaf
    exact mem_entryTokens_iff.2 ⟨entry, hentry, Rule.mem_tokenLeaves_iff.2 hleaf⟩

/-- The table of the nodes is filled in the order of their mentions. -/
theorem entryNames_eq {D : Derivation} {tokens : List Token} (h : D.symbols = symbolsOf tokens) :
    entryNames D.entries = ((mentionsOf tokens).map Token.text).eraseDups := by
  rw [← filterMap_getLeft?_leavesIn, ← h, D.leavesIn_symbols, List.filterMap_flatMap, entryNames,
    seeAll_nil_left]
  rfl

/-- The table of the tokens is filled in the order of their literals. -/
theorem entryTokens_eq {D : Derivation} {tokens : List Token} (h : D.symbols = symbolsOf tokens) :
    entryTokens D.entries = ((literalsOf tokens).map Token.text).eraseDups := by
  rw [← filterMap_getRight?_leavesIn, ← h, D.leavesIn_symbols, List.filterMap_flatMap, entryTokens,
    seeAll_nil_left]
  rfl

/-- Handles are ranks of first occurrences. The nodes of a grammar are the names that are no labels
    and its tokens are the literals, in the order of the tokens that it was read from, each one
    where it occurs first. Its definitions are the names with `=` behind them, and from left to
    right the handles in a rule are those of the occurrences up to the next such name. -/
theorem handles_first_seen {tokens : List Token} {g : Grammar} (h : ofTokens tokens = .ok g) :
    g.NumberedBy tokens := by
  obtain ⟨D, hsymbols, hadmissible, rfl⟩ := ofTokens_eq_ok_iff.1 h
  have hcoherent := (Derivation.admissible_iff.1 hadmissible).2
  refine ⟨?_, entryTokens_eq hsymbols, ?_, ?_⟩
  · rw [hcoherent.names_ofEntries, entryNames_eq hsymbols]
  · -- The heads spell the names of the entries.
    have hheads : (headsOf tokens).map Token.text = D.entries.map Prod.fst := by
      rw [Derivation.map_text_headsOf hsymbols.symm, D.map_fst_entries]
    calc (ofEntries D.entries).definitions.map some
        = D.entries.map fun entry => (ofEntries D.entries).findNode? entry.1 := by
          show (D.entries.map _).map some = _
          rw [List.map_map]
          apply List.map_congr_left
          intro entry hentry
          have hname : entry.1 ∈ entryNames D.entries :=
            hcoherent.mem_entryNames_iff.2 (List.mem_map_of_mem hentry)
          exact (hcoherent.findNode?_eq hname).symm
      _ = ((headsOf tokens).map Token.text).map (ofEntries D.entries).findNode? := by
          rw [hheads, List.map_map]
          rfl
      _ = (headsOf tokens).map fun head => (ofEntries D.entries).findNode? head.text := by
          rw [List.map_map]
          rfl
  · show List.Forall₂ _ (D.entries.map _) _
    rw [Derivation.entries, List.map_map, List.forall₂_map_left_iff]
    have hmatches := (List.forall₂_and_left D (sectionsOf tokens)).2
      ⟨fun d hd => hd, Derivation.matches_sectionsOf hsymbols.symm⟩
    apply hmatches.imp
    intro d part hpart
    obtain ⟨hd, hhead, hbody⟩ := hpart
    refine hcoherent.definedBy (List.mem_map_of_mem hd) hhead ?_
    rw [map_leaf_occurrencesOf, hbody, d.body.leavesIn_symbols]

/-- `B` is mentioned before it is defined and keeps its handle, and the label `B` is passed over. -/
theorem handles_first_seen_forward :
    let source := "A = 'x' C:B B:'y' | A B = 'y' 'x'?"
    let g : Grammar := {
      nodes := [⟨"A", .alt [.seq [.token ⟨0⟩, .labeled "C" (.node ⟨1⟩), .labeled "B" (.token ⟨1⟩)],
          .node ⟨0⟩]⟩,
        ⟨"B", .seq [.token ⟨1⟩, .opt (.token ⟨0⟩)]⟩]
      tokens := ["x", "y"]
      definitions := [⟨0⟩, ⟨1⟩] }
    ofTokens (Scan.ofText source).tokens = .ok g ∧ g.NumberedBy (Scan.ofText source).tokens := by
  intro source g
  have hread : ofTokens (Scan.ofText source).tokens = .ok g := by cbv
  exact ⟨hread, handles_first_seen hread⟩

end Grammar

end TreeGrammar
