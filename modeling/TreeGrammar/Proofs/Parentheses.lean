import Mathlib.Logic.Relation
import TreeGrammar.Proofs.Loadable

/-! # Parentheses that are not needed

    The canonical text of a grammar is what is left of any text of it when
    the parentheses that are not needed are taken out. So no text of the
    grammar has fewer tokens, and no other one has as few.

    Key idea:
    - `RemovesPair` takes a parenthesis and its partner out of a list and
      leaves all else as it is; `RemovesPairs` does so any number of times;
    - a phrase loses pairs until it is the canonical form of its tree, by
      recursion over the phrase (`Choice.removes` and its companions);
    - a place that needs no parentheses around a rule is reached from one that
      does by taking out one pair (`Rule.removes_place`).
-/

namespace TreeGrammar

/-! ### Lists without some pairs -/

/-- The kind and the value of a token, without its place. -/
def Token.content (t : Token) : TokenKind × Option String :=
  (t.kind, t.value)

/-- The kinds and values of some tokens. -/
def contentsOf (tokens : List Token) : List (TokenKind × Option String) :=
  tokens.map Token.content

@[simp] theorem length_contentsOf (tokens : List Token) :
    (contentsOf tokens).length = tokens.length :=
  List.length_map _

/-- An opening parenthesis. -/
def opening : TokenKind × Option String := (.openParen, none)

/-- A closing parenthesis. -/
def closing : TokenKind × Option String := (.closeParen, none)

/-- Every parenthesis has its partner. -/
inductive Balanced : List (TokenKind × Option String) → Prop where
  | nil : Balanced []
  | other {content : TokenKind × Option String} {rest : List (TokenKind × Option String)} :
      content ≠ opening → content ≠ closing → Balanced rest → Balanced (content :: rest)
  | pair {inside rest : List (TokenKind × Option String)} :
      Balanced inside → Balanced rest → Balanced (opening :: (inside ++ closing :: rest))

/-- One parenthesis and its partner are taken out, and nothing else is changed. -/
inductive RemovesPair : List (TokenKind × Option String) → List (TokenKind × Option String) → Prop
    where
  | intro (before : List (TokenKind × Option String)) {inside : List (TokenKind × Option String)}
      (behind : List (TokenKind × Option String)) (balanced : Balanced inside) :
      RemovesPair (before ++ opening :: (inside ++ closing :: behind)) (before ++ (inside ++ behind))

/-- Some pairs of parentheses are taken out. -/
def RemovesPairs : List (TokenKind × Option String) → List (TokenKind × Option String) → Prop :=
  Relation.ReflTransGen RemovesPair

section Removes

variable {whole whole' rest rest' : List (TokenKind × Option String)}

theorem Balanced.append (h : Balanced whole) (h' : Balanced rest) : Balanced (whole ++ rest) := by
  induction h with
  | nil => exact h'
  | other hopening hclosing _ ih => exact .other hopening hclosing ih
  | @pair inside behind hinside _ _ ih =>
    rw [List.cons_append, List.append_assoc, List.cons_append]
    exact .pair hinside ih

theorem RemovesPair.append_left (before : List (TokenKind × Option String))
    (h : RemovesPair whole rest) : RemovesPair (before ++ whole) (before ++ rest) := by
  obtain ⟨before', behind, hbalanced⟩ := h
  rw [← List.append_assoc, ← List.append_assoc before]
  exact .intro (before ++ before') behind hbalanced

theorem RemovesPair.append_right (h : RemovesPair whole rest)
    (behind : List (TokenKind × Option String)) : RemovesPair (whole ++ behind) (rest ++ behind) := by
  obtain ⟨before, behind', hbalanced⟩ := h
  have := RemovesPair.intro before (behind' ++ behind) hbalanced
  simpa using this

theorem RemovesPair.length_eq (h : RemovesPair whole rest) : whole.length = rest.length + 2 := by
  obtain ⟨before, behind, -⟩ := h
  simp only [List.length_append, List.length_cons]
  omega

theorem RemovesPairs.refl (whole : List (TokenKind × Option String)) : RemovesPairs whole whole :=
  Relation.ReflTransGen.refl

theorem RemovesPairs.trans {between : List (TokenKind × Option String)}
    (h : RemovesPairs whole between) (h' : RemovesPairs between rest) : RemovesPairs whole rest :=
  Relation.ReflTransGen.trans h h'

/-- In two parts of a list, pairs can be taken out apart from each other. -/
theorem RemovesPairs.append (h : RemovesPairs whole rest) (h' : RemovesPairs whole' rest') :
    RemovesPairs (whole ++ whole') (rest ++ rest') := by
  unfold RemovesPairs at h h' ⊢
  calc
    Relation.ReflTransGen RemovesPair (whole ++ whole') (rest ++ whole') :=
      h.lift (· ++ whole') fun _ _ hstep => hstep.append_right whole'
    Relation.ReflTransGen RemovesPair (rest ++ whole') (rest ++ rest') :=
      h'.lift (rest ++ ·) fun _ _ hstep => hstep.append_left rest

theorem RemovesPairs.cons (content : TokenKind × Option String) (h : RemovesPairs whole rest) :
    RemovesPairs (content :: whole) (content :: rest) :=
  (RemovesPairs.refl [content]).append h

/-- A list gets shorter unless nothing is taken out. -/
theorem RemovesPairs.eq_or_length_lt (h : RemovesPairs whole rest) :
    whole = rest ∨ rest.length < whole.length := by
  induction h with
  | refl => exact .inl rfl
  | tail _ hstep ih =>
    have hlength := hstep.length_eq
    rcases ih with rfl | hlt
    · exact .inr (by omega)
    · exact .inr (by omega)

/-- The pair around a list in which every parenthesis has its partner can be taken out. -/
theorem Balanced.removes (h : Balanced whole) :
    RemovesPairs (opening :: (whole ++ [closing])) whole := by
  have := RemovesPair.intro [] [] h
  rw [List.append_nil] at this
  exact Relation.ReflTransGen.single this

end Removes

/-! ### Phrases -/

/-- The kind and the value that a token with this symbol has in a text. -/
def Symbol.content : Symbol → TokenKind × Option String
  | .name text => (.name, some text)
  | .literal text => (.literal, some text)
  | .mark kind => (kind, none)

/-- The kinds and values that tokens with these symbols have in a text. -/
def spelled (symbols : List Symbol) : List (TokenKind × Option String) :=
  symbols.map Symbol.content

@[simp] theorem spelled_nil : spelled [] = [] := rfl

@[simp] theorem spelled_cons (symbol : Symbol) (symbols : List Symbol) :
    spelled (symbol :: symbols) = symbol.content :: spelled symbols := rfl

@[simp] theorem spelled_append (symbols symbols' : List Symbol) :
    spelled (symbols ++ symbols') = spelled symbols ++ spelled symbols' := by
  simp [spelled]

@[simp] theorem length_spelled (symbols : List Symbol) :
    (spelled symbols).length = symbols.length :=
  List.length_map _

@[simp] theorem length_symbolsOf (tokens : List Token) :
    (symbolsOf tokens).length = tokens.length :=
  List.length_map _

theorem balanced_mark {kind : TokenKind} (hopen : kind ≠ .openParen) (hclose : kind ≠ .closeParen) :
    Balanced (spelled [.mark kind]) :=
  .other (by simpa [Symbol.content, opening] using hopen)
    (by simpa [Symbol.content, closing] using hclose) .nil

mutual

/-- Every parenthesis in a phrase has its partner in the phrase. -/
theorem Primary.balanced : ∀ p : Primary, Balanced (spelled p.symbols)
  | .node _ => .other (by simp [Symbol.content, opening]) (by simp [Symbol.content, closing]) .nil
  | .token _ => .other (by simp [Symbol.content, opening]) (by simp [Symbol.content, closing]) .nil
  | .group body => by
    rw [Primary.symbols, spelled_cons, spelled_append]
    exact .pair (Choice.balanced body) .nil

theorem Atom.balanced : ∀ a : Atom, Balanced (spelled a.symbols)
  | .labeled _ body => by
    rw [Atom.symbols, spelled_cons]
    refine .other (by simp [Symbol.content, opening]) (by simp [Symbol.content, closing]) ?_
    exact (balanced_mark (by decide) (by decide)).append (Atom.balanced body)
  | .bare operand => Primary.balanced operand
  | .opt operand => by
    rw [Atom.symbols, spelled_append]
    exact (Primary.balanced operand).append (balanced_mark (by decide) (by decide))
  | .rep operand => by
    rw [Atom.symbols, spelled_append]
    exact (Primary.balanced operand).append (balanced_mark (by decide) (by decide))

theorem Sequence.balanced : ∀ q : Sequence, Balanced (spelled q.symbols)
  | .last atom => Atom.balanced atom
  | .more atom behind => by
    rw [Sequence.symbols, spelled_append]
    exact (Atom.balanced atom).append (Sequence.balanced behind)

theorem Choice.balanced : ∀ c : Choice, Balanced (spelled c.symbols)
  | .last sequence => Sequence.balanced sequence
  | .more sequence behind => by
    rw [Choice.symbols, spelled_append]
    have hbar : Balanced (spelled [.mark .bar]) := balanced_mark (by decide) (by decide)
    exact (Sequence.balanced sequence).append (hbar.append (Choice.balanced behind))

end

/-! ### Canonical forms -/

namespace Rule

/-- From a place that needs parentheses to one that does not, one pair is taken out. -/
theorem removes_place {place place' : Place} {rule : NamedRule}
    (h : place'.needsParens rule = true → place.needsParens rule = true) :
    RemovesPairs (spelled (rule.forms.symbolsAt place)) (spelled (rule.forms.symbolsAt place')) := by
  rw [symbolsAt_forms, symbolsAt_forms]
  by_cases hneeds : place.needsParens rule = true
  · by_cases hneeds' : place'.needsParens rule = true
    · rw [if_pos hneeds, if_pos hneeds']
      exact .refl _
    · rw [if_pos hneeds, if_neg hneeds', spelled_cons, spelled_append]
      exact rule.forms.choice.balanced.removes
  · rw [if_neg hneeds, if_neg (mt h hneeds)]
    exact .refl _

theorem removes_quantified_part (rule : NamedRule) :
    RemovesPairs (spelled (rule.forms.symbolsAt .quantified))
      (spelled (rule.forms.symbolsAt .part)) :=
  removes_place (by cases rule <;> simp [Place.needsParens])

theorem removes_part_choice (rule : NamedRule) :
    RemovesPairs (spelled (rule.forms.symbolsAt .part)) (spelled (rule.forms.symbolsAt .choice)) :=
  removes_place (by cases rule <;> simp [Place.needsParens])

theorem removes_choice_top (rule : NamedRule) :
    RemovesPairs (spelled (rule.forms.symbolsAt .choice)) (spelled (rule.forms.symbolsAt .top)) :=
  removes_place (by cases rule <;> simp [Place.needsParens])

/-- Parts in a row, as one of several choices. A part that is alone may lose its parentheses. -/
theorem removes_ofSeq {parts : List NamedRule} (hne : parts ≠ []) :
    RemovesPairs (spelled (parts.flatMap fun part => part.forms.symbolsAt .part))
      (spelled ((ofSeq parts).forms.symbolsAt .choice)) := by
  match parts with
  | [part] =>
    rw [List.flatMap_singleton]
    exact removes_part_choice part
  | first :: second :: others =>
    have hsymbols : (ofSeq (first :: second :: others)).forms.symbolsAt .choice =
        (first :: second :: others).flatMap fun part => part.forms.symbolsAt .part :=
      Sequence.symbols_ofList rfl
    rw [hsymbols]
    exact .refl _

end Rule

mutual

/-- A primary loses pairs until it is the canonical form of its tree. -/
theorem Primary.removes : ∀ p : Primary,
    RemovesPairs (spelled p.symbols) (spelled (p.tree.forms.symbolsAt .quantified))
  | .node _ => .refl _
  | .token _ => .refl _
  | .group body => by
    have hbody : RemovesPairs (spelled body.symbols) (spelled (body.tree.forms.symbolsAt .top)) :=
      Choice.removes body
    have htree : (Primary.group body).tree = body.tree := rfl
    rw [htree, Primary.symbols, spelled_cons, spelled_append, Rule.symbolsAt_forms]
    -- The parentheses stay around what needs them, and are one of the pairs to go otherwise.
    by_cases hneeds : Place.quantified.needsParens body.tree = true
    · rw [if_pos hneeds, spelled_cons _ (_ ++ _), spelled_append _ [_]]
      exact (hbody.append (.refl _)).cons _
    · rw [if_neg hneeds]
      exact body.balanced.removes.trans hbody

theorem Atom.removes : ∀ a : Atom,
    RemovesPairs (spelled a.symbols) (spelled (a.tree.forms.symbolsAt .part))
  | .labeled _ body => ((Atom.removes body).cons _).cons _
  | .bare operand => (Primary.removes operand).trans (Rule.removes_quantified_part _)
  | .opt operand => by
    show RemovesPairs (spelled (operand.symbols ++ [.mark .question]))
      (spelled (operand.tree.forms.symbolsAt .quantified ++ [.mark .question]))
    rw [spelled_append, spelled_append]
    exact (Primary.removes operand).append (.refl _)
  | .rep operand => by
    show RemovesPairs (spelled (operand.symbols ++ [.mark .star]))
      (spelled (operand.tree.forms.symbolsAt .quantified ++ [.mark .star]))
    rw [spelled_append, spelled_append]
    exact (Primary.removes operand).append (.refl _)

theorem Sequence.removes_parts : ∀ q : Sequence,
    RemovesPairs (spelled q.symbols)
      (spelled (q.parts.flatMap fun part => part.forms.symbolsAt .part))
  | .last atom => by
    rw [Sequence.parts, List.flatMap_singleton]
    exact Atom.removes atom
  | .more atom behind => by
    rw [Sequence.parts, List.flatMap_cons, Sequence.symbols, spelled_append, spelled_append]
    exact (Atom.removes atom).append (Sequence.removes_parts behind)

theorem Choice.removes_choices : ∀ c : Choice,
    RemovesPairs (spelled (.mark .bar :: c.symbols))
      (spelled (c.choices.flatMap fun choice => [.mark .bar] ++ choice.forms.symbolsAt .choice))
  | .last sequence => by
    rw [Choice.choices, List.flatMap_singleton, Choice.symbols]
    exact ((Sequence.removes_parts sequence).trans
      (Rule.removes_ofSeq sequence.parts_ne_nil)).cons _
  | .more sequence behind => by
    rw [Choice.choices, List.flatMap_cons, Choice.symbols, spelled_append, ← List.cons_append,
      spelled_append]
    refine RemovesPairs.append ?_ (Choice.removes_choices behind)
    exact ((Sequence.removes_parts sequence).trans
      (Rule.removes_ofSeq sequence.parts_ne_nil)).cons _

theorem Choice.removes : ∀ c : Choice,
    RemovesPairs (spelled c.symbols) (spelled (c.tree.forms.symbolsAt .top))
  | .last sequence =>
    ((Sequence.removes_parts sequence).trans (Rule.removes_ofSeq sequence.parts_ne_nil)).trans
      (Rule.removes_choice_top _)
  | .more sequence behind => by
    -- There are two choices at least, so that they do not collapse into one.
    have hsymbols : (Choice.more sequence behind).tree.forms.symbolsAt .top =
        (Rule.ofSeq sequence.parts).forms.symbolsAt .choice ++
          behind.choices.flatMap fun choice => [.mark .bar] ++ choice.forms.symbolsAt .choice := by
      obtain ⟨second, others, hchoices⟩ := List.exists_cons_of_ne_nil behind.choices_ne_nil
      rw [Choice.tree, Choice.choices, hchoices]
      exact Choice.symbols_ofList rfl
    rw [hsymbols, Choice.symbols, spelled_append, spelled_append]
    exact ((Sequence.removes_parts sequence).trans
      (Rule.removes_ofSeq sequence.parts_ne_nil)).append (Choice.removes_choices behind)

end

/-! ### Definitions -/

namespace Derivation

/-- How deeply parentheses and labels are nested in some definitions. -/
def nesting (D : Derivation) : Nat :=
  (D.map fun d => d.body.nesting).foldr max 0

/-- Definitions lose pairs until they are the canonical derivation of their entries. -/
theorem removes : ∀ D : Derivation,
    RemovesPairs (spelled D.symbols) (spelled (ofEntries D.entries).symbols)
  | [] => .refl _
  | d :: others => by
    have hhead : RemovesPairs (spelled d.symbols)
        (spelled (Definition.symbols ⟨d.head, d.body.tree.forms.choice⟩)) :=
      ((Choice.removes d.body).cons _).cons _
    have hboth := hhead.append (removes others)
    rw [← spelled_append, ← spelled_append] at hboth
    exact hboth

/-- The canonical derivation of the entries is nested no more deeply. -/
theorem nesting_ofEntries_le : ∀ D : Derivation, (ofEntries D.entries).nesting ≤ D.nesting
  | [] => Nat.le_refl _
  | d :: others => by
    have hhead := d.body.nesting_forms_le
    have hothers := nesting_ofEntries_le others
    show max d.body.tree.forms.choice.nesting (ofEntries (entries others)).nesting ≤
      max d.body.nesting (nesting others)
    omega

end Derivation

/-! ### Texts -/

/-- A token of a text has the kind and the value that its symbol has in a text. -/
theorem Token.content_symbol {t : Token} {text : List Char} (h : Spelling text t.kind t.value) :
    t.symbol.content = t.content := by
  obtain ⟨kind, span, value⟩ := t
  cases h with
  | mark hmark =>
    unfold TokenKind.ofMark? at hmark
    split at hmark <;> cases hmark <;> rfl
  | name _ _ => rfl
  | literal _ => rfl

namespace Grammar

variable {strictness : Strictness} {source : String} {tokens : List Token} {g : Grammar}

theorem spelled_symbolsOf (h : tokensOf strictness source = .ok tokens) :
    spelled (symbolsOf tokens) = contentsOf tokens := by
  rw [spelled, symbolsOf, List.map_map]
  apply List.map_congr_left
  intro t ht
  rw [← tokens_of_tokensOf h] at ht
  obtain ⟨text, hspelling⟩ := Scan.exists_spelling ht
  exact Token.content_symbol hspelling

/-- Tokens of a grammar lose pairs until they are the canonical derivation of its entries. -/
theorem removesPairs_of_ofTokens (h : ofTokens tokens = .ok g) :
    RemovesPairs (spelled (symbolsOf tokens))
      (spelled (Derivation.ofEntries g.entries).symbols) := by
  obtain ⟨D, hsymbols, -, hentries⟩ := exists_derivation h
  have hremoves := D.removes
  rw [hsymbols, hentries] at hremoves
  exact hremoves

/-- The canonical text of a grammar has the tokens of any of its texts without the parentheses
    that are not needed. Hence its tokens are the fewest that the grammar has, and no parentheses
    can be taken out of them. -/
theorem canonicalText_shortest (htokens : tokensOf strictness source = .ok tokens)
    (hread : ofTokens tokens = .ok g) :
    ∃ shortest, tokensOf .strict g.canonicalText = .ok shortest ∧
      RemovesPairs (contentsOf tokens) (contentsOf shortest) ∧
      (∃ D E : Derivation, D.symbols = symbolsOf tokens ∧ E.symbols = symbolsOf shortest ∧
        E.nesting ≤ D.nesting) ∧
      (∀ strictness' source' others, tokensOf strictness' source' = .ok others →
        ofTokens others = .ok g → shortest.length ≤ others.length ∧
          (others.length = shortest.length → contentsOf others = contentsOf shortest)) ∧
      ∀ fewer, RemovesPair (contentsOf shortest) (contentsOf fewer) → ofTokens fewer ≠ .ok g := by
  have hcanonical := canonical_of_load (load_eq_ok_iff.2 ⟨tokens, htokens, hread⟩)
  obtain ⟨shortest, hshortest, hscan⟩ := tokensOf_definitionTexts hcanonical.legible_entries
  rw [← canonicalText_eq] at hscan
  have hcontents := spelled_symbolsOf hscan
  -- Whatever is read as the grammar loses pairs until it is what the canonical text has.
  have hremoves : ∀ others, ofTokens others = .ok g →
      RemovesPairs (spelled (symbolsOf others)) (contentsOf shortest) := by
    intro others hothers
    rw [← hcontents, hshortest]
    exact removesPairs_of_ofTokens hothers
  have hfewest : ∀ others, ofTokens others = .ok g →
      spelled (symbolsOf others) = contentsOf shortest ∨ shortest.length < others.length := by
    intro others hothers
    simpa using (hremoves others hothers).eq_or_length_lt
  refine ⟨shortest, hscan, ?_, ?_, ?_, ?_⟩
  · rw [← spelled_symbolsOf htokens]
    exact hremoves tokens hread
  · obtain ⟨D, hsymbols, -, hentries⟩ := exists_derivation hread
    refine ⟨D, Derivation.ofEntries D.entries, hsymbols, ?_, D.nesting_ofEntries_le⟩
    rw [hentries, hshortest]
  · intro strictness' source' others hothers hread'
    rcases hfewest others hread' with heq | hlt
    · rw [spelled_symbolsOf hothers] at heq
      have hlength := congrArg List.length heq
      rw [length_contentsOf, length_contentsOf] at hlength
      exact ⟨Nat.le_of_eq hlength.symm, fun _ => heq⟩
    · exact ⟨Nat.le_of_lt hlt, fun heq => absurd heq (Nat.ne_of_gt hlt)⟩
  · intro fewer hpair hread'
    have hlength := hpair.length_eq
    rw [length_contentsOf, length_contentsOf] at hlength
    rcases hfewest fewer hread' with heq | hlt
    · -- With a pair less, the tokens would be fewer than the fewest.
      have := congrArg List.length heq
      rw [length_spelled, length_symbolsOf, length_contentsOf] at this
      omega
    · omega

/-- A text with a pair of parentheses that is needed, inside another pair that is not. -/
theorem canonicalText_shortest_of_needless :
    ∃ tokens g, tokensOf .strict "A = (('x' | A)?) B B = l:('y')" = .ok tokens ∧
      ofTokens tokens = .ok g ∧ g.canonicalText = "A =\n  ('x' | A)? B\n\nB =\n  l:'y'\n" ∧
      ∃ shortest, tokensOf .strict g.canonicalText = .ok shortest ∧
        RemovesPairs (contentsOf tokens) (contentsOf shortest) := by
  have hload : ofText "A = (('x' | A)?) B B = l:('y')" =
      .ok ⟨[⟨"A", .seq [.opt (.alt [.token ⟨0⟩, .node ⟨0⟩]), .node ⟨1⟩]⟩,
        ⟨"B", .labeled "l" (.token ⟨1⟩)⟩], ["x", "y"], [⟨0⟩, ⟨1⟩]⟩ := by cbv
  obtain ⟨tokens, htokens, hread⟩ := load_eq_ok_iff.1 hload
  obtain ⟨shortest, hshortest, hremoves, -⟩ := canonicalText_shortest htokens hread
  exact ⟨tokens, _, htokens, hread, by cbv, shortest, hshortest, hremoves⟩

end Grammar

end TreeGrammar
