import TreeGrammar.Proofs.CanonicalForm
import TreeGrammar.Proofs.Layout

/-! # Scanning canonical text

    The scanner cuts the canonical text of a legible rule into tokens with the
    symbols of its canonical form.

    Key idea:
    - `Scans` is about a text in front of another one, so that texts can be
      put together (`Scans.append`);
    - only a name needs to know what is behind it, and no canonical text
      continues a name: `Prints` leaves the rest open up to this;
    - rules are settled by induction, and the parentheses around them once for
      all places (`prints_textAt`).
-/

namespace TreeGrammar

/-! ### Texts in front of other texts -/

/-- In front of some other text, a text is cut into tokens with some symbols. -/
def Scans (text : List Char) (symbols : List Symbol) (rest : List Char) : Prop :=
  ∀ offset, ∃ tokens, symbolsOf tokens = symbols ∧
    Scan.ofCursor ⟨offset, text ++ rest⟩ =
      ⟨tokens ++ (Scan.ofCursor ⟨offset + byteLength text, rest⟩).tokens,
        (Scan.ofCursor ⟨offset + byteLength text, rest⟩).stop⟩

theorem Scans.append {text text' rest : List Char} {symbols symbols' : List Symbol}
    (h : Scans text symbols (text' ++ rest)) (h' : Scans text' symbols' rest) :
    Scans (text ++ text') (symbols ++ symbols') rest := by
  intro offset
  obtain ⟨tokens, hsymbols, hscan⟩ := h offset
  obtain ⟨tokens', hsymbols', hscan'⟩ := h' (offset + byteLength text)
  refine ⟨tokens ++ tokens', by rw [symbolsOf_append, hsymbols, hsymbols'], ?_⟩
  rw [List.append_assoc, hscan, hscan', byteLength_append, Nat.add_assoc, List.append_assoc]

/-- The scanner passes trivia. -/
theorem Scan.ofCursor_trivia {trivia : List Char} (h : Trivia trivia) (offset : Nat)
    (rest : List Char) :
    ofCursor ⟨offset, trivia ++ rest⟩ = ofCursor ⟨offset + byteLength trivia, rest⟩ := by
  have hskip : Cursor.skipTrivia ⟨offset, trivia ++ rest⟩ =
      Cursor.skipTrivia ⟨offset + byteLength trivia, rest⟩ := Cursor.triviaEnd_append h offset rest
  rw [ofCursor, collect, hskip]
  conv => rhs; rw [ofCursor, collect]

theorem scans_trivia {trivia : List Char} (h : Trivia trivia) (rest : List Char) :
    Scans trivia [] rest := by
  intro offset
  exact ⟨[], rfl, Scan.ofCursor_trivia h offset rest⟩

theorem scans_word {text : List Char} {kind : TokenKind} {value : Option String}
    (h : Spelling text kind value) {rest : List Char} (hrest : kind = .name → EndsName rest)
    {symbol : Symbol} (hsymbol : ∀ span, Token.symbol ⟨kind, span, value⟩ = symbol) :
    Scans text [symbol] rest := by
  intro offset
  refine ⟨[⟨kind, Span.ofLength offset (byteLength text), value⟩], ?_, ?_⟩
  · rw [symbolsOf_cons, hsymbol, symbolsOf_nil]
  · exact Scan.ofCursor_word .nil h offset hrest

theorem scans_mark {c : Char} {kind : TokenKind} (h : TokenKind.ofMark? c = some kind)
    (hname : kind ≠ .name) (hliteral : kind ≠ .literal) (rest : List Char) :
    Scans [c] [.mark kind] rest :=
  scans_word (.mark h) (fun hkind => absurd hkind hname)
    fun _ => (Token.symbol_eq_mark_iff hname hliteral).2 rfl

theorem scans_name {name : String} (h : IsName name) {rest : List Char} (hrest : EndsName rest) :
    Scans name.toList [.name name] rest := by
  apply scans_word (.name h.1 h.2) (fun _ => hrest)
  intro span
  rw [Token.symbol_eq_name_iff, Token.text, Option.getD_some, String.ofList_toList]
  exact ⟨rfl, rfl⟩

/-- The canonical spelling of a literal is one of its spellings. -/
theorem literalBody_spelling (value : List Char) :
    LiteralBody (value.flatMap Literal.spellChar) value := by
  induction value with
  | nil => exact .nil
  | cons c value ih =>
    rw [List.flatMap_cons, Literal.spellChar]
    by_cases h : c = '\\' ∨ c = '\''
    · rw [if_pos h]
      exact .escaped c ih
    · rw [if_neg h]
      rw [not_or] at h
      exact .plain h.2 h.1 ih

theorem scans_literal (text : String) (rest : List Char) :
    Scans (Literal.spelling text).toList [.literal text] rest := by
  rw [Literal.spelling, String.toList_ofList]
  apply scans_word (.literal (literalBody_spelling text.toList)) (by simp)
  intro span
  rw [Token.symbol_eq_literal_iff, Token.text, Option.getD_some, String.ofList_toList]
  exact ⟨rfl, rfl⟩

/-! ### Texts that continue no name -/

/-- A text is cut into tokens with some symbols, unless a name goes on behind it. -/
def Prints (text : String) (symbols : List Symbol) : Prop :=
  ∀ rest, EndsName rest → Scans text.toList symbols rest

theorem endsName_cons {c : Char} (h : isNameChar c = false) (rest : List Char) :
    EndsName (c :: rest) := by
  intro c' hc'
  obtain rfl : c = c' := by simpa using hc'
  exact h

theorem prints_enclose {text : String} {symbols : List Symbol} (needed : Bool)
    (h : Prints text symbols) :
    Prints (enclose needed text)
      (if needed then .mark .openParen :: (symbols ++ [.mark .closeParen]) else symbols) := by
  cases needed with
  | false => exact h
  | true =>
    intro rest _
    -- A parenthesis continues no name, so the text may have any rest behind it.
    have hopen : Scans ['('] [.mark .openParen] (text.toList ++ ([')'] ++ rest)) :=
      scans_mark (by decide) (by decide) (by decide) _
    have hinside : Scans text.toList symbols ([')'] ++ rest) :=
      h _ (endsName_cons (by decide) rest)
    have hclose : Scans [')'] [.mark .closeParen] rest :=
      scans_mark (by decide) (by decide) (by decide) rest
    rw [← List.append_assoc] at hopen
    have hscans := hopen.append (hinside.append hclose)
    simpa [enclose] using hscans

/-- Texts with separators between them are cut into what each of them and each separator is cut
    into, if the separators continue no name. -/
theorem prints_intercalate {α : Type} {separator : String} {between : List Symbol}
    (hseparator : ∀ rest, Scans separator.toList between rest)
    (hends : ∀ rest, EndsName (separator.toList ++ rest)) {text : α → String}
    {symbols : α → List Symbol} {first : α} {others : List α}
    (h : ∀ item ∈ first :: others, Prints (text item) (symbols item)) :
    Prints (separator.intercalate ((first :: others).map text))
      (symbols first ++ others.flatMap fun item => between ++ symbols item) := by
  induction others generalizing first with
  | nil =>
    have hfirst := h first (by simp)
    simpa using hfirst
  | cons second others ih =>
    rw [List.forall_mem_cons] at h
    intro rest hrest
    have hbehind := (hseparator _).append (ih h.2 rest hrest)
    have hfirst := h.1 _
      (hends ((separator.intercalate ((second :: others).map text)).toList ++ rest))
    rw [← List.append_assoc] at hfirst
    have hscans := hfirst.append hbehind
    rw [List.map_cons, List.map_cons, String.intercalate_cons_cons, String.toList_append,
      String.toList_append, List.flatMap_cons, List.append_assoc, List.append_assoc]
    exact hscans

/-! ### Rules -/

/-- What fits a place is the text of the rule, in parentheses if the rule needs them there. -/
theorem prints_textAt {rule : NamedRule} (h : Prints rule.bareText rule.forms.choice.symbols)
    (place : Place) : Prints (rule.textAt place) (rule.forms.symbolsAt place) := by
  rw [Rule.symbolsAt_forms]
  exact prints_enclose (place.needsParens rule) h

theorem Sequence.symbols_ofList {parts : List NamedRule} {first : NamedRule}
    {others : List NamedRule} (hparts : parts = first :: others) :
    (ofList ((Rule.formsOfAll parts).map Forms.atom)).symbols =
      first.forms.symbolsAt .part ++
        others.flatMap fun part => [] ++ part.forms.symbolsAt .part := by
  subst hparts
  rw [Rule.formsOfAll_eq_map, List.map_cons, List.map_cons, ofList, symbols_ofAtoms,
    List.flatMap_map, List.flatMap_map]
  rfl

theorem Choice.symbols_ofList {choices : List NamedRule} {first : NamedRule}
    {others : List NamedRule} (hchoices : choices = first :: others) :
    (ofList ((Rule.formsOfAll choices).map Forms.sequence)).symbols =
      first.forms.symbolsAt .choice ++
        others.flatMap fun choice => [.mark .bar] ++ choice.forms.symbolsAt .choice := by
  subst hchoices
  rw [Rule.formsOfAll_eq_map, List.map_cons, List.map_cons, ofList, symbols_ofSequences,
    List.flatMap_map, List.flatMap_map]
  rfl

/-- A blank between two texts is not seen. -/
theorem scans_blank (rest : List Char) : Scans " ".toList [] rest :=
  scans_trivia (.blank (by decide) .nil) rest

/-- A mark is seen, and blanks around it are not. -/
theorem scans_spaced {c : Char} {kind : TokenKind} (h : TokenKind.ofMark? c = some kind)
    (hname : kind ≠ .name) (hliteral : kind ≠ .literal) {before behind : List Char}
    (hbefore : Trivia before) (hbehind : Trivia behind) (rest : List Char) :
    Scans (before ++ c :: behind) [.mark kind] rest := by
  have hmark : Scans [c] [.mark kind] (behind ++ rest) := scans_mark h hname hliteral _
  have hinside := hmark.append (scans_trivia hbehind rest)
  exact (scans_trivia hbefore _).append hinside

/-- A mark behind a text is seen behind its symbols. -/
theorem Prints.mark_behind {text : String} {symbols : List Symbol} (h : Prints text symbols)
    {c : Char} {kind : TokenKind} (hkind : TokenKind.ofMark? c = some kind) (hname : kind ≠ .name)
    (hliteral : kind ≠ .literal) (hc : isNameChar c = false) {mark : String}
    (hmark : mark.toList = [c]) : Prints (text ++ mark) (symbols ++ [.mark kind]) := by
  intro rest _
  rw [String.toList_append, hmark]
  exact (h (c :: rest) (endsName_cons hc rest)).append (scans_mark hkind hname hliteral rest)

/-- Choices with bars between them are cut into the symbols of the choice. -/
theorem prints_choices {choices : List NamedRule} (hne : choices ≠ [])
    (h : ∀ choice ∈ choices, Prints choice.bareText choice.forms.choice.symbols)
    {separator : String} (hseparator : ∀ rest, Scans separator.toList [.mark .bar] rest)
    (hends : ∀ rest, EndsName (separator.toList ++ rest)) :
    Prints (separator.intercalate (choices.map (Rule.textAt .choice)))
      (Rule.alt choices : NamedRule).forms.choice.symbols := by
  cases choices with
  | nil => exact absurd rfl hne
  | cons first others =>
    show Prints _ (Choice.ofList ((Rule.formsOfAll (first :: others)).map Forms.sequence)).symbols
    rw [Choice.symbols_ofList rfl]
    exact prints_intercalate hseparator hends fun choice hchoice =>
      prints_textAt (h choice hchoice) .choice

/-- The canonical text of a legible rule is cut into the symbols of its canonical form. -/
theorem Rule.Legible.prints {rule : NamedRule} (h : Rule.Legible rule) :
    Prints rule.bareText rule.forms.choice.symbols := by
  induction h with
  | node hname => exact fun rest hrest => scans_name hname hrest
  | token text => exact fun rest _ => scans_literal text rest
  | @labeled label body hlabel _ ih =>
    intro rest hrest
    have hbody := prints_textAt ih .labeled rest hrest
    have hcolon : Scans [':'] [.mark .colon] ((body.textAt .labeled).toList ++ rest) :=
      scans_mark (by decide) (by decide) (by decide) _
    have hname : Scans label.toList [.name label]
        ([':'] ++ (body.textAt .labeled).toList ++ rest) :=
      scans_name hlabel (endsName_cons (by decide) _)
    have hscans := hname.append (hcolon.append hbody)
    have htext : (bareText (.labeled label body)).toList =
        label.toList ++ ([':'] ++ (body.textAt .labeled).toList) := by
      rw [bareText, textAt, String.toList_append, String.toList_append, List.append_assoc]
      rfl
    rw [htext]
    exact hscans
  | @seq parts hlength _ ih =>
    have hne : parts ≠ [] := by
      rintro rfl
      simp at hlength
    obtain ⟨first, others, rfl⟩ := List.exists_cons_of_ne_nil hne
    show Prints _ (Sequence.ofList ((Rule.formsOfAll (first :: others)).map Forms.atom)).symbols
    rw [bareText, textsAt_eq_map, Sequence.symbols_ofList rfl]
    exact prints_intercalate scans_blank (fun rest => endsName_cons (by decide) rest)
      fun part hpart => prints_textAt (ih part hpart) .part
  | @alt choices hlength _ ih =>
    have hne : choices ≠ [] := by
      rintro rfl
      simp at hlength
    have hblank : Trivia [' '] := .blank (by decide) .nil
    rw [bareText, textsAt_eq_map]
    exact prints_choices hne ih
      (scans_spaced (by decide) (by decide) (by decide) hblank hblank)
      fun rest => endsName_cons (by decide) _
  | @opt body _ ih =>
    exact (prints_textAt ih .quantified).mark_behind (by decide) (by decide) (by decide)
      (by decide) rfl
  | @rep body _ ih =>
    exact (prints_textAt ih .quantified).mark_behind (by decide) (by decide) (by decide)
      (by decide) rfl

/-! ### Definitions -/

/-- The choices of a definition, each on a line of its own. -/
theorem prints_choiceTexts {rule : NamedRule} (h : Rule.Legible rule) :
    Prints ("\n| ".intercalate rule.choiceTexts) rule.forms.choice.symbols := by
  have hwhole : Prints ("\n| ".intercalate [rule.textAt .top]) rule.forms.choice.symbols := by
    rw [String.intercalate_singleton]
    exact prints_textAt h.prints .top
  cases h with
  | @alt choices hlength hchoices =>
    have hne : choices ≠ [] := by
      rintro rfl
      simp at hlength
    have hbefore : Trivia ['\n'] := .blank (by decide) .nil
    have hbehind : Trivia [' '] := .blank (by decide) .nil
    exact prints_choices hne (fun choice hchoice => (hchoices choice hchoice).prints)
      (scans_spaced (by decide) (by decide) (by decide) hbefore hbehind)
      fun rest => endsName_cons (by decide) _
  | node _ => exact hwhole
  | token _ => exact hwhole
  | labeled _ _ => exact hwhole
  | seq _ _ => exact hwhole
  | opt _ => exact hwhole
  | rep _ => exact hwhole

/-- The canonical text of a definition is cut into the symbols of its canonical form. -/
theorem prints_definitionText {name : String} {rule : NamedRule} (hname : IsName name)
    (h : Rule.Legible rule) :
    Prints (definitionText name rule) (Definition.symbols ⟨name, rule.forms.choice⟩) := by
  intro rest _
  have hblank : Trivia [' '] := .blank (by decide) .nil
  have hindent : Trivia ['\n', ' ', ' '] :=
    .blank (by decide) (.blank (by decide) (.blank (by decide) .nil))
  have hline : Scans ['\n'] [] rest := scans_trivia (.blank (by decide) .nil) rest
  have hbody := (prints_choiceTexts h ('\n' :: rest) (endsName_cons (by decide) rest)).append hline
  have hequals : ∀ behind, Scans ([' '] ++ '=' :: ['\n', ' ', ' ']) [.mark .equals] behind :=
    scans_spaced (by decide) (by decide) (by decide) hblank hindent
  have hrest := (hequals _).append hbody
  have hscans := (scans_name hname (endsName_cons (by decide) _)).append hrest
  have htext : (definitionText name rule).toList =
      name.toList ++ (([' '] ++ '=' :: ['\n', ' ', ' ']) ++
        (("\n| ".intercalate rule.choiceTexts).toList ++ ['\n'])) := by
    rw [definitionText]
    simp only [String.toList_append, List.append_assoc]
    rfl
  rw [htext]
  simpa [Definition.symbols] using hscans

/-- The canonical derivation of some entries. -/
def Derivation.ofEntries (entries : List (String × NamedRule)) : Derivation :=
  entries.map fun entry => ⟨entry.1, entry.2.forms.choice⟩

/-- The canonical texts of definitions, with an empty line between them, are cut into the symbols
    of their canonical derivation. -/
theorem prints_definitionTexts {entries : List (String × NamedRule)}
    (h : ∀ entry ∈ entries, IsName entry.1 ∧ Rule.Legible entry.2) :
    Prints ("\n".intercalate (entries.map fun entry => definitionText entry.1 entry.2))
      (Derivation.ofEntries entries).symbols := by
  cases entries with
  | nil =>
    intro rest _
    exact scans_trivia .nil rest
  | cons first others =>
    have hline : ∀ rest, Scans "\n".toList [] rest := scans_trivia (.blank (by decide) .nil)
    have hprints := prints_intercalate hline (fun rest => endsName_cons (by decide) rest)
      fun entry hentry => prints_definitionText (h entry hentry).1 (h entry hentry).2
    simpa [Derivation.ofEntries, Derivation.symbols, List.flatMap_map] using hprints

end TreeGrammar
