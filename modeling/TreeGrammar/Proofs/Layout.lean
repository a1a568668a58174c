import TreeGrammar.Proofs.Spelling

/-! # Layouts

    A layout cuts a text into words with trivia between them. The scanner
    finds the tokens that some layout of the text spells, and a text has one
    layout at most that spells tokens.

    Key idea:
    - `Layout.Spells` ties a layout to the tokens of its words, from an
      offset on;
    - the scanner does one word after the other: where it finds a word it has
      passed trivia (`Scan.exists_word`), and where there are trivia and a
      word it finds the word (`Scan.ofCursor_word`);
    - two names may not touch, since they would be one, and the trivia
      between any other two words may be empty.
-/

namespace TreeGrammar

/-- A text, cut into words with trivia before each of them and behind the last one. -/
inductive Layout where
  /-- No word is left. -/
  | last (trivia : List Char)
  /-- Trivia and a word. -/
  | word (trivia text : List Char) (behind : Layout)
  deriving DecidableEq, Repr

namespace Layout

/-- The text that is cut. -/
def text : Layout → List Char
  | .last trivia => trivia
  | .word trivia text behind => trivia ++ (text ++ behind.text)

/-- The trivia in front of the first word. -/
def trivia : Layout → List Char
  | .last trivia => trivia
  | .word trivia _ _ => trivia

/-- The first token is a name. -/
def StartsName : List Token → Prop
  | [] => False
  | t :: _ => t.kind = .name

/-- The words of a layout that starts at an offset spell some tokens. -/
inductive Spells : Nat → Layout → List Token → Prop where
  | last {offset : Nat} {trivia : List Char} : FinalTrivia trivia → Spells offset (.last trivia) []
  | word {offset : Nat} {trivia text : List Char} {behind : Layout} {t : Token}
      {tokens : List Token} :
      Trivia trivia → Spelling text t.kind t.value →
      t.span = Span.ofLength (offset + byteLength trivia) (byteLength text) →
      (t.kind = .name → StartsName tokens → behind.trivia ≠ []) →
      Spells (offset + byteLength trivia + byteLength text) behind tokens →
        Spells offset (.word trivia text behind) (t :: tokens)

/-- Behind a name that is apart from the next one, no name goes on. -/
theorem Spells.endsName {offset : Nat} {layout : Layout} {tokens : List Token}
    (h : layout.Spells offset tokens) (hapart : StartsName tokens → layout.trivia ≠ []) :
    EndsName layout.text := by
  cases h with
  | last htrivia => exact htrivia.endsName
  | @word _ trivia text behind t tokens htrivia hspelling _ _ _ =>
    by_cases hne : trivia = []
    · subst hne
      refine hspelling.endsName ?_ _
      intro hname
      exact hapart hname rfl
    · exact htrivia.endsName hne _

/-- The other way round, two names are apart if no name goes on behind the first. -/
theorem Spells.apart {offset : Nat} {layout : Layout} {tokens : List Token}
    (h : layout.Spells offset tokens) (hends : EndsName layout.text)
    (hname : StartsName tokens) : layout.trivia ≠ [] := by
  cases h with
  | last _ => exact hname.elim
  | @word _ trivia text behind t tokens _ hspelling _ _ _ =>
    rintro rfl
    have hkind : t.kind = .name := hname
    rw [hkind] at hspelling
    exact hspelling.not_endsName _ hends

/-- The spans of the tokens tell where the text is cut. -/
theorem Spells.unique {offset : Nat} {layout layout' : Layout} {tokens : List Token}
    (h : layout.Spells offset tokens) (h' : layout'.Spells offset tokens)
    (htext : layout.text = layout'.text) : layout = layout' := by
  induction h generalizing layout' with
  | last _ =>
    cases h' with
    | last _ => exact congrArg Layout.last htext
  | @word offset trivia text behind t tokens _ _ hspan _ _ ih =>
    cases h' with
    | @word _ trivia' text' behind' _ _ _ _ hspan' _ hbehind' =>
      -- The start of the span is the end of the trivia, and its end is the end of the word.
      have hspans := hspan.symm.trans hspan'
      have hstart := congrArg Span.start hspans
      have hstop := congrArg Span.stop hspans
      simp only [Span.start_ofLength, Span.stop_ofLength] at hstart hstop
      obtain ⟨rfl, hrest⟩ := eq_of_append_eq_of_byteLength_eq htext (by omega)
      obtain ⟨rfl, hbehind⟩ := eq_of_append_eq_of_byteLength_eq hrest (by omega)
      rw [ih hbehind' hbehind]

end Layout

/-! ### Scans -/

namespace Scan

theorem isValid_of_spelling {text : List Char} {kind : TokenKind} {value : Option String}
    (h : Spelling text kind value) : kind.isValid = true := by
  cases h with
  | mark hmark => exact Lexeme.isValid_of_ofMark? hmark
  | name _ _ => rfl
  | literal _ => rfl

/-- A word behind trivia is found, unless it is a name that goes on. -/
theorem ofCursor_word {trivia text : List Char} {kind : TokenKind} {value : Option String}
    (htrivia : Trivia trivia) (hspelling : Spelling text kind value) (offset : Nat)
    {rest : List Char} (hrest : kind = .name → EndsName rest) :
    ofCursor ⟨offset, trivia ++ (text ++ rest)⟩ =
      ⟨⟨kind, Span.ofLength (offset + byteLength trivia) (byteLength text), value⟩ ::
          (ofCursor ⟨offset + byteLength trivia + byteLength text, rest⟩).tokens,
        (ofCursor ⟨offset + byteLength trivia + byteLength text, rest⟩).stop⟩ := by
  have hskip : Cursor.skipTrivia ⟨offset, trivia ++ (text ++ rest)⟩ =
      ⟨offset + byteLength trivia, text ++ rest⟩ := by
    rw [Cursor.skipTrivia, Cursor.triviaEnd_append htrivia, Cursor.triviaEnd_word hspelling]
  have hnext : Cursor.next ⟨offset + byteLength trivia, text ++ rest⟩ =
      (⟨kind, Span.ofLength (offset + byteLength trivia) (byteLength text), value⟩,
        ⟨offset + byteLength trivia + byteLength text, rest⟩) := by
    rw [Cursor.next]
    show (_, Cursor.past _ (Lexeme.first (text ++ rest)).text) = _
    rw [Lexeme.first_complete hspelling hrest]
    simp [Cursor.past]
  rw [ofCursor_of_isValid, hskip, hnext]
  rw [hskip, hnext]
  exact isValid_of_spelling hspelling

/-- Behind the last word there is nothing to be found. -/
theorem ofCursor_final {trivia : List Char} (h : FinalTrivia trivia) (offset : Nat) :
    ofCursor ⟨offset, trivia⟩ = ⟨[], ⟨offset + byteLength trivia, []⟩⟩ := by
  have hskip : Cursor.skipTrivia ⟨offset, trivia⟩ = ⟨offset + byteLength trivia, []⟩ :=
    Cursor.triviaEnd_final h offset
  rw [ofCursor_of_not_isValid, hskip]
  rw [hskip]
  rfl

/-- What is found first is a word behind trivia. -/
theorem exists_word {c : Cursor} (h : c.skipTrivia.next.1.kind.isValid = true) :
    ∃ trivia text rest, ∃ t : Token, c.rest = trivia ++ (text ++ rest) ∧
      rest.length < c.rest.length ∧ Trivia trivia ∧
      Spelling text t.kind t.value ∧ (t.kind = .name → EndsName rest) ∧
      t.span = Span.ofLength (c.offset + byteLength trivia) (byteLength text) ∧
      ofCursor c =
        ⟨t :: (ofCursor ⟨c.offset + byteLength trivia + byteLength text, rest⟩).tokens,
          (ofCursor ⟨c.offset + byteLength trivia + byteLength text, rest⟩).stop⟩ := by
  obtain ⟨offset, cs⟩ := c
  obtain ⟨trivia, hpasses, hpassed⟩ := Cursor.triviaEnd_sound false offset cs
  obtain ⟨rest, hrest, hspelling, hends⟩ := Lexeme.first_sound h
  -- A token has characters, so the trivia in front of it are not at the end.
  have htrivia : Trivia trivia := by
    rcases hpassed with ⟨hnil, -⟩ | htrivia
    · change (Cursor.triviaEnd false offset cs).next.1.kind.isValid = true at h
      rw [Cursor.next, hnil] at h
      simp [Lexeme.first, Lexeme.mark, TokenKind.isValid] at h
    · exact htrivia
  have hcs : cs =
      trivia ++ ((Lexeme.first (Cursor.skipTrivia ⟨offset, cs⟩).rest).text ++ rest) := by
    rw [← hrest]
    exact hpasses.text
  have hlt : rest.length < cs.length := by
    obtain ⟨c, text, htext, -⟩ := hspelling.exists_cons
    have hlength := congrArg List.length hcs
    rw [htext] at hlength
    simp only [List.length_append, List.length_cons] at hlength
    omega
  refine ⟨trivia, _, rest, ⟨_, Span.ofLength (offset + byteLength trivia) (byteLength _), _⟩,
    hcs, hlt, htrivia, hspelling, hends, rfl, ?_⟩
  conv => lhs; rw [hcs]
  exact ofCursor_word htrivia hspelling offset hends

/-- Every token that is found has a spelling. -/
theorem exists_spelling {c : Cursor} {t : Token} (h : t ∈ (ofCursor c).tokens) :
    ∃ text, Spelling text t.kind t.value := by
  induction hlength : c.rest.length using Nat.strongRecOn generalizing c with
  | ind length ih =>
    by_cases hvalid : c.skipTrivia.next.1.kind.isValid = true
    · obtain ⟨trivia, text, rest, t', -, hlt, -, hspelling, -, -, hscan⟩ := exists_word hvalid
      rw [hscan] at h
      rcases List.mem_cons.1 h with rfl | hmem
      · exact ⟨text, hspelling⟩
      · exact ih rest.length (hlength ▸ hlt) hmem rfl
    · rw [ofCursor_of_not_isValid (by simpa using hvalid)] at h
      simp at h

/-- The tokens of a layout are found. -/
theorem ofCursor_of_spells {offset : Nat} {layout : Layout} {tokens : List Token}
    (h : layout.Spells offset tokens) :
    (ofCursor ⟨offset, layout.text⟩).tokens = tokens ∧
      (ofCursor ⟨offset, layout.text⟩).stop.rest = [] := by
  induction h with
  | last htrivia =>
    rw [Layout.text, ofCursor_final htrivia]
    exact ⟨rfl, rfl⟩
  | @word offset trivia text behind t tokens htrivia hspelling hspan hapart hbehind ih =>
    obtain ⟨kind, span, value⟩ := t
    obtain rfl : span = _ := hspan
    have hends : kind = .name → EndsName behind.text := fun hkind =>
      hbehind.endsName (hapart hkind)
    rw [Layout.text, ofCursor_word htrivia hspelling offset hends, ih.1]
    exact ⟨rfl, ih.2⟩

/-- If tokens are found up to the end of a text, some layout of the text spells them. -/
theorem exists_layout {c : Cursor} (h : (ofCursor c).stop.rest = []) :
    ∃ layout : Layout, layout.text = c.rest ∧ layout.Spells c.offset (ofCursor c).tokens := by
  induction hlength : c.rest.length using Nat.strongRecOn generalizing c with
  | ind length ih =>
    by_cases hvalid : c.skipTrivia.next.1.kind.isValid = true
    · obtain ⟨trivia, text, rest, t, hcs, hlt, htrivia, hspelling, hends, hspan, hscan⟩ :=
        exists_word hvalid
      rw [hscan] at h
      obtain ⟨behind, hbehind, hspells⟩ := ih rest.length (hlength ▸ hlt) h rfl
      have hbehind : behind.text = rest := hbehind
      refine ⟨.word trivia text behind, ?_, ?_⟩
      · rw [Layout.text, hbehind, hcs]
      · rw [hscan]
        refine .word htrivia hspelling hspan ?_ hspells
        intro hname
        rw [← hbehind] at hends
        exact hspells.apart (hends hname)
    · -- No word was found, so nothing but trivia is left.
      rw [Bool.not_eq_true] at hvalid
      rw [ofCursor_of_not_isValid hvalid] at h ⊢
      obtain ⟨skipped, hpasses, hpassed⟩ := Cursor.triviaEnd_sound false c.offset c.rest
      have hcs : c.rest = skipped := by
        have := hpasses.text
        rwa [show (Cursor.triviaEnd false c.offset c.rest).rest = [] from h, List.append_nil]
          at this
      refine ⟨.last skipped, hcs.symm, .last ?_⟩
      rcases hpassed with ⟨-, hfinal⟩ | htrivia
      · exact hfinal
      · exact .closed htrivia

theorem complete_eq_ok_iff {s : Scan} {tokens : List Token} :
    s.complete = .ok tokens ↔ s.stop.rest = [] ∧ s.tokens = tokens := by
  unfold complete fault?
  cases hrest : s.stop.rest with
  | nil => simp
  | cons c cs =>
    by_cases hquote : c = '\'' <;> simp [hquote]

/-- A strict scan of a text succeeds with some tokens exactly if a layout of the text spells them,
    and no other layout of it spells these or any other tokens. -/
theorem complete_iff_layout (source : String) (tokens : List Token) :
    ((ofText source).complete = .ok tokens ↔
      ∃ layout : Layout, layout.text = source.toList ∧ layout.Spells 0 tokens) ∧
    ∀ (layout layout' : Layout) (tokens' : List Token),
      layout.text = source.toList → layout.Spells 0 tokens →
      layout'.text = source.toList → layout'.Spells 0 tokens' →
        layout' = layout ∧ tokens' = tokens := by
  constructor
  · rw [complete_eq_ok_iff]
    constructor
    · intro h
      obtain ⟨hrest, rfl⟩ := h
      exact exists_layout hrest
    · intro h
      obtain ⟨layout, htext, hspells⟩ := h
      obtain ⟨htokens, hrest⟩ := ofCursor_of_spells hspells
      rw [htext] at htokens hrest
      exact ⟨hrest, htokens⟩
  · intro layout layout' tokens' htext hspells htext' hspells'
    have hsame : layout'.text = layout.text := htext'.trans htext.symm
    have htokens := (ofCursor_of_spells hspells).1
    have htokens' := (ofCursor_of_spells hspells').1
    rw [hsame, htokens] at htokens'
    subst htokens'
    exact ⟨hspells'.unique hspells hsame, rfl⟩

end Scan

end TreeGrammar
