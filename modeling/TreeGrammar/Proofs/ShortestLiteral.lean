import TreeGrammar.Proofs.CanonicalText
import TreeGrammar.Proofs.Stepping

/-! # The shortest spelling of a literal

    The canonical spelling of a value is read back as that value, whatever
    text is behind it, and every other spelling of the value is longer.

    Key idea:
    - a spelling has to put a backslash in front of apostrophes and
      backslashes, and may put one in front of any other character; the
      canonical spelling never does (`LiteralBody.eq_or_lt`);
    - a token is cut out of its source, so what is known of spellings holds of
      every literal that is taken from any source, after any calls
      (`Cursor.exists_of_mem_answer`).
-/

namespace TreeGrammar

/-! ### Spellings of one value -/

namespace Literal

theorem spellChar_special {c : Char} (h : c = '\\' ∨ c = '\'') : spellChar c = ['\\', c] :=
  if_pos h

theorem spellChar_plain {c : Char} (h : ¬ (c = '\\' ∨ c = '\'')) : spellChar c = [c] :=
  if_neg h

theorem toList_spelling (value : String) :
    (spelling value).toList = '\'' :: (value.toList.flatMap spellChar ++ ['\'']) := by
  rw [spelling, String.toList_ofList, List.cons_append]

/-- The canonical spelling of a value spells it. -/
theorem spelling_spells (value : String) :
    Spelling (spelling value).toList .literal (some value) := by
  have hspelling := Spelling.literal (literalBody_spelling value.toList)
  rwa [← toList_spelling, String.ofList_toList] at hspelling

/-- The canonical spelling is the first lexeme in front of any text. -/
theorem first_spelling (value : String) (rest : List Char) :
    Lexeme.first ((spelling value).toList ++ rest) =
      ⟨.literal, (spelling value).toList, some value⟩ :=
  Lexeme.first_complete (spelling_spells value) (by simp)

end Literal

/-- What may stand inside a literal is what the canonical spelling puts there, or it takes more
    bytes. -/
theorem LiteralBody.eq_or_lt {text value : List Char} (h : LiteralBody text value) :
    text = value.flatMap Literal.spellChar ∨
      byteLength (value.flatMap Literal.spellChar) < byteLength text := by
  induction h with
  | nil => exact .inl rfl
  | @plain c text value hquote hslash _ ih =>
    have hplain := Literal.spellChar_plain (not_or.2 ⟨hslash, hquote⟩)
    simp only [List.flatMap_cons, hplain, List.singleton_append, byteLength_cons]
    rcases ih with rfl | hlt
    · exact .inl rfl
    · exact .inr (by omega)
  | @escaped c text value _ ih =>
    rw [List.flatMap_cons]
    by_cases hspecial : c = '\\' ∨ c = '\''
    · simp only [Literal.spellChar_special hspecial, List.cons_append, List.nil_append,
        byteLength_cons]
      rcases ih with rfl | hlt
      · exact .inl rfl
      · exact .inr (by omega)
    · -- The backslash in front of this character could be left out.
      have hslash := ('\\' : Char).utf8Size_pos
      simp only [Literal.spellChar_plain hspecial, List.singleton_append, byteLength_cons]
      rcases ih with rfl | hlt
      · exact .inr (by omega)
      · exact .inr (by omega)

/-- A spelling of a value as a literal is the canonical one, or it takes more bytes. -/
theorem Spelling.eq_or_lt {text : List Char} {value : String}
    (h : Spelling text .literal (some value)) :
    text = (Literal.spelling value).toList ∨
      byteLength (Literal.spelling value).toList < byteLength text := by
  obtain ⟨inside, chars, rfl, hbody, hvalue⟩ := h.value_of_literal
  obtain rfl := Option.some.inj hvalue
  rw [Literal.toList_spelling, String.toList_ofList]
  simp only [byteLength_cons, byteLength_append]
  rcases hbody.eq_or_lt with rfl | hlt
  · exact .inl rfl
  · exact .inr (by omega)

/-! ### Tokens -/

/-- A token of a source is no shorter than some text, and no other text if it is as short. -/
structure Token.NoShorter (source text : String) (t : Token) : Prop where
  /-- It takes as many bytes or more. -/
  le : byteLength text.toList ≤ t.span.length
  /-- It is cut out of the source, and is the text itself if it takes no more bytes. -/
  cut : ∃ lexeme, t.span.text? source = some lexeme ∧ t.span.length = byteLength lexeme.toList ∧
    (t.span.length = byteLength text.toList → lexeme = text)

namespace Cursor

variable {source : String} {c : Cursor}

/-- The canonical spelling is the next token wherever it stands, and the cursor goes right behind
    it. -/
theorem next_spelling (offset : Nat) (value : String) (rest : List Char) :
    next ⟨offset, (Literal.spelling value).toList ++ rest⟩ =
      (⟨.literal, Span.ofLength offset (byteLength (Literal.spelling value).toList), some value⟩,
        ⟨offset + byteLength (Literal.spelling value).toList, rest⟩) := by
  simp only [next, past, Literal.first_spelling, List.drop_left]

/-- No literal of some value is shorter than its canonical spelling. -/
theorem In.noShorter (h : c.In source) {value : String} (hkind : c.next.1.kind = .literal)
    (hvalue : c.next.1.value = some value) :
    c.next.1.NoShorter source (Literal.spelling value) := by
  have hspelling := spelling_next (c := c) (by rw [hkind]; rfl)
  rw [hkind, hvalue] at hspelling
  have hlength : c.next.1.span.length = byteLength (Lexeme.first c.rest).text :=
    Span.length_ofLength _ _
  refine ⟨?_, _, h.text?_next, by rw [String.toList_ofList, hlength], ?_⟩
  · rcases hspelling.eq_or_lt with heq | hlt
    · rw [hlength, heq]
    · omega
  · intro heq
    rcases hspelling.eq_or_lt with htext | hlt
    · rw [htext, String.ofList_toList]
    · omega

/-- What calls give is what stands at some cursors of the text. -/
theorem exists_of_mem_answer (h : c.In source) {calls : List Call} {t : Token}
    (ht : t ∈ (c.answer calls).1) : ∃ c' : Cursor, c'.In source ∧ c'.next.1 = t := by
  induction calls generalizing c with
  | nil => exact absurd ht List.not_mem_nil
  | cons call calls ih =>
    cases call with
    | skipTrivia => exact ih h.skipTrivia ht
    | next =>
      rcases List.mem_cons.1 ht with rfl | ht
      · exact ⟨c, h, rfl⟩
      · exact ih h.next ht

end Cursor

namespace Literal

/-- In front of any text, the canonical spelling of a value is taken as a literal of this value,
    exactly up to its end. Whatever literals of the value are taken from whatever source, by the
    cursor and byte by byte, none is shorter, and only the canonical spelling is as short. -/
theorem spelling_shortest (value : String) :
    let length := byteLength (spelling value).toList
    let token : Token := ⟨.literal, Span.ofLength 0 length, some value⟩
    (∀ rest : String,
      (Cursor.ofText (spelling value ++ rest)).next = (token, ⟨length, rest.toList⟩) ∧
      token.span.text? (spelling value ++ rest) = some (spelling value) ∧
      (byteLength (spelling value ++ rest).toList ≤ Bytewise.maxOffset →
        Bytewise.nextToken (spelling value ++ rest) 0 = .ok token length)) ∧
    ∀ (source : String) (calls : List Call),
      (byteLength source.toList ≤ Bytewise.maxOffset →
        ∃ stop, Bytewise.answer source calls 0 =
          .ok ((Cursor.ofText source).answer calls).1 stop) ∧
      ∀ t ∈ ((Cursor.ofText source).answer calls).1, t.kind = .literal → t.value = some value →
        t.NoShorter source (spelling value) := by
  intro length token
  refine ⟨fun rest => ?_, fun source calls => ⟨fun hroom => ?_, ?_⟩⟩
  · have hin := Cursor.in_ofText (spelling value ++ rest)
    have hnext : (Cursor.ofText (spelling value ++ rest)).next =
        (token, ⟨length, rest.toList⟩) := by
      rw [Cursor.ofText, String.toList_append, Cursor.next_spelling, Nat.zero_add]
    have htext := hin.text?_next
    rw [hnext, Cursor.ofText, String.toList_append, first_spelling, String.ofList_toList] at htext
    refine ⟨hnext, htext, fun hroom => ?_⟩
    have hbytes := (hin.steps hroom).next_bytes
    rwa [hnext] at hbytes
  · exact ⟨_, Bytewise.answer_apply hroom (Cursor.in_ofText source) calls⟩
  · intro t ht hkind hvalue
    obtain ⟨c, hin, rfl⟩ := Cursor.exists_of_mem_answer (Cursor.in_ofText source) ht
    exact hin.noShorter hkind hvalue

/-- A value that ends in a backslash, in front of another apostrophe, and a spelling of it with a
    backslash more. -/
theorem spelling_shortest_backslash :
    let source := "'\\é\\\\'"
    (Cursor.ofText (spelling "é\\" ++ "'")).next =
      (⟨.literal, Span.ofLength 0 6, some "é\\"⟩, ⟨6, ['\'']⟩) ∧
    Bytewise.nextToken (spelling "é\\" ++ "'") 0 =
      .ok ⟨.literal, Span.ofLength 0 6, some "é\\"⟩ 6 ∧
    ((Cursor.ofText source).answer [.next]).1 = [⟨.literal, Span.ofLength 0 7, some "é\\"⟩] ∧
    Token.NoShorter source (spelling "é\\") ⟨.literal, Span.ofLength 0 7, some "é\\"⟩ := by
  intro source
  have hanswer : ((Cursor.ofText source).answer [.next]).1 =
      [⟨.literal, Span.ofLength 0 7, some "é\\"⟩] := by decide
  obtain ⟨hread, hshortest⟩ := spelling_shortest "é\\"
  obtain ⟨hnext, -, hbytes⟩ := hread "'"
  obtain ⟨-, htokens⟩ := hshortest source [.next]
  rw [hanswer] at htokens
  exact ⟨hnext, hbytes (by decide), hanswer, htokens _ List.mem_cons_self rfl rfl⟩

end Literal

end TreeGrammar
