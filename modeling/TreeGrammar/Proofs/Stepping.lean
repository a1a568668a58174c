import TreeGrammar.Proofs.Bytewise

/-! # Steps in any order

    A caller may skip trivia and take tokens in any order: take a token in
    front of blanks, or go on behind an invalid one. Wherever that leads, the
    reader of bytes meets no fault, and both readers agree.

    Key idea:
    - every call leads from a cursor of the text to a cursor of the text, so
      the calls made before do not matter (`answer_sound`);
    - what the next call does from such a cursor is settled once, by the
      lexeme that stands there (`Cursor.Steps`).
-/

namespace TreeGrammar

/-- What a caller can ask for. -/
inductive Call where
  | skipTrivia
  | next
  deriving DecidableEq, Repr

namespace Cursor

/-- The tokens that some calls give, one after the other, and the place that they lead to. -/
def answer : Cursor → List Call → List Token × Cursor
  | c, [] => ([], c)
  | c, .skipTrivia :: calls => c.skipTrivia.answer calls
  | c, .next :: calls => (c.next.1 :: (c.next.2.answer calls).1, (c.next.2.answer calls).2)

end Cursor

namespace Bytewise

/-- The same, byte by byte. -/
def answer (source : String) : List Call → ByteM (List Token)
  | [] => return []
  | .skipTrivia :: calls => do
    skipTrivia source
    answer source calls
  | .next :: calls => do
    let token ← nextToken source
    return token :: (← answer source calls)

end Bytewise

/-! ### Values of tokens -/

theorem Spelling.value_of_name {text : List Char} {value : Option String}
    (h : Spelling text .name value) : value = some (String.ofList text) := by
  cases h with
  | mark hmark => exact absurd rfl (Lexeme.ne_of_ofMark? hmark).1
  | name _ _ => rfl

theorem Spelling.value_of_literal {text : List Char} {value : Option String}
    (h : Spelling text .literal value) :
    ∃ inside chars, text = '\'' :: (inside ++ ['\'']) ∧ LiteralBody inside chars ∧
      value = some (String.ofList chars) := by
  cases h with
  | mark hmark => exact absurd rfl (Lexeme.ne_of_ofMark? hmark).2
  | literal hbody => exact ⟨_, _, rfl, hbody, rfl⟩

/-- What is no token is a literal without an end or a character that starts none. -/
theorem Lexeme.text_of_invalid {cs : List Char} (h : (first cs).kind = .invalid) :
    (first cs).text.head? = some '\'' ∧ (first cs).text = cs ∨
      ∃ c, c ≠ '\'' ∧ (first cs).text = [c] := by
  cases cs with
  | nil => simp [first, mark] at h
  | cons c cs =>
    cases hmark : TokenKind.ofMark? c with
    | some kind =>
      have hvalid := isValid_of_ofMark? hmark
      rw [first_mark hmark] at h
      obtain rfl : kind = .invalid := h
      simp [TokenKind.isValid] at hvalid
    | none =>
      by_cases hquote : c = '\''
      · subst hquote
        rw [first_quote] at h ⊢
        unfold literal at h ⊢
        cases hinside : Literal.inside? cs with
        | none => exact .inl ⟨rfl, rfl⟩
        | some i => simp [hinside] at h
      · cases hname : isNameChar c with
        | true => simp [first_nameChar hname, name] at h
        | false => exact .inr ⟨c, hquote, by rw [first_invalid hmark hquote hname]; rfl⟩

/-- What a token says about the text that it stands for. -/
structure Token.Reads (source : String) (t : Token) (text : List Char) : Prop where
  /-- The span can be cut out of the source. -/
  span : t.span.text? source = some (String.ofList text)
  /-- A name is the text itself. -/
  name : t.kind = .name → t.value = some (String.ofList text)
  /-- A literal is what stands between the apostrophes, each backslash that takes a character
      left out. -/
  literal : t.kind = .literal → ∃ inside chars, text = '\'' :: (inside ++ ['\'']) ∧
    LiteralBody inside chars ∧ t.value = some (String.ofList chars)
  /-- What starts like a literal and is none goes on to the end of the source. -/
  unclosed : t.kind = .invalid → text.head? = some '\'' → t.span.stop = byteLength source.toList
  /-- Anything else that is no token is one character. -/
  stray : t.kind = .invalid → text.head? ≠ some '\'' → ∃ c, text = [c]

/-! ### One step -/

/-- What the next call does from a cursor, whichever it is. -/
structure Cursor.Steps (source : String) (c : Cursor) : Prop where
  /-- The cursor is between two characters, at the start or at the end of the source. -/
  boundary : Boundary source c.offset
  /-- It is not behind the source. -/
  within : c.offset ≤ byteLength source.toList
  /-- Byte by byte, trivia are skipped to the same place. -/
  skip_bytes : Bytewise.skipTrivia source c.offset = .ok () c.skipTrivia.offset
  /-- Skipping trivia does not lead back. -/
  skip_forward : c.offset ≤ c.skipTrivia.offset
  /-- Skipping them again does nothing. -/
  skip_again : c.skipTrivia.skipTrivia = c.skipTrivia
  /-- Byte by byte, the next token is the same. -/
  next_bytes : Bytewise.nextToken source c.offset = .ok c.next.1 c.next.2.offset
  /-- Its span goes from the place before to the place behind. -/
  next_start : c.next.1.span.start = c.offset
  next_stop : c.next.1.span.stop = c.next.2.offset
  /-- The span, and the value, are those of a piece of the source. -/
  next_reads : ∃ text, c.next.1.Reads source text
  /-- The end is found at the end only, and there again and again. -/
  next_end : c.next.1.kind = .endOfText ↔ c.offset = byteLength source.toList
  next_stays : c.next.1.kind = .endOfText → c.next.2 = c
  /-- Anything else takes some of the text. -/
  next_forward : c.next.1.kind ≠ .endOfText → c.offset < c.next.2.offset

namespace Cursor

variable {source : String} {c : Cursor}

/-- Behind trivia there are none. -/
theorem skipTrivia_triviaEnd (comment : Bool) (offset : Nat) (cs : List Char) :
    (triviaEnd comment offset cs).skipTrivia = triviaEnd comment offset cs := by
  fun_induction triviaEnd comment offset cs with
  | case1 => rfl
  | case2 _ _ _ ih => exact ih
  | case3 _ _ _ _ _ _ ih => exact ih
  | case4 _ _ _ _ _ _ _ ih => exact ih
  | case5 comment offset c cs hcomment hblank hslash =>
    rw [skipTrivia, triviaEnd, if_neg (by simp), if_neg hblank, if_neg hslash]

theorem In.next_eq_end_iff (h : c.In source) :
    c.next.1.kind = .endOfText ↔ c.offset = byteLength source.toList := by
  have hadd := h.offset_add
  show (Lexeme.first c.rest).kind = .endOfText ↔ _
  rw [Lexeme.kind_eq_endOfText_iff, ← byteLength_eq_zero_iff]
  omega

theorem spelling_next (h : c.next.1.kind.isValid = true) :
    Spelling (Lexeme.first c.rest).text c.next.1.kind c.next.1.value := by
  obtain ⟨-, -, hspelling, -⟩ := Lexeme.first_sound h
  exact hspelling

/-- The next token is read from the text of its lexeme. -/
theorem In.reads (h : c.In source) : c.next.1.Reads source (Lexeme.first c.rest).text where
  span := h.text?_next
  name hkind := by
    have hspelling := spelling_next (c := c) (by rw [hkind]; rfl)
    rw [hkind] at hspelling
    exact hspelling.value_of_name
  literal hkind := by
    have hspelling := spelling_next (c := c) (by rw [hkind]; rfl)
    rw [hkind] at hspelling
    exact hspelling.value_of_literal
  unclosed hkind hhead := by
    rcases Lexeme.text_of_invalid hkind with ⟨-, htext⟩ | ⟨c', hne, htext⟩
    · rw [← h.offset_add, ← htext]
      rfl
    · rw [htext] at hhead
      exact absurd (Option.some.inj hhead) hne
  stray hkind hhead := by
    rcases Lexeme.text_of_invalid hkind with ⟨hquote, -⟩ | ⟨c', -, htext⟩
    · exact absurd hquote hhead
    · exact ⟨c', htext⟩

/-- At the end there is nothing to take. -/
theorem next_stays (h : c.next.1.kind = .endOfText) : c.next.2 = c := by
  have hrest : c.rest = [] := Lexeme.kind_eq_endOfText_iff.1 h
  have htext := Lexeme.text_eq_nil_iff.2 hrest
  obtain ⟨offset, rest⟩ := c
  rw [next, past, htext]
  rfl

/-- Before the end there is. -/
theorem next_forward (h : c.next.1.kind ≠ .endOfText) : c.offset < c.next.2.offset := by
  have hrest : c.rest ≠ [] := mt Lexeme.kind_eq_endOfText_iff.2 h
  have htext := mt Lexeme.text_eq_nil_iff.1 hrest
  have hpos := Nat.pos_of_ne_zero (mt byteLength_eq_zero_iff.1 htext)
  show c.offset < c.offset + byteLength (Lexeme.first c.rest).text
  omega

/-- From a cursor of a text that is not too long, each call does as it should. -/
theorem In.steps (hroom : byteLength source.toList ≤ Bytewise.maxOffset) (h : c.In source) :
    c.Steps source := by
  have hbytes : (Bytewise.bytes source).length ≤ Bytewise.maxOffset := by
    rwa [Bytewise.bytes_eq, length_bytesOf]
  obtain ⟨skipped, -, hskip⟩ := triviaEnd_eq false c.offset c.rest
  exact {
    boundary := h.boundary
    within := h.boundary.le
    skip_bytes := Bytewise.skipTrivia_apply hbytes h
    skip_forward := hskip ▸ Nat.le_add_right _ _
    skip_again := skipTrivia_triviaEnd _ _ _
    next_bytes := Bytewise.nextToken_apply hbytes h
    next_start := rfl
    next_stop := rfl
    next_reads := ⟨_, h.reads⟩
    next_end := h.next_eq_end_iff
    next_stays := next_stays
    next_forward := next_forward }

/-! ### Many steps -/

/-- Calls lead from a cursor of a text to a cursor of the text. -/
theorem In.answer (h : c.In source) (calls : List Call) : (c.answer calls).2.In source := by
  induction calls generalizing c with
  | nil => exact h
  | cons call calls ih =>
    cases call with
    | skipTrivia => exact ih h.skipTrivia
    | next => exact ih h.next

end Cursor

namespace Bytewise

variable {source : String}

/-- Call by call, both readers do the same. -/
theorem answer_apply (hroom : byteLength source.toList ≤ maxOffset) {c : Cursor} (h : c.In source)
    (calls : List Call) :
    answer source calls c.offset = .ok (c.answer calls).1 (c.answer calls).2.offset := by
  induction calls generalizing c with
  | nil => rfl
  | cons call calls ih =>
    have hsteps := h.steps hroom
    cases call with
    | skipTrivia =>
      rw [answer, bind_of_ok hsteps.skip_bytes, ih h.skipTrivia]
      rfl
    | next =>
      rw [answer, bind_of_ok hsteps.next_bytes, bind_of_ok (ih h.next)]
      rfl

/-- On a source whose length fits in 32 bits, any calls in any order are answered byte by byte
    without a fault and as the cursor answers them, and so is whatever call comes next. -/
theorem answer_sound (source : String) (hroom : byteLength source.toList ≤ maxOffset)
    (calls : List Call) :
    answer source calls 0 =
      .ok ((Cursor.ofText source).answer calls).1 ((Cursor.ofText source).answer calls).2.offset ∧
    ((Cursor.ofText source).answer calls).2.Steps source := by
  have hstart := Cursor.in_ofText source
  exact ⟨answer_apply hroom hstart calls, (hstart.answer calls).steps hroom⟩

/-- Tokens are taken from a character that starts none, from a blank, from a literal without an
    end and from the end. -/
theorem answer_sound_stray :
    let source := "é 'ü\\'"
    let calls := [.next, .next, .skipTrivia, .next, .skipTrivia, .next]
    byteLength source.toList ≤ maxOffset ∧
    answer source calls 0 =
      .ok [⟨.invalid, Span.ofLength 0 2, none⟩, ⟨.invalid, Span.ofLength 2 1, none⟩,
        ⟨.invalid, Span.ofLength 3 5, none⟩, ⟨.endOfText, Span.point 8, none⟩] 8 ∧
    ((Cursor.ofText source).answer calls).2.Steps source := by
  intro source calls
  have hroom : byteLength source.toList ≤ maxOffset := by decide
  obtain ⟨hanswer, hsteps⟩ := answer_sound source hroom calls
  have hcursor : (Cursor.ofText source).answer calls =
      ([⟨.invalid, Span.ofLength 0 2, none⟩, ⟨.invalid, Span.ofLength 2 1, none⟩,
        ⟨.invalid, Span.ofLength 3 5, none⟩, ⟨.endOfText, Span.point 8, none⟩], ⟨8, []⟩) := by
    decide
  rw [hcursor] at hanswer
  exact ⟨hroom, hanswer, hsteps⟩

end Bytewise

end TreeGrammar
