import TreeGrammar.Token.Scan

/-! # How tokens are spelled

    The lexical grammar, without the scanner: which texts spell which tokens,
    and which texts may stand between them.

    Key idea:
    - `Spelling` says what a token may look like, and `LiteralBody` what the
      inside of a literal may look like: any character may have a backslash
      before it, and two have to;
    - `Trivia` are blanks and comments; a comment without an end is good at
      the end of a text only (`FinalTrivia`);
    - the first lexeme of a text is a spelling, and every spelling is a first
      lexeme unless it is a name that goes on (`Lexeme.first_complete`);
    - the scanner skips trivia and nothing else.
-/

namespace TreeGrammar

/-! ### Spellings -/

/-- What may stand between the apostrophes of a literal, and the characters that it means. -/
inductive LiteralBody : List Char → List Char → Prop where
  | nil : LiteralBody [] []
  /-- Most characters may stand for themselves. -/
  | plain {c : Char} {text value : List Char} :
      c ≠ '\'' → c ≠ '\\' → LiteralBody text value → LiteralBody (c :: text) (c :: value)
  /-- Any character may have a backslash before it. -/
  | escaped (c : Char) {text value : List Char} :
      LiteralBody text value → LiteralBody ('\\' :: c :: text) (c :: value)

/-- A text that spells a token of some kind and value. -/
inductive Spelling : List Char → TokenKind → Option String → Prop where
  | mark {c : Char} {kind : TokenKind} :
      TokenKind.ofMark? c = some kind → Spelling [c] kind none
  | name {text : List Char} :
      text ≠ [] → (∀ c ∈ text, isNameChar c = true) →
        Spelling text .name (some (String.ofList text))
  | literal {text value : List Char} :
      LiteralBody text value →
        Spelling ('\'' :: (text ++ ['\''])) .literal (some (String.ofList value))

/-- The text does not start with a character of names. -/
def EndsName (behind : List Char) : Prop :=
  ∀ c ∈ behind.head?, isNameChar c = false

/-! ### Literals -/

namespace Literal

/-- Every literal body is read up to the apostrophe behind it. -/
theorem inside?_complete {text value : List Char} (h : LiteralBody text value)
    (rest : List Char) : inside? (text ++ '\'' :: rest) = some ⟨text ++ ['\''], value⟩ := by
  induction h with
  | nil => exact inside?_quote rest
  | plain hquote hslash _ ih =>
    rw [List.cons_append, inside?_cons _ hquote hslash, ih]
    rfl
  | escaped c _ ih =>
    rw [List.cons_append, List.cons_append, inside?_backslash_cons, ih]
    rfl

/-- What is read of a literal is a literal body and an apostrophe. -/
theorem inside?_sound {cs : List Char} {i : Inside} (h : inside? cs = some i) :
    ∃ text rest, cs = text ++ '\'' :: rest ∧ i.text = text ++ ['\''] ∧
      LiteralBody text i.value := by
  induction hlength : cs.length using Nat.strongRecOn generalizing cs i with
  | ind length ih =>
    cases cs with
    | nil => simp at h
    | cons c cs =>
      by_cases hquote : c = '\''
      · subst hquote
        rw [inside?_quote] at h
        obtain rfl := Option.some.inj h
        exact ⟨[], cs, rfl, rfl, .nil⟩
      · by_cases hslash : c = '\\'
        · subst hslash
          -- A backslash takes the character behind it, even another backslash or an apostrophe.
          cases cs with
          | nil => simp at h
          | cons c cs =>
            rw [inside?_backslash_cons, Option.map_eq_some_iff] at h
            obtain ⟨i, hi, rfl⟩ := h
            have hlt : cs.length < length := by
              simp only [List.length_cons] at hlength
              omega
            obtain ⟨text, rest, rfl, htext, hbody⟩ := ih cs.length hlt hi rfl
            exact ⟨'\\' :: c :: text, rest, rfl, by simp [htext], .escaped c hbody⟩
        · rw [inside?_cons cs hquote hslash, Option.map_eq_some_iff] at h
          obtain ⟨i, hi, rfl⟩ := h
          have hlt : cs.length < length := by
            simp only [List.length_cons] at hlength
            omega
          obtain ⟨text, rest, rfl, htext, hbody⟩ := ih cs.length hlt hi rfl
          exact ⟨c :: text, rest, rfl, by simp [htext], .plain hquote hslash hbody⟩

end Literal

/-! ### Lexemes -/

namespace Lexeme

theorem first_mark {c : Char} {kind : TokenKind} (h : TokenKind.ofMark? c = some kind)
    (rest : List Char) : first (c :: rest) = mark kind [c] := by
  rw [first, h]

theorem first_quote (rest : List Char) : first ('\'' :: rest) = literal rest := by
  have hmark : TokenKind.ofMark? '\'' = none := by decide
  rw [first, hmark]
  exact if_pos rfl

/-- A character of names is no mark. -/
theorem ofMark?_of_isNameChar {c : Char} (h : isNameChar c = true) :
    TokenKind.ofMark? c = none := by
  unfold TokenKind.ofMark?
  split <;> first | rfl | exact absurd h (by decide)

/-- Nor does it open a literal. -/
theorem ne_quote_of_isNameChar {c : Char} (h : isNameChar c = true) : c ≠ '\'' := by
  rintro rfl
  exact absurd h (by decide)

theorem first_nameChar {c : Char} (h : isNameChar c = true) (rest : List Char) :
    first (c :: rest) = name (c :: rest.takeWhile isNameChar) := by
  rw [first, ofMark?_of_isNameChar h]
  simp only [if_neg (ne_quote_of_isNameChar h), if_pos h]

theorem first_invalid {c : Char} (hmark : TokenKind.ofMark? c = none) (hquote : c ≠ '\'')
    (hname : isNameChar c = false) (rest : List Char) :
    first (c :: rest) = mark .invalid [c] := by
  rw [first, hmark]
  simp [hquote, hname]

theorem isValid_of_ofMark? {c : Char} {kind : TokenKind} (h : TokenKind.ofMark? c = some kind) :
    kind.isValid = true := by
  unfold TokenKind.ofMark? at h
  split at h <;> simp_all <;> subst h <;> rfl

/-- No mark is a name or a literal. -/
theorem ne_of_ofMark? {c : Char} {kind : TokenKind} (h : TokenKind.ofMark? c = some kind) :
    kind ≠ .name ∧ kind ≠ .literal := by
  unfold TokenKind.ofMark? at h
  split at h
  case h_8 => simp at h
  all_goals
    obtain rfl := Option.some.inj h
    decide

/-- What stands behind a name that is as long as it can be. -/
theorem endsName_dropWhile (cs : List Char) : EndsName (cs.dropWhile isNameChar) := by
  intro c hc
  induction cs with
  | nil => simp at hc
  | cons c' cs ih =>
    by_cases h : isNameChar c' = true
    · rw [List.dropWhile_cons_of_pos h] at hc
      exact ih hc
    · rw [List.dropWhile_cons_of_neg h] at hc
      obtain rfl : c' = c := by simpa using hc
      simpa using h

theorem takeWhile_append_of_endsName {text rest : List Char}
    (htext : ∀ c ∈ text, isNameChar c = true) (hrest : EndsName rest) :
    (text ++ rest).takeWhile isNameChar = text := by
  rw [List.takeWhile_append_of_pos htext]
  cases rest with
  | nil => simp
  | cons c rest =>
    have hc : isNameChar c = false := hrest c (by simp)
    simp [hc]

/-- A lexeme that is part of a grammar is a spelling, and a name goes on as long as it can. -/
theorem first_sound {cs : List Char} (h : (first cs).kind.isValid = true) :
    ∃ rest, cs = (first cs).text ++ rest ∧
      Spelling (first cs).text (first cs).kind (first cs).value ∧
      ((first cs).kind = .name → EndsName rest) := by
  cases cs with
  | nil => simp [first, mark, TokenKind.isValid] at h
  | cons c cs =>
    cases hmark : TokenKind.ofMark? c with
    | some kind =>
      rw [first_mark hmark]
      refine ⟨cs, rfl, .mark hmark, ?_⟩
      -- No mark is a name, so nothing is said about the rest.
      exact fun hname => absurd hname (ne_of_ofMark? hmark).1
    | none =>
      by_cases hquote : c = '\''
      · subst hquote
        rw [first_quote] at h ⊢
        cases hinside : Literal.inside? cs with
        | none => simp [literal, hinside, mark, TokenKind.isValid] at h
        | some i =>
          obtain ⟨text, rest, rfl, htext, hbody⟩ := Literal.inside?_sound hinside
          simp only [literal, hinside, htext]
          exact ⟨rest, by simp, .literal hbody, by simp⟩
      · by_cases hname : isNameChar c = true
        · rw [first_nameChar hname]
          have hall : ∀ c' ∈ c :: cs.takeWhile isNameChar, isNameChar c' = true := by
            rw [List.forall_mem_cons]
            exact ⟨hname, fun c' hc' => List.all_eq_true.1 (List.all_takeWhile) c' hc'⟩
          refine ⟨cs.dropWhile isNameChar, by simp [name], .name (List.cons_ne_nil _ _) hall, ?_⟩
          exact fun _ => endsName_dropWhile cs
        · rw [Bool.not_eq_true] at hname
          rw [first_invalid hmark hquote hname] at h
          simp [mark, TokenKind.isValid] at h

/-- A spelling is read as it is, unless it is a name that goes on. -/
theorem first_complete {text : List Char} {kind : TokenKind} {value : Option String}
    (h : Spelling text kind value) {rest : List Char} (hrest : kind = .name → EndsName rest) :
    first (text ++ rest) = ⟨kind, text, value⟩ := by
  cases h with
  | mark hmark => exact first_mark hmark rest
  | name hne htext =>
    cases text with
    | nil => exact absurd rfl hne
    | cons c text =>
      rw [List.forall_mem_cons] at htext
      rw [List.cons_append, first_nameChar htext.1,
        takeWhile_append_of_endsName htext.2 (hrest rfl)]
      rfl
  | literal hbody =>
    have hinside := Literal.inside?_complete hbody rest
    rw [List.cons_append, List.append_assoc, first_quote, literal]
    simp only [List.cons_append, List.nil_append, hinside]

end Lexeme

/-! ### Trivia -/

/-- Blanks and comments, where each comment ends with its line. -/
inductive Trivia : List Char → Prop where
  | nil : Trivia []
  | blank {c : Char} {cs : List Char} : isWhiteSpace c = true → Trivia cs → Trivia (c :: cs)
  | comment {text cs : List Char} :
      '\n' ∉ text → Trivia cs → Trivia ('/' :: '/' :: (text ++ '\n' :: cs))

/-- Blanks and comments, where the last comment may have no end. -/
inductive FinalTrivia : List Char → Prop where
  | closed {cs : List Char} : Trivia cs → FinalTrivia cs
  | opened {cs text : List Char} :
      Trivia cs → '\n' ∉ text → FinalTrivia (cs ++ '/' :: '/' :: text)

theorem FinalTrivia.blank {c : Char} {cs : List Char} (hc : isWhiteSpace c = true)
    (h : FinalTrivia cs) : FinalTrivia (c :: cs) := by
  cases h with
  | closed h => exact .closed (.blank hc h)
  | opened h htext => exact .opened (.blank hc h) htext

theorem FinalTrivia.comment {text cs : List Char} (htext : '\n' ∉ text) (h : FinalTrivia cs) :
    FinalTrivia ('/' :: '/' :: (text ++ '\n' :: cs)) := by
  cases h with
  | closed h => exact .closed (.comment htext h)
  | @opened cs text' h htext' =>
    have := FinalTrivia.opened (.comment htext h) htext'
    simpa using this

theorem not_isWhiteSpace_slash : isWhiteSpace '/' = false := by decide

namespace Cursor

/-- A comment is passed up to the end of its line. -/
theorem triviaEnd_comment {text : List Char} (htext : '\n' ∉ text) (offset : Nat)
    (rest : List Char) :
    triviaEnd true offset (text ++ '\n' :: rest) =
      triviaEnd false (offset + byteLength (text ++ ['\n'])) rest := by
  induction text generalizing offset with
  | nil => simp [triviaEnd]
  | cons c text ih =>
    rw [List.mem_cons, not_or] at htext
    have hc : c ≠ '\n' := fun heq => htext.1 heq.symm
    rw [List.cons_append, triviaEnd, if_pos rfl, decide_eq_true hc, ih htext.2]
    simp [Nat.add_assoc]

/-- A comment in the last line is passed up to the end of the text. -/
theorem triviaEnd_comment_end {text : List Char} (htext : '\n' ∉ text) (offset : Nat) :
    triviaEnd true offset text = ⟨offset + byteLength text, []⟩ := by
  induction text generalizing offset with
  | nil => simp [triviaEnd]
  | cons c text ih =>
    rw [List.mem_cons, not_or] at htext
    have hc : c ≠ '\n' := fun heq => htext.1 heq.symm
    rw [triviaEnd, if_pos rfl, decide_eq_true hc, ih htext.2]
    simp [Nat.add_assoc]

theorem triviaEnd_slashes (offset : Nat) (cs : List Char) :
    triviaEnd false offset ('/' :: '/' :: cs) = triviaEnd true (offset + 1) ('/' :: cs) := by
  rw [triviaEnd, not_isWhiteSpace_slash]
  rfl

/-- Blanks are passed at once. -/
theorem triviaEnd_blanks (offset : Nat) (cs : List Char) :
    triviaEnd false offset cs =
      triviaEnd false (offset + byteLength (cs.takeWhile isWhiteSpace))
        (cs.dropWhile isWhiteSpace) := by
  induction cs generalizing offset with
  | nil => rfl
  | cons c cs ih =>
    by_cases hc : isWhiteSpace c = true
    · rw [List.takeWhile_cons_of_pos hc, List.dropWhile_cons_of_pos hc, byteLength_cons,
        ← Nat.add_assoc, ← ih, triviaEnd, if_neg (by simp), if_pos hc]
    · rw [List.takeWhile_cons_of_neg hc, List.dropWhile_cons_of_neg hc, byteLength_nil,
        Nat.add_zero]

/-- A comment is passed up to its line feed, which counts as a blank. -/
theorem triviaEnd_line (offset : Nat) (cs : List Char) :
    triviaEnd true offset cs =
      triviaEnd false (offset + byteLength (cs.takeWhile (· != '\n')))
        (cs.dropWhile (· != '\n')) := by
  induction cs generalizing offset with
  | nil => rfl
  | cons c cs ih =>
    by_cases hc : c = '\n'
    · subst hc
      rw [List.takeWhile_cons_of_neg (by simp), List.dropWhile_cons_of_neg (by simp),
        byteLength_nil, Nat.add_zero, triviaEnd, triviaEnd, if_pos rfl, if_neg (by simp),
        if_pos isWhiteSpace_newline]
      simp
    · have hne : (c != '\n') = true := by simpa using hc
      rw [List.takeWhile_cons_of_pos (p := (· != '\n')) hne,
        List.dropWhile_cons_of_pos (p := (· != '\n')) hne, byteLength_cons, ← Nat.add_assoc, ← ih,
        triviaEnd, if_pos rfl, decide_eq_true hc]

/-- Two slashes start a comment. -/
theorem triviaEnd_open (offset : Nat) (cs : List Char) :
    triviaEnd false offset ('/' :: '/' :: cs) = triviaEnd true (offset + 2) cs := by
  rw [triviaEnd_slashes, triviaEnd, if_pos rfl]
  rfl

/-- Nothing is passed in front of anything else. -/
theorem triviaEnd_stop (offset : Nat) {cs : List Char}
    (hblank : ∀ c ∈ cs.head?, isWhiteSpace c = false)
    (hslashes : ['/', '/'].isPrefixOf cs = false) :
    triviaEnd false offset cs = ⟨offset, cs⟩ := by
  cases cs with
  | nil => rfl
  | cons c cs =>
    have hopen : ¬ (c = '/' ∧ cs.head? = some '/') := by
      rintro ⟨rfl, hhead⟩
      cases cs with
      | nil => simp at hhead
      | cons c cs =>
        obtain rfl := Option.some.inj hhead
        simp at hslashes
    rw [triviaEnd, if_neg (by simp), hblank c rfl, if_neg (by simp), if_neg hopen]

/-- Trivia are passed. -/
theorem triviaEnd_append {cs : List Char} (h : Trivia cs) (offset : Nat) (rest : List Char) :
    triviaEnd false offset (cs ++ rest) = triviaEnd false (offset + byteLength cs) rest := by
  induction h generalizing offset with
  | nil => rfl
  | blank hc _ ih =>
    rw [List.cons_append, triviaEnd, if_neg (by simp), if_pos hc, ih, byteLength_cons,
      Nat.add_assoc]
  | @comment text cs htext _ ih =>
    have htext' : '\n' ∉ '/' :: text := by
      rw [List.mem_cons, not_or]
      exact ⟨by decide, htext⟩
    calc triviaEnd false offset ('/' :: '/' :: (text ++ '\n' :: cs) ++ rest)
      _ = triviaEnd true (offset + 1) (('/' :: text) ++ '\n' :: (cs ++ rest)) := by
          simp only [List.cons_append, List.append_assoc]
          exact triviaEnd_slashes offset _
      _ = triviaEnd false (offset + byteLength ('/' :: '/' :: (text ++ '\n' :: cs))) rest := by
          rw [triviaEnd_comment htext', ih]
          have hslash : ('/' : Char).utf8Size = 1 := by decide
          simp only [byteLength_cons, byteLength_append, byteLength_nil, hslash]
          congr 1
          omega

/-- Trivia at the end of a text are passed. -/
theorem triviaEnd_final {cs : List Char} (h : FinalTrivia cs) (offset : Nat) :
    triviaEnd false offset cs = ⟨offset + byteLength cs, []⟩ := by
  cases h with
  | closed h =>
    have := triviaEnd_append h offset []
    rw [List.append_nil] at this
    rw [this, triviaEnd]
  | @opened cs text h htext =>
    have htext' : '\n' ∉ '/' :: text := by
      rw [List.mem_cons, not_or]
      exact ⟨by decide, htext⟩
    rw [triviaEnd_append h, triviaEnd_slashes, triviaEnd_comment_end htext']
    have hslash : ('/' : Char).utf8Size = 1 := by decide
    simp only [byteLength_cons, byteLength_append, hslash]
    congr 1
    omega

/-- Passing some characters of a text leads to a place. -/
structure Passes (offset : Nat) (cs skipped : List Char) (stop : Cursor) : Prop where
  text : cs = skipped ++ stop.rest
  offset : stop.offset = offset + byteLength skipped

theorem Passes.cons {offset : Nat} {c : Char} {cs skipped : List Char} {stop : Cursor}
    (h : Passes (offset + c.utf8Size) cs skipped stop) :
    Passes offset (c :: cs) (c :: skipped) stop := by
  refine ⟨?_, ?_⟩
  · rw [List.cons_append, ← h.text]
  · rw [h.offset, byteLength_cons, Nat.add_assoc]

/-- What is passed outside of comments: trivia, or final trivia if nothing is behind. -/
def PassedTrivia (rest skipped : List Char) : Prop :=
  (rest = [] ∧ FinalTrivia skipped) ∨ Trivia skipped

/-- What is passed inside a comment: all the text, or a line and what is passed behind it. -/
def PassedComment (rest skipped : List Char) : Prop :=
  (rest = [] ∧ '\n' ∉ skipped) ∨
    ∃ text behind, '\n' ∉ text ∧ skipped = text ++ '\n' :: behind ∧ PassedTrivia rest behind

theorem PassedTrivia.blank {c : Char} {rest skipped : List Char} (hc : isWhiteSpace c = true)
    (h : PassedTrivia rest skipped) : PassedTrivia rest (c :: skipped) := by
  rcases h with ⟨hrest, hfinal⟩ | htrivia
  · exact .inl ⟨hrest, hfinal.blank hc⟩
  · exact .inr (.blank hc htrivia)

theorem PassedComment.cons {c : Char} {rest skipped : List Char} (hc : c ≠ '\n')
    (h : PassedComment rest skipped) : PassedComment rest (c :: skipped) := by
  rcases h with ⟨hrest, hnone⟩ | ⟨text, behind, htext, rfl, hbehind⟩
  · exact .inl ⟨hrest, by simp [Ne.symm hc, hnone]⟩
  · exact .inr ⟨c :: text, behind, by simp [Ne.symm hc, htext], rfl, hbehind⟩

/-- What is passed inside a comment, with the start of the comment in front. The second slash is
    the first character of what is passed inside. -/
theorem PassedComment.opened {rest skipped : List Char} (h : PassedComment rest skipped)
    (hslash : (skipped ++ rest).head? = some '/') : PassedTrivia rest ('/' :: skipped) := by
  rcases h with ⟨rfl, hnone⟩ | ⟨text, behind, htext, rfl, hbehind⟩
  · cases skipped with
    | nil => simp at hslash
    | cons c text =>
      obtain rfl : c = '/' := by simpa using hslash
      rw [List.mem_cons, not_or] at hnone
      exact .inl ⟨rfl, .opened .nil hnone.2⟩
  · cases text with
    | nil => simp at hslash
    | cons c text =>
      obtain rfl : c = '/' := by simpa using hslash
      rw [List.mem_cons, not_or] at htext
      rcases hbehind with ⟨hrest, hfinal⟩ | htrivia
      · exact .inl ⟨hrest, hfinal.comment htext.2⟩
      · exact .inr (.comment htext.2 htrivia)

/-- Only trivia are passed. -/
theorem triviaEnd_sound (comment : Bool) (offset : Nat) (cs : List Char) :
    ∃ skipped, Passes offset cs skipped (triviaEnd comment offset cs) ∧
      if comment then PassedComment (triviaEnd comment offset cs).rest skipped
      else PassedTrivia (triviaEnd comment offset cs).rest skipped := by
  induction cs generalizing comment offset with
  | nil =>
    refine ⟨[], ⟨rfl, rfl⟩, ?_⟩
    cases comment with
    | false => exact .inr .nil
    | true => exact .inl ⟨rfl, by simp⟩
  | cons c cs ih =>
    rw [triviaEnd]
    cases comment with
    | true =>
      -- Inside a comment only the end of its line counts.
      rw [if_pos rfl]
      by_cases hc : c = '\n'
      · subst hc
        obtain ⟨behind, hpasses, hbehind⟩ := ih false (offset + ('\n' : Char).utf8Size)
        exact ⟨'\n' :: behind, hpasses.cons, .inr ⟨[], behind, by simp, rfl, hbehind⟩⟩
      · obtain ⟨skipped, hpasses, hskipped⟩ := ih true (offset + c.utf8Size)
        rw [decide_eq_true hc]
        exact ⟨c :: skipped, hpasses.cons, hskipped.cons hc⟩
    | false =>
      rw [if_neg Bool.false_ne_true]
      by_cases hblank : isWhiteSpace c = true
      · obtain ⟨skipped, hpasses, hskipped⟩ := ih false (offset + c.utf8Size)
        rw [if_pos hblank]
        exact ⟨c :: skipped, hpasses.cons, hskipped.blank hblank⟩
      · -- A slash alone is no comment, and anything else ends the trivia.
        rw [if_neg hblank]
        by_cases hslash : c = '/' ∧ cs.head? = some '/'
        · obtain ⟨skipped, hpasses, hskipped⟩ := ih true (offset + c.utf8Size)
          obtain ⟨rfl, hhead⟩ := hslash
          rw [if_pos ⟨rfl, hhead⟩]
          rw [hpasses.text] at hhead
          exact ⟨'/' :: skipped, hpasses.cons, hskipped.opened hhead⟩
        · rw [if_neg hslash]
          exact ⟨[], ⟨rfl, rfl⟩, .inr .nil⟩

end Cursor

/-! ### First characters

    Words, blanks and comments start with different characters, so that a
    text shows where each of them ends. -/

/-- The codes of the characters of names. -/
theorem code_of_isNameChar {c : Char} (h : isNameChar c = true) :
    c = '_' ∨ (65 ≤ c.toNat ∧ c.toNat ≤ 90) ∨ (97 ≤ c.toNat ∧ c.toNat ≤ 122) := by
  replace h : ((decide (65 ≤ c.val ∧ c.val ≤ 90) || decide (97 ≤ c.val) && decide (c.val ≤ 122)) ||
      decide (c = '_')) = true := h
  simp only [Bool.or_eq_true, Bool.and_eq_true, decide_eq_true_eq, UInt32.le_iff_toNat_le] at h
  rcases h with (h | h) | h
  · exact .inr (.inl h)
  · exact .inr (.inr h)
  · exact .inl h

theorem not_isWhiteSpace_of_isNameChar {c : Char} (h : isNameChar c = true) :
    isWhiteSpace c = false := by
  rcases code_of_isNameChar h with rfl | hcode
  · decide
  · rw [← Bool.not_eq_true, isWhiteSpace, CodeRange.covers_iff]
    simp only [whiteSpaceTable, List.mem_cons, List.not_mem_nil, or_false, exists_eq_or_imp,
      exists_eq_left]
    omega

/-- A word does not start as trivia do, and only names start with a character of names. -/
theorem Spelling.exists_cons {text : List Char} {kind : TokenKind} {value : Option String}
    (h : Spelling text kind value) :
    ∃ c rest, text = c :: rest ∧ isWhiteSpace c = false ∧ c ≠ '/' ∧
      (isNameChar c = true ↔ kind = .name) := by
  cases h with
  | @mark c kind hmark =>
    refine ⟨c, [], rfl, ?_⟩
    unfold TokenKind.ofMark? at hmark
    split at hmark
    all_goals first | (obtain rfl := Option.some.inj hmark; decide) | simp at hmark
  | name hne htext =>
    cases text with
    | nil => exact absurd rfl hne
    | cons c text =>
      rw [List.forall_mem_cons] at htext
      refine ⟨c, text, rfl, not_isWhiteSpace_of_isNameChar htext.1, ?_, by simp [htext.1]⟩
      rintro rfl
      exact absurd htext.1 (by decide)
  | literal hbody =>
    refine ⟨'\'', _, rfl, ?_⟩
    decide

/-- A spelling of a name is a character of names at least. -/
theorem Spelling.not_endsName {text : List Char} {value : Option String}
    (h : Spelling text .name value) (rest : List Char) : ¬ EndsName (text ++ rest) := by
  obtain ⟨c, text, rfl, -, -, hname⟩ := h.exists_cons
  intro hends
  have hc : isNameChar c = false := hends c (by simp)
  rw [hname.2 rfl] at hc
  exact Bool.noConfusion hc

theorem Spelling.endsName {text : List Char} {kind : TokenKind} {value : Option String}
    (h : Spelling text kind value) (hkind : kind ≠ .name) (rest : List Char) :
    EndsName (text ++ rest) := by
  obtain ⟨c, text, rfl, -, -, hname⟩ := h.exists_cons
  intro c' hc'
  obtain rfl : c = c' := by simpa using hc'
  rw [← Bool.not_eq_true, hname]
  exact hkind

theorem Trivia.endsName {cs : List Char} (h : Trivia cs) (hne : cs ≠ []) (rest : List Char) :
    EndsName (cs ++ rest) := by
  cases h with
  | nil => exact absurd rfl hne
  | @blank c cs hc _ =>
    intro c' hc'
    obtain rfl : c = c' := by simpa using hc'
    rw [← Bool.not_eq_true]
    intro hname
    rw [not_isWhiteSpace_of_isNameChar hname] at hc
    exact Bool.noConfusion hc
  | comment _ _ =>
    intro c' hc'
    obtain rfl : '/' = c' := by simpa using hc'
    decide

theorem FinalTrivia.endsName {cs : List Char} (h : FinalTrivia cs) : EndsName cs := by
  cases h with
  | closed h =>
    by_cases hne : cs = []
    · subst hne
      intro c hc
      simp at hc
    · have := h.endsName hne []
      rwa [List.append_nil] at this
  | @opened cs text h _ =>
    by_cases hne : cs = []
    · subst hne
      intro c hc
      obtain rfl : '/' = c := by simpa using hc
      decide
    · exact h.endsName hne _

namespace Cursor

/-- In front of a word nothing is passed. -/
theorem triviaEnd_word {text : List Char} {kind : TokenKind} {value : Option String}
    (h : Spelling text kind value) (offset : Nat) (rest : List Char) :
    triviaEnd false offset (text ++ rest) = ⟨offset, text ++ rest⟩ := by
  obtain ⟨c, text, rfl, hblank, hslash, -⟩ := h.exists_cons
  rw [List.cons_append, triviaEnd, if_neg Bool.false_ne_true, if_neg (by simp [hblank]),
    if_neg (fun hcomment => hslash hcomment.1)]

end Cursor

end TreeGrammar
