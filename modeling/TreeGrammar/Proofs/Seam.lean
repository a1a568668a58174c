import TreeGrammar.Proofs.RoundTrip

/-! # Texts in a row

    Two texts with a line end between them have the tokens of the first text
    and, further on, those of the second. Nothing grows together at the seam.

    Key idea:
    - the layouts of the two texts make one layout (`Layout.join`), in which
      the trivia at the end of the first come before those at the start of
      the second;
    - the line end closes a comment at the end of the first text, and it is
      between two names that would be one without it;
    - the tokens of the second text are moved by the bytes before it
      (`Token.shift`), and what they say is the same.
-/

namespace TreeGrammar

/-! ### Moved tokens -/

/-- A span that so many more bytes are in front of. -/
def Span.shift (distance : Nat) (s : Span) : Span :=
  ⟨s.start + distance, s.stop + distance, Nat.add_le_add_right s.start_le_stop distance⟩

/-- A token that so many more bytes are in front of. -/
def Token.shift (distance : Nat) (t : Token) : Token :=
  { t with span := t.span.shift distance }

/-- The tokens of a text that so many more bytes are in front of. -/
def shiftAll (distance : Nat) (tokens : List Token) : List Token :=
  tokens.map (Token.shift distance)

@[simp] theorem Span.shift_ofLength (distance start length : Nat) :
    (ofLength start length).shift distance = ofLength (start + distance) length := by
  simp only [shift, ofLength, Span.mk.injEq, true_and]
  omega

@[simp] theorem Token.kind_shift (distance : Nat) (t : Token) :
    (t.shift distance).kind = t.kind := rfl

@[simp] theorem Token.text_shift (distance : Nat) (t : Token) :
    (t.shift distance).text = t.text := rfl

@[simp] theorem symbolsOf_shiftAll (distance : Nat) (tokens : List Token) :
    symbolsOf (shiftAll distance tokens) = symbolsOf tokens := by
  rw [symbolsOf, shiftAll, List.map_map]
  rfl

/-! ### Trivia -/

theorem Trivia.append {front behind : List Char} (h : Trivia front) (h' : Trivia behind) :
    Trivia (front ++ behind) := by
  induction h with
  | nil => exact h'
  | blank hc _ ih => exact .blank hc ih
  | @comment text cs htext _ ih =>
    have := Trivia.comment htext ih
    simpa using this

theorem FinalTrivia.append {front behind : List Char} (h : Trivia front)
    (h' : FinalTrivia behind) : FinalTrivia (front ++ behind) := by
  induction h with
  | nil => exact h'
  | blank hc _ ih => exact ih.blank hc
  | @comment text cs htext _ ih =>
    have := ih.comment htext
    simpa using this

/-- A line end closes the last comment. -/
theorem FinalTrivia.line {front : List Char} (h : FinalTrivia front) :
    Trivia (front ++ ['\n']) := by
  cases h with
  | closed h => exact h.append (.blank (by decide) .nil)
  | opened h htext =>
    have := h.append (.comment htext .nil)
    simpa using this

/-! ### Layouts -/

namespace Layout

/-- A layout with more trivia at its start. -/
def indent (front : List Char) : Layout → Layout
  | .last trivia => .last (front ++ trivia)
  | .word trivia text behind => .word (front ++ trivia) text behind

/-- Two layouts in a row, with a line end between them. -/
def join : Layout → Layout → Layout
  | .last trivia, other => other.indent (trivia ++ ['\n'])
  | .word trivia text behind, other => .word trivia text (behind.join other)

theorem text_indent (front : List Char) (layout : Layout) :
    (layout.indent front).text = front ++ layout.text := by
  cases layout with
  | last trivia => rfl
  | word trivia text behind => exact List.append_assoc front trivia _

theorem trivia_indent (front : List Char) (layout : Layout) :
    (layout.indent front).trivia = front ++ layout.trivia := by
  cases layout <;> rfl

theorem text_join (layout other : Layout) :
    (layout.join other).text = layout.text ++ '\n' :: other.text := by
  induction layout with
  | last trivia =>
    rw [join, text_indent, List.append_assoc]
    rfl
  | word trivia text behind ih => simp [join, Layout.text, ih]

section Spells

variable {layout other : Layout} {offset : Nat} {tokens others : List Token}

/-- What a layout spells depends on where it starts only for the places. -/
theorem Spells.shift (h : layout.Spells offset tokens) (distance : Nat) :
    layout.Spells (offset + distance) (shiftAll distance tokens) := by
  induction h with
  | last htrivia => exact .last htrivia
  | @word offset trivia text behind t tokens htrivia hspelling hspan hapart _ ih =>
    have hoffset : offset + byteLength trivia + byteLength text + distance =
        offset + distance + byteLength trivia + byteLength text := by omega
    rw [hoffset] at ih
    -- Whether the next token touches this one depends on its characters, not on its place.
    refine .word (t := t.shift distance) htrivia hspelling ?_ ?_ ih
    · show t.span.shift distance = _
      rw [hspan, Span.shift_ofLength]
      congr 1
      omega
    · intro hname hstarts
      refine hapart hname ?_
      cases tokens with
      | nil => exact hstarts
      | cons u tokens => exact hstarts

theorem Spells.indent {front : List Char} (hfront : Trivia front)
    (h : layout.Spells (offset + byteLength front) tokens) :
    (layout.indent front).Spells offset tokens := by
  cases h with
  | last htrivia => exact .last (.append hfront htrivia)
  | @word _ trivia text behind t tokens htrivia hspelling hspan hapart hbehind =>
    have hoffset : offset + byteLength (front ++ trivia) =
        offset + byteLength front + byteLength trivia := by
      rw [byteLength_append, Nat.add_assoc]
    rw [← hoffset] at hspan hbehind
    exact .word (hfront.append htrivia) hspelling hspan hapart hbehind

/-- Two layouts in a row spell the tokens of both. -/
theorem Spells.join (h : layout.Spells offset tokens)
    (h' : other.Spells (offset + byteLength layout.text + 1) others) :
    (layout.join other).Spells offset (tokens ++ others) := by
  induction h with
  | @last offset trivia htrivia =>
    have hline : byteLength (trivia ++ ['\n']) = byteLength trivia + 1 := by
      rw [byteLength_append]
      rfl
    refine Spells.indent htrivia.line ?_
    rw [hline, ← Nat.add_assoc]
    exact h'
  | @word offset trivia text behind t tokens htrivia hspelling hspan hapart hbehind ih =>
    have hoffset : offset + byteLength (Layout.word trivia text behind).text + 1 =
        offset + byteLength trivia + byteLength text + byteLength behind.text + 1 := by
      simp only [Layout.text, byteLength_append]
      omega
    rw [hoffset] at h'
    refine .word htrivia hspelling hspan ?_ (ih h')
    intro hname hstarts
    cases hbehind with
    | last _ =>
      -- The last name of the first text has a line end behind it.
      rw [Layout.join, trivia_indent]
      simp
    | word _ _ _ _ _ => exact hapart hname hstarts

end Spells

end Layout

/-! ### Scans -/

/-- The tokens of two texts in a row. -/
theorem tokensOf_append {a b : String} {tokens others : List Token}
    (ha : tokensOf .strict a = .ok tokens) (hb : tokensOf .strict b = .ok others) :
    tokensOf .strict (a ++ "\n" ++ b) =
      .ok (tokens ++ shiftAll (byteLength a.toList + 1) others) := by
  obtain ⟨hrest, rfl⟩ := Scan.complete_eq_ok_iff.1 ha
  obtain ⟨hrest', rfl⟩ := Scan.complete_eq_ok_iff.1 hb
  obtain ⟨layout, htext, hspells⟩ := Scan.exists_layout hrest
  obtain ⟨layout', htext', hspells'⟩ := Scan.exists_layout hrest'
  have htext : layout.text = a.toList := htext
  have hmoved := hspells'.shift (byteLength a.toList + 1)
  have hoffset : (Cursor.ofText b).offset + (byteLength a.toList + 1) =
      (Cursor.ofText a).offset + byteLength layout.text + 1 := by
    rw [htext]
    simp [Cursor.ofText]
  rw [hoffset] at hmoved
  have hboth := Scan.ofCursor_of_spells (hspells.join hmoved)
  have hjoined : (layout.join layout').text = (a ++ "\n" ++ b).toList := by
    rw [Layout.text_join, htext, htext', String.toList_append, String.toList_append,
      List.append_assoc]
    rfl
  rw [hjoined] at hboth
  exact Scan.complete_eq_ok_iff.2 ⟨hboth.2, hboth.1⟩

end TreeGrammar
