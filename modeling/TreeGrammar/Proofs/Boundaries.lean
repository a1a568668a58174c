import TreeGrammar.Proofs.Layout

/-! # Boundaries between characters

    The offsets at which a text may be cut, and the cursors that only meet
    such offsets.

    Key idea:
    - a cursor lies in a text if what is behind it is an end of the text and
      its offset is the length of what is before (`Cursor.In`);
    - skipping trivia and taking a token lead from such cursors to such
      cursors;
    - so every span of a scan starts and stops at a boundary.
-/

namespace TreeGrammar

/-- A character of the text starts at the offset, or the text ends there. -/
def Boundary (source : String) (offset : Nat) : Prop :=
  ∃ front rest, source.toList = front ++ rest ∧ byteLength front = offset

theorem Boundary.le {source : String} {offset : Nat} (h : Boundary source offset) :
    offset ≤ byteLength source.toList := by
  obtain ⟨front, rest, hsource, rfl⟩ := h
  rw [hsource, byteLength_append]
  exact Nat.le_add_right _ _

theorem boundary_zero (source : String) : Boundary source 0 :=
  ⟨[], source.toList, rfl, rfl⟩

namespace Cursor

variable {source : String} {c : Cursor}

/-- A cursor lies in a text. -/
def In (source : String) (c : Cursor) : Prop :=
  ∃ front, source.toList = front ++ c.rest ∧ byteLength front = c.offset

theorem In.boundary (h : c.In source) : Boundary source c.offset := by
  obtain ⟨front, hsource, hfront⟩ := h
  exact ⟨front, c.rest, hsource, hfront⟩

/-- What is before a cursor and what is behind it make up the text. -/
theorem In.offset_add (h : c.In source) :
    c.offset + byteLength c.rest = byteLength source.toList := by
  obtain ⟨front, hsource, hfront⟩ := h
  rw [hsource, byteLength_append, hfront]

theorem in_ofText (source : String) : (ofText source).In source :=
  ⟨[], rfl, rfl⟩

theorem In.dropBytes? (h : c.In source) :
    TreeGrammar.dropBytes? c.offset source.toList = some c.rest :=
  dropBytes?_eq_some_iff.2 h

/-- Behind a piece of text that starts at the cursor. -/
theorem In.append {offset : Nat} {text rest : List Char} (h : In source ⟨offset, text ++ rest⟩) :
    In source ⟨offset + byteLength text, rest⟩ := by
  obtain ⟨front, hsource, hfront⟩ := h
  refine ⟨front ++ text, ?_, ?_⟩
  · rw [hsource, List.append_assoc]
  · rw [byteLength_append, hfront]

theorem In.skipTrivia (h : c.In source) : c.skipTrivia.In source := by
  obtain ⟨offset, cs⟩ := c
  obtain ⟨skipped, hrest, hoffset⟩ := triviaEnd_eq false offset cs
  rw [hrest] at h
  have := h.append
  rwa [← hoffset] at this

theorem In.next (h : c.In source) : c.next.2.In source := by
  obtain ⟨offset, cs⟩ := c
  obtain ⟨rest, hrest⟩ := Lexeme.exists_append cs
  have hdrop : cs.drop (Lexeme.first cs).text.length = rest := by
    have := congrArg (List.drop (Lexeme.first cs).text.length) hrest
    rwa [List.drop_left] at this
  rw [hrest] at h
  show In source ⟨_, cs.drop _⟩
  rw [hdrop]
  exact h.append

/-- The text of a token is the lexeme at the cursor. -/
theorem In.text?_next (h : c.In source) :
    c.next.1.span.text? source = some (String.ofList (Lexeme.first c.rest).text) := by
  obtain ⟨front, hsource, hfront⟩ := h
  obtain ⟨rest, hrest⟩ := Lexeme.exists_append c.rest
  have hslice : slice? c.next.1.span.start c.next.1.span.stop source.toList =
      some (Lexeme.first c.rest).text := by
    refine slice?_eq_some_iff.2 ⟨front, rest, ?_, hfront, ?_⟩
    · rw [hsource, List.append_assoc, ← hrest]
    · rw [byteLength_append, hfront]
      rfl
  rw [Span.text?, hslice]
  rfl

@[simp] theorem start_next (c : Cursor) : c.next.1.span.start = c.offset := rfl

@[simp] theorem stop_next (c : Cursor) : c.next.1.span.stop = c.next.2.offset := rfl

end Cursor

/-! ### Spans of scans -/

/-- A span that can be cut out of a text. -/
structure Span.Cuts (source : String) (s : Span) : Prop where
  start : Boundary source s.start
  stop : Boundary source s.stop

theorem Cursor.In.cuts {source : String} {c : Cursor} (h : c.In source) :
    c.next.1.span.Cuts source :=
  ⟨h.boundary, h.next.boundary⟩

namespace Scan

variable {source : String}

/-- The tokens of a scan can be cut out of the text, and it stops at a place in the text. -/
theorem cuts_ofCursor {c : Cursor} (h : c.In source) :
    (∀ t ∈ (ofCursor c).tokens, t.span.Cuts source) ∧ (ofCursor c).stop.In source := by
  -- A valid token takes some of the text, so there is less behind it.
  induction hlength : c.rest.length using Nat.strongRecOn generalizing c with
  | ind length ih =>
    by_cases hvalid : c.skipTrivia.next.1.kind.isValid = true
    · have hkind : c.skipTrivia.next.1.kind ≠ .endOfText := by
        intro heq
        simp [heq, TokenKind.isValid] at hvalid
      have hlt := Nat.lt_of_lt_of_le (Cursor.length_rest_next_lt hkind)
        c.length_rest_skipTrivia_le
      obtain ⟨htokens, hstop⟩ := ih _ (hlength ▸ hlt) h.skipTrivia.next rfl
      rw [ofCursor_of_isValid hvalid]
      exact ⟨List.forall_mem_cons.2 ⟨h.skipTrivia.cuts, htokens⟩, hstop⟩
    · rw [ofCursor_of_not_isValid (by simpa using hvalid)]
      exact ⟨by simp, h.skipTrivia⟩

theorem cuts_of_mem {t : Token} (h : t ∈ (ofText source).tokens) : t.span.Cuts source :=
  (cuts_ofCursor (Cursor.in_ofText source)).1 t h

end Scan

end TreeGrammar
