import Mathlib
import TreeGrammar.Proofs.Stepping

/-! # Lenient and strict scans

    A text is scanned in two ways: leniently, up to the first place where no
    token starts, or strictly, where such a place is an error unless the text
    ends there. The two are loops of their own, and the strict one reads the
    text once more to tell what the error is.

    Key idea:
    - both loops do one word after the other and come to the same place
      (`loop_lenientStep`, `loop_strictStep`);
    - the text up to that place is made of the tokens found, and nothing that
      stands behind it was needed to find them (`Scan.exists_front`);
    - so where a strict scan fails, the tokens of the lenient one are those of
      a text that is cut off at the error (`scans_agree`).
-/

namespace TreeGrammar

/-! ### The text in front of the stop -/

/-- No name goes on behind a name, wherever the text behind is cut off. -/
theorem EndsName.of_append {front behind : List Char} (h : EndsName (front ++ behind)) :
    EndsName front := by
  cases front with
  | nil =>
    intro c hc
    cases hc
  | cons c front => exact h

/-- What is passed outside of comments could stand at the end of a text. -/
theorem PassedTrivia.final {rest skipped : List Char} (h : Cursor.PassedTrivia rest skipped) :
    FinalTrivia skipped := by
  obtain ⟨-, hfinal⟩ | htrivia := h
  · exact hfinal
  · exact .closed htrivia

namespace Scan

/-- A scan stops where no token starts. -/
theorem isValid_stop (c : Cursor) : (ofCursor c).stop.next.1.kind.isValid = false := by
  induction hlength : c.rest.length using Nat.strongRecOn generalizing c with
  | ind length ih =>
    cases hvalid : c.skipTrivia.next.1.kind.isValid with
    | true =>
      obtain ⟨_, _, rest, _, -, hlt, -, -, -, -, hscan⟩ := exists_word hvalid
      rw [hscan]
      exact ih rest.length (hlength ▸ hlt) _ rfl
    | false =>
      rw [ofCursor_of_not_isValid hvalid]
      exact hvalid

/-- Without the text from the stop on, the same tokens are found, and nothing is left. -/
theorem exists_front (c : Cursor) :
    ∃ front, c.rest = front ++ (ofCursor c).stop.rest ∧
      (ofCursor c).stop.offset = c.offset + byteLength front ∧
      ofCursor ⟨c.offset, front⟩ = ⟨(ofCursor c).tokens, ⟨(ofCursor c).stop.offset, []⟩⟩ := by
  induction hlength : c.rest.length using Nat.strongRecOn generalizing c with
  | ind length ih =>
    cases hvalid : c.skipTrivia.next.1.kind.isValid with
    | true =>
      obtain ⟨trivia, text, rest, t, hrest, hlt, htrivia, hspelling, hends, hspan, hscan⟩ :=
        exists_word hvalid
      obtain ⟨front, hfront, hoffset, htokens⟩ :=
        ih rest.length (hlength ▸ hlt) ⟨c.offset + byteLength trivia + byteLength text, rest⟩ rfl
      rw [hscan]
      refine ⟨trivia ++ (text ++ front), ?_, ?_, ?_⟩
      · rw [hrest, List.append_assoc, List.append_assoc, ← hfront]
      · rw [hoffset]
        simp only [byteLength_append, Nat.add_assoc]
      · -- A name is as long as before: either the same character is behind it, or none.
        have hends' : t.kind = .name → EndsName front := by
          intro hname
          have hbehind := hends hname
          rw [show rest = _ from hfront] at hbehind
          exact hbehind.of_append
        rw [ofCursor_word htrivia hspelling c.offset hends', htokens, ← hspan]
    | false =>
      obtain ⟨skipped, hpasses, hpassed⟩ := Cursor.triviaEnd_sound false c.offset c.rest
      have hstop : c.skipTrivia.offset = c.offset + byteLength skipped := hpasses.offset
      rw [ofCursor_of_not_isValid hvalid]
      refine ⟨skipped, hpasses.text, hstop, ?_⟩
      rw [ofCursor_final (PassedTrivia.final hpassed), hstop]

/-- What is wrong with a scan is told by the character that it stops at. -/
theorem exists_of_complete_eq_error {s : Scan} {e : LexicalError} (h : s.complete = .error e) :
    ∃ c behind, s.stop.rest = c :: behind ∧
      e = if c = '\'' then .unterminatedLiteral s.stop.next.1.span
        else .unexpectedCharacter c s.stop.next.1.span := by
  unfold complete fault? at h
  cases hrest : s.stop.rest with
  | nil =>
    rw [hrest] at h
    cases h
  | cons c behind =>
    rw [hrest] at h
    refine ⟨c, behind, rfl, ?_⟩
    by_cases hquote : c = '\''
    · simp only [if_pos hquote] at h ⊢
      cases h
      rfl
    · simp only [if_neg hquote] at h ⊢
      cases h
      rfl

end Scan

/-! ### Two loops over the bytes -/

namespace Bytewise

section Loops

variable (source : String)

/-- One round of a lenient scan. -/
def lenientStep (found : List Token) : ByteM (List Token ⊕ List Token) := do
  skipTrivia source
  let token ← nextToken source
  if !token.kind.isValid then return .inr found
  return .inl (found ++ [token])

/-- The tokens of a text up to the first one that is not valid. -/
def lenient : ByteM (List Token) :=
  loop (lenientStep source) (rounds source) []

/-- The character that starts at an offset. -/
def charAt? (offset : Nat) : Option Char :=
  (dropBytes? offset source.toList).bind List.head?

/-- What is wrong with an invalid token, read off the text at its start. -/
def classify (span : Span) : LexicalError :=
  match charAt? source span.start with
  | some '\'' => .unterminatedLiteral span
  | some c => .unexpectedCharacter c span
  | none => .unexpectedCharacter '\uFFFD' span

/-- One round of a strict scan. -/
def strictStep (found : List Token) :
    ByteM (List Token ⊕ Except LexicalError (List Token)) := do
  skipTrivia source
  let token ← nextToken source
  match token.kind with
  | .endOfText => return .inr (.ok found)
  | .invalid => return .inr (.error (classify source token.span))
  | _ => return .inl (found ++ [token])

/-- The tokens of a text, or what is wrong with the first one that is not valid. -/
def strict : ByteM (Except LexicalError (List Token)) :=
  loop (strictStep source) (rounds source) []

end Loops

variable {source : String} {c : Cursor}

/-- The character at the offset of a cursor is the one behind the cursor. -/
theorem charAt?_of_in (h : c.In source) : charAt? source c.offset = c.rest.head? := by
  rw [charAt?, h.dropBytes?]
  rfl

/-- What is read off the text at an invalid token is what is wrong with the scan that stops
    there. -/
theorem complete_of_invalid (h : c.In source) (hkind : c.next.1.kind = .invalid)
    (tokens : List Token) :
    Scan.complete ⟨tokens, c⟩ = .error (classify source c.next.1.span) := by
  have hchar := charAt?_of_in h
  have hne : c.rest ≠ [] := by
    intro hnil
    have hend : c.next.1.kind = .endOfText := Lexeme.kind_eq_endOfText_iff.2 hnil
    rw [hkind] at hend
    cases hend
  obtain ⟨first, behind, hrest⟩ := List.exists_cons_of_ne_nil hne
  rw [hrest] at hchar
  unfold Scan.complete Scan.fault? classify
  rw [Cursor.start_next, hchar]
  simp only [hrest, List.head?_cons]
  by_cases hquote : first = '\''
  · subst hquote
    rfl
  · simp [hquote]

theorem complete_of_end (hkind : c.next.1.kind = .endOfText) (tokens : List Token) :
    Scan.complete ⟨tokens, c⟩ = .ok tokens :=
  Scan.complete_eq_ok_iff.2 ⟨Lexeme.kind_eq_endOfText_iff.1 hkind, rfl⟩

/-- A loop is allowed more rounds than a text has bytes. -/
theorem byteLength_lt_rounds (source : String) : byteLength source.toList < rounds source := by
  have hlt := (Ahead.of_in (Cursor.in_ofText source)).lt_rounds
  rwa [length_bytesOf] at hlt

section Rounds

variable (hroom : byteLength source.toList ≤ maxOffset)

include hroom

/-- A round that finds a token leads behind it, whatever is done with the token. -/
theorem round_apply {α : Type} (f : Token → ByteM α) (h : c.In source) :
    (do skipTrivia source; let token ← nextToken source; f token : ByteM α) c.offset =
      f c.skipTrivia.next.1 c.skipTrivia.next.2.offset := by
  have hskip := (h.steps hroom).skip_bytes
  have hnext := (h.skipTrivia.steps hroom).next_bytes
  rw [bind_of_ok hskip, bind_of_ok hnext]

theorem lenientStep_apply (h : c.In source) (found : List Token) :
    lenientStep source found c.offset =
      .ok (if c.skipTrivia.next.1.kind.isValid then .inl (found ++ [c.skipTrivia.next.1])
        else .inr found) c.skipTrivia.next.2.offset := by
  rw [lenientStep, round_apply hroom _ h]
  cases c.skipTrivia.next.1.kind.isValid <;> rfl

theorem strictStep_valid (h : c.In source) (hvalid : c.skipTrivia.next.1.kind.isValid = true)
    (found : List Token) :
    strictStep source found c.offset =
      .ok (.inl (found ++ [c.skipTrivia.next.1])) c.skipTrivia.next.2.offset := by
  rw [strictStep, round_apply hroom _ h]
  cases hkind : c.skipTrivia.next.1.kind with
  | endOfText | invalid =>
    rw [hkind] at hvalid
    cases hvalid
  | _ => rfl

theorem strictStep_stop (h : c.In source) (hvalid : c.skipTrivia.next.1.kind.isValid = false)
    (found : List Token) :
    strictStep source found c.offset =
      .ok (.inr (Scan.complete ⟨found, c.skipTrivia⟩)) c.skipTrivia.next.2.offset := by
  rw [strictStep, round_apply hroom _ h]
  cases hkind : c.skipTrivia.next.1.kind with
  | endOfText =>
    rw [complete_of_end hkind]
    rfl
  | invalid =>
    rw [complete_of_invalid h.skipTrivia hkind]
    rfl
  | _ =>
    rw [hkind] at hvalid
    cases hvalid

/-- Behind a token there is less text, so as many rounds as there are bytes are enough. -/
theorem byteLength_next_lt (h : c.In source) (hvalid : c.skipTrivia.next.1.kind.isValid = true) :
    byteLength c.skipTrivia.next.2.rest < byteLength c.rest := by
  have hkind : c.skipTrivia.next.1.kind ≠ .endOfText := by
    intro hend
    rw [hend] at hvalid
    cases hvalid
  have hskip := (h.steps hroom).skip_forward
  have hnext := (h.skipTrivia.steps hroom).next_forward hkind
  have hadd := h.offset_add
  have hadd' := h.skipTrivia.next.offset_add
  omega

/-- Round after round, a lenient scan adds the tokens from the cursor on. -/
theorem loop_lenientStep (h : c.In source) {n : Nat} (hn : byteLength c.rest < n)
    (found : List Token) :
    loop (lenientStep source) n found c.offset =
      .ok (found ++ (Scan.ofCursor c).tokens) (Scan.ofCursor c).stop.next.2.offset := by
  induction n generalizing c found with
  | zero => cases hn
  | succ n ih =>
    have hstep := lenientStep_apply hroom h found
    cases hvalid : c.skipTrivia.next.1.kind.isValid with
    | true =>
      rw [if_pos hvalid] at hstep
      have hlt := byteLength_next_lt hroom h hvalid
      -- The scan from the next cursor on is the rest of the scan from this one on.
      rw [loop_more hstep, ih h.skipTrivia.next (by omega), Scan.ofCursor_of_isValid hvalid,
        List.append_assoc]
      rfl
    | false =>
      rw [hvalid, if_neg Bool.false_ne_true] at hstep
      rw [loop_done hstep, Scan.ofCursor_of_not_isValid hvalid, List.append_nil]

/-- So does a strict one, which tells at the end whether the tokens are all there is. -/
theorem loop_strictStep (h : c.In source) {n : Nat} (hn : byteLength c.rest < n)
    (found : List Token) :
    loop (strictStep source) n found c.offset =
      .ok (Scan.complete ⟨found ++ (Scan.ofCursor c).tokens, (Scan.ofCursor c).stop⟩)
        (Scan.ofCursor c).stop.next.2.offset := by
  induction n generalizing c found with
  | zero => cases hn
  | succ n ih =>
    cases hvalid : c.skipTrivia.next.1.kind.isValid with
    | true =>
      have hlt := byteLength_next_lt hroom h hvalid
      rw [loop_more (strictStep_valid hroom h hvalid found), ih h.skipTrivia.next (by omega),
        Scan.ofCursor_of_isValid hvalid, List.append_assoc]
      rfl
    | false =>
      rw [loop_done (strictStep_stop hroom h hvalid found), Scan.ofCursor_of_not_isValid hvalid,
        List.append_nil]

theorem lenient_apply :
    lenient source 0 =
      .ok (Scan.ofText source).tokens (Scan.ofText source).stop.next.2.offset :=
  loop_lenientStep hroom (Cursor.in_ofText source) (byteLength_lt_rounds source) []

theorem strict_apply :
    strict source 0 =
      .ok (Scan.ofText source).complete (Scan.ofText source).stop.next.2.offset :=
  loop_strictStep hroom (Cursor.in_ofText source) (byteLength_lt_rounds source) []

end Rounds

/-! ### What an error says -/

/-- An error cuts a text at the character that it is about. -/
structure Cut (source : String) (e : LexicalError) (front : List Char) (c : Char)
    (behind : List Char) : Prop where
  /-- The text is what is before the character, the character and what is behind it. -/
  text : source.toList = front ++ c :: behind
  /-- The error starts with the character, which is found again at its offset. -/
  start : e.span.start = byteLength front
  found : charAt? source e.span.start = some c
  /-- So it starts inside the text. -/
  within : e.span.start < byteLength source.toList
  /-- At an apostrophe, and only there, it is a literal without an end, up to the end of the
      text. -/
  literal : c = '\'' ↔ ∃ span, e = .unterminatedLiteral span ∧ span.start = byteLength front ∧
    span.stop = byteLength source.toList
  /-- At anything else it is the character, and no more than the character. -/
  stray : c ≠ '\'' ↔ ∃ span, e = .unexpectedCharacter c span ∧ span.start = byteLength front ∧
    span.stop = byteLength (front ++ [c])
  /-- The text before the character is made of the tokens that a lenient scan of the whole text
      finds. -/
  tokens : strict (String.ofList front) 0 = .ok (.ok (Scan.ofText source).tokens) (byteLength front)

/-- Where the tokens of a text stop in front of a character, the error is about the character. -/
theorem span_next_of_invalid {offset : Nat} {c : Char} {behind : List Char}
    (h : (Cursor.next ⟨offset, c :: behind⟩).1.kind.isValid = false) :
    (Cursor.next ⟨offset, c :: behind⟩).1.span =
      Span.ofLength offset (if c = '\'' then byteLength (c :: behind) else c.utf8Size) := by
  have hkind : (Lexeme.first (c :: behind)).kind = .invalid := by
    have hend : (Lexeme.first (c :: behind)).kind ≠ .endOfText :=
      fun hend => absurd (Lexeme.kind_eq_endOfText_iff.1 hend) (List.cons_ne_nil _ _)
    cases hkind : (Lexeme.first (c :: behind)).kind with
    | invalid => rfl
    | endOfText => exact absurd hkind hend
    | _ =>
      rw [show (Cursor.next ⟨offset, c :: behind⟩).1.kind = _ from hkind] at h
      cases h
  obtain ⟨rest, hrest⟩ := Lexeme.exists_append (c :: behind)
  show Span.ofLength offset (byteLength (Lexeme.first (c :: behind)).text) = _
  obtain ⟨hquote, htext⟩ | ⟨c', hne, htext⟩ := Lexeme.text_of_invalid hkind
  · rw [htext] at hquote ⊢
    rw [if_pos (Option.some.inj hquote)]
  · rw [htext] at hrest ⊢
    obtain ⟨rfl, -⟩ := List.cons.inj hrest
    rw [if_neg hne]
    rfl

/-- The text in front of the stop, on its own, is scanned strictly without an error. -/
theorem strict_front (hroom : byteLength source.toList ≤ maxOffset) :
    ∃ front, source.toList = front ++ (Scan.ofText source).stop.rest ∧
      (Scan.ofText source).stop.offset = byteLength front ∧
      strict (String.ofList front) 0 =
        .ok (.ok (Scan.ofText source).tokens) (byteLength front) := by
  obtain ⟨front, htext, hoffset, hscan⟩ := Scan.exists_front (Cursor.ofText source)
  have htext : source.toList = front ++ (Scan.ofText source).stop.rest := htext
  have hoffset : (Scan.ofText source).stop.offset = byteLength front :=
    hoffset.trans (Nat.zero_add _)
  have hscan : Scan.ofText (String.ofList front) =
      ⟨(Scan.ofText source).tokens, ⟨byteLength front, []⟩⟩ := by
    rw [Scan.ofText, Cursor.ofText, String.toList_ofList]
    rw [← hoffset]
    exact hscan
  have hlength : byteLength (String.ofList front).toList ≤ maxOffset := by
    rw [htext, byteLength_append] at hroom
    rw [String.toList_ofList]
    omega
  refine ⟨front, htext, hoffset, ?_⟩
  rw [strict_apply hlength, hscan]
  rfl

/-- A strict scan that fails cuts the text. -/
theorem exists_cut (hroom : byteLength source.toList ≤ maxOffset) {e : LexicalError}
    (h : (Scan.ofText source).complete = .error e) :
    ∃ front c behind, Cut source e front c behind := by
  obtain ⟨front, htext, hoffset, hfront⟩ := strict_front hroom
  obtain ⟨c, behind, hrest, he⟩ := Scan.exists_of_complete_eq_error h
  have hvalid : (Scan.ofText source).stop.next.1.kind.isValid = false := Scan.isValid_stop _
  have hstop : (Scan.ofText source).stop = ⟨byteLength front, c :: behind⟩ := by
    rw [← hoffset, ← hrest]
  rw [hstop] at he hvalid htext
  have htext : source.toList = front ++ c :: behind := htext
  have hspan := span_next_of_invalid hvalid
  have hchar : charAt? source (byteLength front) = some c :=
    charAt?_of_in (c := ⟨byteLength front, c :: behind⟩) ⟨front, htext, rfl⟩
  have hlength : byteLength source.toList = byteLength front + byteLength (c :: behind) := by
    rw [htext, byteLength_append]
  have hwithin : byteLength front < byteLength source.toList := by
    have hpos := Nat.pos_of_ne_zero (mt byteLength_eq_zero_iff.1 (List.cons_ne_nil c behind))
    omega
  refine ⟨front, c, behind, ?_⟩
  rw [hspan] at he
  -- The two kinds of errors exclude each other, and so do the two kinds of characters.
  by_cases hquote : c = '\''
  · rw [if_pos hquote, if_pos hquote] at he
    subst he
    refine ⟨htext, rfl, hchar, hwithin, ?_, ?_, hfront⟩
    · exact iff_of_true hquote ⟨_, rfl, rfl, hlength.symm⟩
    · refine iff_of_false (not_not_intro hquote) ?_
      rintro ⟨_, h, -⟩
      cases h
  · rw [if_neg hquote, if_neg hquote] at he
    subst he
    refine ⟨htext, rfl, hchar, hwithin, ?_, ?_, hfront⟩
    · refine iff_of_false hquote ?_
      rintro ⟨_, h, -⟩
      cases h
    · exact iff_of_true hquote ⟨_, rfl, rfl, by simp⟩

/-- On a source whose length fits in 32 bits, both scans come to an end at the same place. Where
    the strict one succeeds, the lenient one has found the same tokens; where it fails, it cuts the
    source at a character, and the lenient one has found the tokens of what is before. -/
theorem scans_agree (source : String) (hroom : byteLength source.toList ≤ maxOffset) :
    ∃ stop,
      lenient source 0 = .ok (Scan.ofText source).tokens stop ∧
      strict source 0 = .ok (Scan.ofText source).complete stop ∧
      (∀ tokens, (Scan.ofText source).complete = .ok tokens →
        (Scan.ofText source).tokens = tokens) ∧
      ∀ e, (Scan.ofText source).complete = .error e →
        ∃ front c behind, Cut source e front c behind := by
  refine ⟨_, lenient_apply hroom, strict_apply hroom, ?_, ?_⟩
  · intro tokens h
    exact (Scan.complete_eq_ok_iff.1 h).2
  · intro e h
    exact exists_cut hroom h

/-- A name ends where a character stands that starts no token. -/
theorem scans_agree_stray :
    let source := "a = bé 'c"
    let tokens : List Token := [⟨.name, Span.ofLength 0 1, some "a"⟩,
      ⟨.equals, Span.ofLength 2 1, none⟩, ⟨.name, Span.ofLength 4 1, some "b"⟩]
    byteLength source.toList ≤ maxOffset ∧
    ∃ stop, lenient source 0 = .ok tokens stop ∧
      strict source 0 = .ok (.error (.unexpectedCharacter 'é' (Span.ofLength 5 2))) stop ∧
      ∃ front c behind,
        Cut source (.unexpectedCharacter 'é' (Span.ofLength 5 2)) front c behind := by
  intro source tokens
  have hroom : byteLength source.toList ≤ maxOffset := by decide
  have htokens : (Scan.ofText source).tokens = tokens := by cbv
  have herror : (Scan.ofText source).complete =
      .error (.unexpectedCharacter 'é' (Span.ofLength 5 2)) := by cbv
  obtain ⟨stop, hlenient, hstrict, -, hcut⟩ := scans_agree source hroom
  rw [htokens] at hlenient
  rw [herror] at hstrict
  exact ⟨hroom, stop, hlenient, hstrict, hcut _ herror⟩

end Bytewise

end TreeGrammar
