import TreeGrammar.Proofs.Boundaries
import TreeGrammar.Proofs.Descent
import TreeGrammar.Proofs.Utf8

/-! # Reading byte by byte

    A second reader of tokens that knows no characters. It holds an offset
    into the bytes of a text, moves it by bytes, and cuts texts and spans at
    the offsets that it comes to, whatever they are.

    Key idea:
    - whatever could go wrong on the way is a fault of its own
      (`ByteFault`), so a run without a fault is one where nothing did;
    - what a step of the reader does is settled by the bytes ahead
      (`Ahead`), and each loop by an induction on them;
    - from a cursor of a text the reader gives the token of the cursor and
      stops where the cursor does (`skipTrivia_apply`, `nextToken_apply`).
-/

namespace TreeGrammar

/-- What a reader of bytes may run into. -/
inductive ByteFault where
  /-- Characters are asked for from the middle of a character on. -/
  | boundary
  /-- A slice ends before it starts, or behind the text. -/
  | range
  /-- A span ends before it starts. -/
  | order
  /-- An offset takes more than 32 bits. -/
  | overflow
  /-- Bytes that are to be read as characters are none. -/
  | undecodable
  /-- A loop takes more rounds than there are bytes. -/
  | endless
  deriving DecidableEq, Repr

/-- Programs on an offset into a text. -/
abbrev ByteM := EStateM ByteFault Nat

namespace Bytewise

/-- The greatest offset that 32 bits hold. -/
def maxOffset : Nat := 4294967295

/-- Runs a body until it gives a result, for a limited number of rounds. -/
def loop {α β : Type} (body : β → ByteM (β ⊕ α)) : Nat → β → ByteM α
  | 0, _ => throw .endless
  | rounds + 1, b => do
    match ← body b with
    | .inl b => loop body rounds b
    | .inr a => return a

/-- Moves on by some bytes. -/
def advance (count : Nat) : ByteM Unit := do
  let pos ← get
  if pos + count ≤ maxOffset then set (pos + count) else throw .overflow

/-- The span from an offset up to the present one. -/
def spanSince (start : Nat) : ByteM Span := do
  match Span.ofBounds? start (← get) with
  | some span => return span
  | none => throw .order

/-- The characters that some bytes stand for. -/
def decode (bytes : List UInt8) : ByteM String :=
  match String.fromUTF8? bytes.toByteArray with
  | some text => return text
  | none => throw .undecodable

section Reader

variable (source : String)

/-- The bytes of the text. -/
def bytes : List UInt8 :=
  source.toUTF8.data.toList

/-- As many rounds as any loop over the text can take. -/
def rounds : Nat :=
  (bytes source).length + 1

/-- The next byte, which stays ahead. -/
def peek : ByteM (Option UInt8) :=
  return (bytes source)[← get]?

/-- Takes the next byte. -/
def next : ByteM (Option UInt8) := do
  match ← peek source with
  | none => return none
  | some byte =>
    advance 1
    return some byte

/-- The bytes from an offset up to another one. -/
def slice (start stop : Nat) : ByteM (List UInt8) :=
  if start ≤ stop ∧ stop ≤ (bytes source).length then
    return ((bytes source).drop start).take (stop - start)
  else throw .range

/-- Takes the next byte if it passes a test, and stops otherwise. -/
def consumeStep (p : UInt8 → Bool) (_ : Unit) : ByteM (Unit ⊕ Unit) := do
  match ← peek source with
  | none => return .inr ()
  | some byte =>
    if p byte then
      let _ ← next source
      return .inl ()
    else return .inr ()

/-- Takes bytes as long as they pass a test. -/
def consumeWhile (p : UInt8 → Bool) : ByteM Span := do
  let start ← get
  loop (consumeStep source p) (rounds source) ()
  spanSince start

/-- Takes some bytes, if the text goes on with them, and tells whether it did. -/
def sequence (text : List UInt8) : ByteM Bool := do
  if text.isPrefixOf (← slice source (← get) (bytes source).length) then
    advance text.length
    return true
  else return false

/-- Skips blanks, which may be any number of bytes each. -/
def skipWhitespace : ByteM Unit := do
  match dropBytes? (← get) source.toList with
  | some rest => advance (byteLength (rest.takeWhile isWhiteSpace))
  | none => throw .boundary

/-- Skips blanks and a comment, and stops if there is no comment. -/
def triviaStep (_ : Unit) : ByteM (Unit ⊕ Unit) := do
  skipWhitespace source
  if ← sequence source (['/', '/'].map Char.toUInt8) then
    -- The line feed is skipped with the blanks of the next round.
    let _ ← consumeWhile source (· != '\n'.toUInt8)
    return .inl ()
  else return .inr ()

/-- Skips blanks and comments. -/
def skipTrivia : ByteM Unit :=
  loop (triviaStep source) (rounds source) ()

/-- One round inside a literal that starts at an offset. The bytes of its value so far are
    kept. -/
def literalStep (start : Nat) (buffer : List UInt8) : ByteM (List UInt8 ⊕ Token) := do
  match ← next source with
  | none => return .inr ⟨.invalid, ← spanSince start, none⟩
  | some byte =>
    if byte = '\\'.toUInt8 then
      match ← next source with
      | none => return .inr ⟨.invalid, ← spanSince start, none⟩
      | some escaped => return .inl (buffer ++ [escaped])
    else if byte = '\''.toUInt8 then
      let value ← decode buffer
      return .inr ⟨.literal, ← spanSince start, some value⟩
    else return .inl (buffer ++ [byte])

/-- A literal, behind its opening apostrophe. -/
def literal (start : Nat) : ByteM Token :=
  loop (literalStep source start) (rounds source) []

/-- Takes one token, which starts at the present offset. -/
def nextToken : ByteM Token := do
  let start ← get
  match ← next source with
  | none => return ⟨.endOfText, ← spanSince start, none⟩
  | some byte =>
    let c := Char.ofUInt8 byte
    match TokenKind.ofMark? c with
    | some kind => return ⟨kind, ← spanSince start, none⟩
    | none =>
      if c = '\'' then literal source start
      else if isNameChar c then
        let _ ← consumeWhile source fun byte => isNameChar (Char.ofUInt8 byte)
        let span ← spanSince start
        let value ← decode (← slice source span.start span.stop)
        return ⟨.name, span, some value⟩
      else
        -- A character is not left in the middle.
        let _ ← consumeWhile source isTail
        return ⟨.invalid, ← spanSince start, none⟩

end Reader

/-! ### Small steps -/

section Steps

variable {source : String} {pos : Nat} {rest : List UInt8}

theorem bytes_eq (source : String) : bytes source = bytesOf source.toList := by
  rw [bytes, toUTF8_eq, List.toList_data_toByteArray]

/-- What lies ahead of an offset. -/
structure Ahead (source : String) (pos : Nat) (rest : List UInt8) : Prop where
  within : pos ≤ (bytes source).length
  drop : (bytes source).drop pos = rest

theorem Ahead.add (h : Ahead source pos rest) : pos + rest.length = (bytes source).length := by
  have := h.within
  rw [← h.drop, List.length_drop]
  omega

theorem Ahead.lt_rounds (h : Ahead source pos rest) : rest.length < rounds source := by
  have := h.add
  unfold rounds
  omega

theorem Ahead.append {front : List UInt8} (h : Ahead source pos (front ++ rest)) :
    Ahead source (pos + front.length) rest := by
  refine ⟨?_, ?_⟩
  · have := h.add
    simp only [List.length_append] at this
    omega
  · rw [← List.drop_drop, h.drop, List.drop_left]

theorem Ahead.tail {byte : UInt8} (h : Ahead source pos (byte :: rest)) :
    Ahead source (pos + 1) rest := by
  have h' : Ahead source pos ([byte] ++ rest) := h
  exact h'.append

theorem Ahead.of_in {c : Cursor} (h : c.In source) : Ahead source c.offset (bytesOf c.rest) := by
  obtain ⟨front, hsource, hfront⟩ := h
  have hbytes : bytes source = bytesOf front ++ bytesOf c.rest := by
    rw [bytes_eq, hsource, bytesOf_append]
  rw [← hfront, ← length_bytesOf]
  exact ⟨by simp [hbytes], by rw [hbytes, List.drop_left]⟩

theorem get_bind {α : Type} (f : Nat → ByteM α) (pos : Nat) : (get >>= f) pos = f pos pos := rfl

theorem spanSince_apply (start length : Nat) :
    spanSince start (start + length) = .ok (Span.ofLength start length) (start + length) := by
  have hspan := Span.ofBounds?_bounds (Span.ofLength start length)
  rw [Span.start_ofLength, Span.stop_ofLength] at hspan
  rw [spanSince, get_bind, hspan]
  rfl

theorem decode_apply (cs : List Char) (pos : Nat) :
    decode (bytesOf cs) pos = .ok (String.ofList cs) pos := by
  rw [decode, fromUTF8?_bytesOf]
  rfl

theorem peek_apply (h : Ahead source pos rest) : peek source pos = .ok rest.head? pos := by
  rw [← h.drop, List.head?_drop]
  rfl

theorem next_nil (h : Ahead source pos []) : next source pos = .ok none pos := by
  rw [next, bind_of_ok (peek_apply h)]
  rfl

theorem slice_apply {front : List UInt8} (h : Ahead source pos (front ++ rest)) (pos' : Nat) :
    slice source pos (pos + front.length) pos' = .ok front pos' := by
  rw [slice, if_pos ⟨Nat.le_add_right _ _, h.append.within⟩, h.drop, Nat.add_sub_cancel_left,
    List.take_left]
  rfl

section Loop

variable {α β : Type} {body : β → ByteM (β ⊕ α)} {b b' : β} {a : α} {pos' : Nat}

theorem loop_done (h : body b pos = .ok (.inr a) pos') (n : Nat) :
    loop body (n + 1) b pos = .ok a pos' := by
  rw [loop, bind_of_ok h]
  rfl

theorem loop_more (h : body b pos = .ok (.inl b') pos') (n : Nat) :
    loop body (n + 1) b pos = loop body n b' pos' := by
  rw [loop, bind_of_ok h]

end Loop

end Steps

/-! ### Ends of tokens -/

/-- The token of a lexeme at an offset, and the offset behind it. -/
def tokenEnd (offset : Nat) (l : Lexeme) : EStateM.Result ByteFault Nat Token :=
  .ok ⟨l.kind, Span.ofLength offset (byteLength l.text), l.value⟩ (offset + byteLength l.text)

theorem spanSince_tokenEnd (offset : Nat) (l : Lexeme) :
    (do return ⟨l.kind, ← spanSince offset, l.value⟩ : ByteM Token)
        (offset + byteLength l.text) = tokenEnd offset l :=
  bind_of_ok (spanSince_apply offset (byteLength l.text)) _

section Literal

variable {source : String} {start taken : Nat} {value cs : List Char}

/-- How a literal ends that starts at an offset, of which some bytes have been taken and some
    characters are known, and that goes on with a text. -/
def literalEnd (start taken : Nat) (value cs : List Char) : EStateM.Result ByteFault Nat Token :=
  match Literal.inside? cs with
  | some i =>
    .ok ⟨.literal, Span.ofLength start (taken + byteLength i.text),
      some (String.ofList (value ++ i.value))⟩ (start + (taken + byteLength i.text))
  | none =>
    .ok ⟨.invalid, Span.ofLength start (taken + byteLength cs), none⟩
      (start + (taken + byteLength cs))

theorem literalEnd_plain {c : Char} (hquote : c ≠ '\'') (hslash : c ≠ '\\') :
    literalEnd start taken value (c :: cs) =
      literalEnd start (taken + c.utf8Size) (value ++ [c]) cs := by
  unfold literalEnd
  rw [Literal.inside?_cons cs hquote hslash]
  cases Literal.inside? cs <;> simp [Nat.add_assoc]

theorem literalEnd_escaped (c : Char) :
    literalEnd start taken value ('\\' :: c :: cs) =
      literalEnd start (taken + 1 + c.utf8Size) (value ++ [c]) cs := by
  have hslash : ('\\' : Char).utf8Size = 1 := by decide
  unfold literalEnd
  rw [Literal.inside?_backslash_cons]
  cases Literal.inside? cs <;> simp [hslash, Nat.add_assoc]

theorem literalEnd_eq (offset : Nat) (cs : List Char) :
    literalEnd offset 1 [] cs = tokenEnd offset (Lexeme.literal cs) := by
  have hquote : ('\'' : Char).utf8Size = 1 := by decide
  unfold literalEnd Lexeme.literal
  cases Literal.inside? cs <;> simp [tokenEnd, Lexeme.mark, hquote]

/-- A literal that is not closed ends with the text. -/
theorem loop_literalStep_nil (h : Ahead source (start + taken) []) (buffer : List UInt8) (n : Nat) :
    loop (literalStep source start) (n + 1) buffer (start + taken) =
      .ok ⟨.invalid, Span.ofLength start taken, none⟩ (start + taken) := by
  refine loop_done ?_ n
  rw [literalStep, bind_of_ok (next_nil h)]
  exact bind_of_ok (spanSince_apply start taken) _

/-- A byte that a literal keeps as it is. -/
def Plain (byte : UInt8) : Prop :=
  byte ≠ '\\'.toUInt8 ∧ byte ≠ '\''.toUInt8

/-- The bytes of a character that stands for itself. -/
theorem plain_encode {c : Char} (hquote : c ≠ '\'') (hslash : c ≠ '\\') :
    ∀ byte ∈ String.utf8EncodeChar c, Plain byte := by
  intro byte hbyte
  have hslash' :=
    (recognises_ne (d := '\\') (by decide)).passes c (by simpa using hslash) byte hbyte
  have hquote' :=
    (recognises_ne (d := '\'') (by decide)).passes c (by simpa using hquote) byte hbyte
  exact ⟨by simpa using hslash', by simpa using hquote'⟩

/-- The bytes that go on with a character have no ASCII code. -/
theorem plain_tails {tails : List UInt8} (h : ∀ byte ∈ tails, isTail byte = true) :
    ∀ byte ∈ tails, Plain byte := by
  intro byte hbyte
  have := h byte hbyte
  constructor
  all_goals
    rintro rfl
    revert this
    decide

end Literal

/-! ### Readers with room -/

section Room

variable {source : String} {pos : Nat} {rest : List UInt8}
  (hroom : (bytes source).length ≤ maxOffset)

include hroom

/-- Offsets of the text fit in 32 bits. -/
theorem advance_apply {front : List UInt8} (h : Ahead source pos (front ++ rest)) :
    advance front.length pos = .ok () (pos + front.length) := by
  rw [advance, get_bind, if_pos (Nat.le_trans h.append.within hroom)]
  rfl

theorem next_cons {byte : UInt8} (h : Ahead source pos (byte :: rest)) :
    next source pos = .ok (some byte) (pos + 1) := by
  have h' : Ahead source pos ([byte] ++ rest) := h
  rw [next, bind_of_ok (peek_apply h)]
  exact bind_of_ok (advance_apply hroom h') _

theorem loop_consumeStep (p : UInt8 → Bool) (h : Ahead source pos rest) {n : Nat}
    (hn : rest.length < n) :
    loop (consumeStep source p) n () pos = .ok () (pos + (rest.takeWhile p).length) := by
  induction rest generalizing pos n with
  | nil =>
    obtain ⟨n, rfl⟩ := Nat.exists_eq_add_one.2 (Nat.zero_lt_of_lt hn)
    refine loop_done ?_ n
    rw [consumeStep, bind_of_ok (peek_apply h)]
    rfl
  | cons byte rest ih =>
    obtain ⟨n, rfl⟩ := Nat.exists_eq_add_one.2 (Nat.zero_lt_of_lt hn)
    by_cases hp : p byte = true
    · have hstep : consumeStep source p () pos = .ok (.inl ()) (pos + 1) := by
        rw [consumeStep, bind_of_ok (peek_apply h)]
        simp only [List.head?_cons, if_pos hp]
        exact bind_of_ok (next_cons hroom h) _
      rw [loop_more hstep, ih h.tail (by simpa using hn), List.takeWhile_cons_of_pos hp,
        List.length_cons, Nat.add_assoc, Nat.add_comm 1]
    · refine loop_done ?_ n
      rw [consumeStep, bind_of_ok (peek_apply h), List.takeWhile_cons_of_neg hp]
      simp only [List.head?_cons, if_neg hp]
      rfl

/-- Bytes that pass a test are taken. -/
theorem consumeWhile_apply (p : UInt8 → Bool) (h : Ahead source pos rest) :
    consumeWhile source p pos =
      .ok (Span.ofLength pos (rest.takeWhile p).length) (pos + (rest.takeWhile p).length) := by
  rw [consumeWhile, get_bind, bind_of_ok (loop_consumeStep hroom p h h.lt_rounds)]
  exact spanSince_apply pos _

theorem sequence_apply (text : List UInt8) (h : Ahead source pos rest) :
    sequence source text pos =
      .ok (text.isPrefixOf rest) (if text.isPrefixOf rest then pos + text.length else pos) := by
  have hslice : slice source pos (bytes source).length pos = .ok rest pos := by
    have h' : Ahead source pos (rest ++ []) := by simpa using h
    have := slice_apply h' pos
    rwa [h.add] at this
  rw [sequence, get_bind, bind_of_ok hslice]
  split
  case isTrue hopens =>
    obtain ⟨behind, rfl⟩ := List.isPrefixOf_iff_prefix.1 hopens
    rw [bind_of_ok (advance_apply hroom h), hopens]
    rfl
  case isFalse hopens =>
    rw [Bool.not_eq_true] at hopens
    rw [hopens]
    rfl

theorem skipWhitespace_apply {c : Cursor} (h : c.In source) :
    skipWhitespace source c.offset =
      .ok () (c.offset + byteLength (c.rest.takeWhile isWhiteSpace)) := by
  have hahead := Ahead.of_in h
  rw [← List.takeWhile_append_dropWhile (p := isWhiteSpace) (l := c.rest), bytesOf_append]
    at hahead
  have hadvance := advance_apply hroom hahead
  rw [length_bytesOf] at hadvance
  rw [skipWhitespace, get_bind, h.dropBytes?]
  exact hadvance

/-! ### Trivia -/

/-- The rest of a line is taken. -/
theorem consumeLine_apply {offset : Nat} {cs : List Char} (h : Cursor.In source ⟨offset, cs⟩) :
    ∃ span, consumeWhile source (· != '\n'.toUInt8) offset =
      .ok span (offset + byteLength (cs.takeWhile (· != '\n'))) := by
  have hconsume := consumeWhile_apply hroom (· != '\n'.toUInt8) (Ahead.of_in h)
  rw [takeWhile_bytesOf (recognises_ne (by decide)), length_bytesOf] at hconsume
  exact ⟨_, hconsume⟩

/-- Two slashes are taken, and nothing else is. -/
theorem slashes_apply {offset : Nat} {cs : List Char} (h : Cursor.In source ⟨offset, cs⟩) :
    sequence source (['/', '/'].map Char.toUInt8) offset =
      .ok (['/', '/'].isPrefixOf cs) (if ['/', '/'].isPrefixOf cs then offset + 2 else offset) := by
  have hslash : ('/' : Char).toNat < 0x80 := by decide
  have hascii : ∀ d ∈ ['/', '/'], d.toNat < 0x80 :=
    List.forall_mem_cons.2 ⟨hslash, List.forall_mem_singleton.2 hslash⟩
  have hslashes := sequence_apply hroom (['/', '/'].map Char.toUInt8) (Ahead.of_in h)
  rwa [isPrefixOf_bytesOf hascii] at hslashes

section Round

variable {offset : Nat} {cs : List Char}

/-- A cursor behind blanks and the line of a comment. -/
theorem triviaStep_comment {line : List Char} (h : Cursor.In source ⟨offset, cs⟩)
    (hline : cs.dropWhile isWhiteSpace = '/' :: '/' :: line) :
    triviaStep source () offset =
      .ok (.inl ()) (offset + byteLength (cs.takeWhile isWhiteSpace) + 2 +
        byteLength (line.takeWhile (· != '\n'))) ∧
    Cursor.In source ⟨offset + byteLength (cs.takeWhile isWhiteSpace) + 2, line⟩ := by
  have hblanks := skipWhitespace_apply hroom h
  rw [← List.takeWhile_append_dropWhile (p := isWhiteSpace) (l := cs), hline] at h
  have hslashes := slashes_apply hroom h.append
  have hin : Cursor.In source ⟨offset + byteLength (cs.takeWhile isWhiteSpace) + 2, line⟩ := by
    have hopen : Cursor.In source ⟨_, ['/', '/'] ++ line⟩ := h.append
    exact hopen.append
  obtain ⟨span, hconsume⟩ := consumeLine_apply hroom hin
  refine ⟨?_, hin⟩
  rw [triviaStep, bind_of_ok hblanks, bind_of_ok hslashes]
  exact bind_of_ok hconsume _

/-- A cursor behind blanks only. -/
theorem triviaStep_stop (h : Cursor.In source ⟨offset, cs⟩)
    (hopen : ['/', '/'].isPrefixOf (cs.dropWhile isWhiteSpace) = false) :
    triviaStep source () offset =
      .ok (.inr ()) (offset + byteLength (cs.takeWhile isWhiteSpace)) := by
  have hblanks := skipWhitespace_apply hroom h
  rw [← List.takeWhile_append_dropWhile (p := isWhiteSpace) (l := cs)] at h
  have hslashes := slashes_apply hroom h.append
  rw [hopen] at hslashes
  rw [triviaStep, bind_of_ok hblanks, bind_of_ok hslashes]
  rfl

/-- Round after round, blanks and comments are skipped as they are from the cursor. -/
theorem loop_triviaStep (h : Cursor.In source ⟨offset, cs⟩) {n : Nat} (hn : byteLength cs < n) :
    loop (triviaStep source) n () offset = .ok () (Cursor.triviaEnd false offset cs).offset := by
  induction n generalizing offset cs with
  | zero => omega
  | succ n ih =>
    have hsplit := List.takeWhile_append_dropWhile (p := isWhiteSpace) (l := cs)
    rw [Cursor.triviaEnd_blanks]
    by_cases hopen : ['/', '/'].isPrefixOf (cs.dropWhile isWhiteSpace) = true
    · obtain ⟨line, hopens⟩ := List.isPrefixOf_iff_prefix.1 hopen
      have hline : cs.dropWhile isWhiteSpace = '/' :: '/' :: line := hopens.symm
      obtain ⟨hstep, hin⟩ := triviaStep_comment hroom h hline
      -- The loop goes on behind the line, which is shorter by the slashes at least.
      have hsplit' := List.takeWhile_append_dropWhile (p := (· != '\n')) (l := line)
      have hlt : byteLength (line.dropWhile (· != '\n')) < n := by
        have hcs := congrArg byteLength hsplit
        have hrest := congrArg byteLength hsplit'
        have hslash : ('/' : Char).utf8Size = 1 := by decide
        rw [hline] at hcs
        simp only [byteLength_append, byteLength_cons, hslash] at hcs hrest
        omega
      have hbehind : Cursor.In source ⟨_ + byteLength (line.takeWhile (· != '\n')),
          line.dropWhile (· != '\n')⟩ := Cursor.In.append (by rwa [hsplit'])
      rw [loop_more hstep, ih hbehind hlt, hline, Cursor.triviaEnd_open, Cursor.triviaEnd_line]
    · rw [Bool.not_eq_true] at hopen
      have hblank : ∀ c ∈ (cs.dropWhile isWhiteSpace).head?, isWhiteSpace c = false := by
        intro c hc
        have := List.head?_dropWhile_not isWhiteSpace cs
        rw [Option.mem_def.1 hc] at this
        simpa using this
      rw [Cursor.triviaEnd_stop _ hblank hopen]
      exact loop_done (triviaStep_stop hroom h hopen) n

end Round

/-- Trivia are skipped as they are from the cursor. -/
theorem skipTrivia_apply {c : Cursor} (h : c.In source) :
    skipTrivia source c.offset = .ok () c.skipTrivia.offset := by
  refine loop_triviaStep hroom h ?_
  have := (Ahead.of_in h).lt_rounds
  rwa [length_bytesOf] at this

/-! ### Literals -/

/-- Bytes that are neither a backslash nor an apostrophe are kept as they are. -/
theorem loop_literalStep_plain {front : List UInt8} (start : Nat) (buffer : List UInt8)
    (hfront : ∀ byte ∈ front, Plain byte)
    (h : Ahead source pos (front ++ rest)) (n : Nat) :
    loop (literalStep source start) (n + front.length) buffer pos =
      loop (literalStep source start) n (buffer ++ front) (pos + front.length) := by
  induction front generalizing buffer pos with
  | nil => simp
  | cons byte front ih =>
    rw [List.forall_mem_cons] at hfront
    have hstep : literalStep source start buffer pos = .ok (.inl (buffer ++ [byte])) (pos + 1) := by
      rw [literalStep, bind_of_ok (next_cons hroom h)]
      simp only [if_neg hfront.1.1, if_neg hfront.1.2]
      rfl
    rw [List.length_cons, ← Nat.add_assoc, loop_more hstep, ih _ hfront.2 h.tail,
      List.append_assoc]
    congr 1
    omega

section Inside

variable {start taken : Nat} {value cs : List Char}

/-- So does one that ends with a backslash. -/
theorem loop_literalStep_backslash (h : Ahead source (start + taken) ['\\'.toUInt8])
    (buffer : List UInt8) (n : Nat) :
    loop (literalStep source start) (n + 1) buffer (start + taken) =
      .ok ⟨.invalid, Span.ofLength start (taken + 1), none⟩ (start + (taken + 1)) := by
  refine loop_done ?_ n
  rw [literalStep, bind_of_ok (next_cons hroom h)]
  simp only [if_true]
  rw [bind_of_ok (next_nil h.tail), Nat.add_assoc]
  exact bind_of_ok (spanSince_apply start _) _

/-- An apostrophe closes the literal. -/
theorem loop_literalStep_quote (h : Ahead source (start + taken) ('\''.toUInt8 :: rest))
    (value : List Char) (n : Nat) :
    loop (literalStep source start) (n + 1) (bytesOf value) (start + taken) =
      .ok ⟨.literal, Span.ofLength start (taken + 1), some (String.ofList value)⟩
        (start + (taken + 1)) := by
  have hne : '\''.toUInt8 ≠ '\\'.toUInt8 := by decide
  refine loop_done ?_ n
  rw [literalStep, bind_of_ok (next_cons hroom h)]
  simp only [if_neg hne, if_true]
  rw [bind_of_ok (decode_apply value _), Nat.add_assoc]
  exact bind_of_ok (spanSince_apply start _) _

/-- The byte behind a backslash is kept as it is. -/
theorem loop_literalStep_escape {byte : UInt8} (h : Ahead source pos ('\\'.toUInt8 :: byte :: rest))
    (buffer : List UInt8) (n : Nat) :
    loop (literalStep source start) (n + 1) buffer pos =
      loop (literalStep source start) n (buffer ++ [byte]) (pos + 2) := by
  refine loop_more ?_ n
  rw [literalStep, bind_of_ok (next_cons hroom h)]
  simp only [if_true]
  rw [bind_of_ok (next_cons hroom h.tail)]
  rfl

/-- A character that stands for itself is kept. -/
theorem loop_literalStep_char {c : Char} (hquote : c ≠ '\'') (hslash : c ≠ '\\')
    (h : Cursor.In source ⟨start + taken, c :: cs⟩) {n : Nat} (hn : byteLength (c :: cs) < n)
    (value : List Char) :
    ∃ n', byteLength cs < n' ∧
      loop (literalStep source start) n (bytesOf value) (start + taken) =
        loop (literalStep source start) n' (bytesOf (value ++ [c]))
          (start + (taken + c.utf8Size)) ∧
      Cursor.In source ⟨start + (taken + c.utf8Size), cs⟩ := by
  have hahead := Ahead.of_in h
  have hfront : Cursor.In source ⟨start + taken, [c] ++ cs⟩ := h
  obtain ⟨n, rfl⟩ : ∃ n', n = n' + (String.utf8EncodeChar c).length := by
    rw [byteLength_cons] at hn
    exact ⟨n - c.utf8Size, by rw [String.length_utf8EncodeChar]; omega⟩
  refine ⟨n, ?_, ?_, by simpa [Nat.add_assoc] using hfront.append⟩
  · rw [byteLength_cons, String.length_utf8EncodeChar] at hn
    omega
  · rw [loop_literalStep_plain hroom start _ (plain_encode hquote hslash) hahead, bytesOf_append,
      String.length_utf8EncodeChar, Nat.add_assoc]
    simp

/-- A character behind a backslash is kept, and the backslash is not. -/
theorem loop_literalStep_escaped {c : Char}
    (h : Cursor.In source ⟨start + taken, '\\' :: c :: cs⟩) {n : Nat}
    (hn : byteLength ('\\' :: c :: cs) < n) (value : List Char) :
    ∃ n', byteLength cs < n' ∧
      loop (literalStep source start) n (bytesOf value) (start + taken) =
        loop (literalStep source start) n' (bytesOf (value ++ [c]))
          (start + (taken + 1 + c.utf8Size)) ∧
      Cursor.In source ⟨start + (taken + 1 + c.utf8Size), cs⟩ := by
  obtain ⟨lead, tails, hencode, -, htails⟩ := encode_eq_cons c
  have hsize : c.utf8Size = tails.length + 1 := by
    rw [← String.length_utf8EncodeChar, hencode, List.length_cons]
  have hahead : Ahead source (start + taken) ('\\'.toUInt8 :: lead :: (tails ++ bytesOf cs)) := by
    have := Ahead.of_in h
    rw [bytesOf_cons, bytesOf_cons, hencode, encode_ascii (by decide)] at this
    exact this
  have hslash : ('\\' : Char).utf8Size = 1 := by decide
  have hin : Cursor.In source ⟨start + (taken + 1 + c.utf8Size), cs⟩ := by
    have hfront : Cursor.In source ⟨start + taken, ['\\', c] ++ cs⟩ := h
    simpa [hslash, Nat.add_assoc] using hfront.append
  rw [byteLength_cons, byteLength_cons, hslash, hsize] at hn
  obtain ⟨n, rfl⟩ : ∃ n', n = n' + tails.length + 1 := ⟨n - tails.length - 1, by omega⟩
  refine ⟨n, by omega, ?_, hin⟩
  -- The first byte goes with the backslash, the others come as bytes that stand for themselves.
  rw [loop_literalStep_escape hroom hahead,
    loop_literalStep_plain hroom start _ (plain_tails htails) hahead.tail.tail, bytesOf_append,
    bytesOf_cons, hencode, hsize]
  congr 1
  · simp
  · omega

/-- The loop over a literal ends where the literal does, with the characters that it stands
    for. -/
theorem loop_literalStep (h : Cursor.In source ⟨start + taken, cs⟩) {n : Nat}
    (hn : byteLength cs < n) (value : List Char) :
    loop (literalStep source start) n (bytesOf value) (start + taken) =
      literalEnd start taken value cs := by
  induction hlength : cs.length using Nat.strongRecOn generalizing taken value cs n with
  | ind length ih =>
    have hahead := Ahead.of_in h
    obtain ⟨n, rfl⟩ := Nat.exists_eq_add_one.2 (Nat.zero_lt_of_lt hn)
    cases cs with
    | nil => exact loop_literalStep_nil hahead _ n
    | cons c cs =>
      by_cases hquote : c = '\''
      · subst hquote
        rw [loop_literalStep_quote hroom hahead value n, literalEnd, Literal.inside?_quote]
        simp only [List.append_nil]
        rfl
      by_cases hslash : c = '\\'
      · subst hslash
        cases cs with
        | nil => exact loop_literalStep_backslash hroom hahead _ n
        | cons c cs =>
          obtain ⟨n', hn', hloop, hin⟩ := loop_literalStep_escaped hroom h hn value
          have hlt : cs.length < length := by simp only [← hlength, List.length_cons]; omega
          rw [hloop, ih cs.length hlt hin hn' _ rfl, literalEnd_escaped]
      · obtain ⟨n', hn', hloop, hin⟩ := loop_literalStep_char hroom hquote hslash h hn value
        have hlt : cs.length < length := by simp only [← hlength, List.length_cons]; omega
        rw [hloop, ih cs.length hlt hin hn' _ rfl, literalEnd_plain hquote hslash]

end Inside

/-! ### Tokens -/

section Token

variable {offset : Nat} {c : Char} {cs : List Char}

/-- A mark is one byte. -/
theorem nextMark_apply {kind : TokenKind} (hmark : TokenKind.ofMark? c = some kind)
    (h : Cursor.In source ⟨offset, c :: cs⟩) :
    nextToken source offset = tokenEnd offset (Lexeme.mark kind [c]) := by
  have hascii := toNat_lt_of_ofMark? hmark
  have hahead := Ahead.of_in h
  have hencode := encode_ascii hascii
  have hsize := utf8Size_ascii hascii
  rw [bytesOf_cons, hencode] at hahead
  rw [nextToken, get_bind, bind_of_ok (next_cons hroom hahead)]
  simp only [ofMark?_lead hencode, hmark]
  have hend := spanSince_tokenEnd offset (Lexeme.mark kind [c])
  rw [Lexeme.mark, byteLength_cons, hsize] at hend
  exact hend

/-- A literal is read by its loop. -/
theorem nextLiteral_apply (h : Cursor.In source ⟨offset, '\'' :: cs⟩) :
    nextToken source offset = tokenEnd offset (Lexeme.literal cs) := by
  have hahead := Ahead.of_in h
  have hencode : String.utf8EncodeChar '\'' = ['\''.toUInt8] := encode_ascii (by decide)
  have hmark : TokenKind.ofMark? '\'' = none := by decide
  have hin : Cursor.In source ⟨offset + 1, cs⟩ := by
    have hfront : Cursor.In source ⟨offset, ['\''] ++ cs⟩ := h
    exact hfront.append
  have hrounds : byteLength cs < rounds source := by
    rw [← length_bytesOf]
    exact (Ahead.of_in hin).lt_rounds
  rw [bytesOf_cons, hencode] at hahead
  rw [nextToken, get_bind, bind_of_ok (next_cons hroom hahead)]
  simp only [hmark, ofUInt8_toUInt8 (show ('\'' : Char).toNat < 0x80 by decide), if_true]
  rw [← literalEnd_eq]
  exact loop_literalStep hroom hin hrounds []

/-- A name is cut out of the text behind its last character. -/
theorem nextName_apply (hname : isNameChar c = true) (h : Cursor.In source ⟨offset, c :: cs⟩) :
    nextToken source offset = tokenEnd offset (Lexeme.name (c :: cs.takeWhile isNameChar)) := by
  have hascii := toNat_lt_of_isNameChar hname
  have hahead := Ahead.of_in h
  have hencode := encode_ascii hascii
  have hsize := utf8Size_ascii hascii
  have hmark := Lexeme.ofMark?_of_isNameChar hname
  have hquote := Lexeme.ne_quote_of_isNameChar hname
  have hconsume := consumeWhile_apply hroom (fun byte => isNameChar (Char.ofUInt8 byte))
    (show Ahead source (offset + 1) (bytesOf cs) by
      rw [bytesOf_cons, hencode] at hahead
      exact hahead.tail)
  rw [takeWhile_bytesOf recognises_isNameChar, length_bytesOf, Nat.add_assoc, ← hsize,
    ← byteLength_cons] at hconsume
  have hslice : ∀ pos,
      slice source offset (offset + byteLength (c :: cs.takeWhile isNameChar)) pos =
        .ok (bytesOf (c :: cs.takeWhile isNameChar)) pos := by
    rw [← List.takeWhile_append_dropWhile (p := isNameChar) (l := cs), ← List.cons_append,
      bytesOf_append] at hahead
    rw [← length_bytesOf]
    exact slice_apply hahead
  rw [bytesOf_cons, hencode] at hahead
  rw [nextToken, get_bind, bind_of_ok (next_cons hroom hahead)]
  simp only [hmark, ofUInt8_toUInt8 hascii, if_neg hquote, hname, if_true]
  rw [← hsize, bind_of_ok hconsume, bind_of_ok (spanSince_apply offset _)]
  refine (bind_of_ok (hslice _) _).trans ?_
  rw [bind_of_ok (decode_apply _ _)]
  rfl

/-- A character that starts no token is taken as a whole. -/
theorem nextInvalid_apply (hmark : TokenKind.ofMark? c = none) (hquote : c ≠ '\'')
    (hname : isNameChar c = false) (h : Cursor.In source ⟨offset, c :: cs⟩) :
    nextToken source offset = tokenEnd offset (Lexeme.mark .invalid [c]) := by
  obtain ⟨lead, tails, hencode, -, htails⟩ := encode_eq_cons c
  have hahead := Ahead.of_in h
  rw [bytesOf_cons, hencode, List.cons_append] at hahead
  have hconsume := consumeWhile_apply hroom isTail hahead.tail
  rw [takeWhile_isTail htails, Nat.add_assoc] at hconsume
  have hsize : byteLength [c] = 1 + tails.length := by
    rw [← length_bytesOf, bytesOf_cons, hencode]
    simp [Nat.add_comm]
  rw [nextToken, get_bind, bind_of_ok (next_cons hroom hahead)]
  simp only [ofMark?_lead hencode, hmark, isNameChar_lead hencode, hname,
    ofUInt8_lead_eq_iff hencode (show ('\'' : Char).toNat < 0x80 by decide), if_neg hquote]
  refine (bind_of_ok hconsume _).trans ?_
  have hend := spanSince_tokenEnd offset (Lexeme.mark .invalid [c])
  rw [Lexeme.mark, hsize] at hend
  exact hend

/-- The token at a place is the one of the cursor there. -/
theorem nextToken_apply {c : Cursor} (h : c.In source) :
    nextToken source c.offset = .ok c.next.1 c.next.2.offset := by
  obtain ⟨offset, cs⟩ := c
  show nextToken source offset = tokenEnd offset (Lexeme.first cs)
  cases cs with
  | nil =>
    rw [nextToken, get_bind, bind_of_ok (next_nil (Ahead.of_in h))]
    exact spanSince_tokenEnd offset (Lexeme.mark .endOfText [])
  | cons c cs =>
    cases hmark : TokenKind.ofMark? c with
    | some kind => rw [Lexeme.first_mark hmark, nextMark_apply hroom hmark h]
    | none =>
      by_cases hquote : c = '\''
      · subst hquote
        rw [Lexeme.first_quote, nextLiteral_apply hroom h]
      · cases hname : isNameChar c with
        | true => rw [Lexeme.first_nameChar hname, nextName_apply hroom hname h]
        | false =>
          rw [Lexeme.first_invalid hmark hquote hname,
            nextInvalid_apply hroom hmark hquote hname h]

end Token

end Room

end Bytewise

end TreeGrammar
