import Mathlib.Data.List.TakeWhile
import TreeGrammar.Proofs.Spelling

/-! # Characters as bytes

    What the bytes of a text say about its characters.

    Key idea:
    - an ASCII character is one byte, its own code (`encode_ascii`); any other
      one is a lead byte and tails, all of them behind the ASCII codes
      (`encode_wide`);
    - so a test of bytes that tells characters apart by their first byte takes
      whole characters from a text (`takeWhile_bytesOf`);
    - bytes that come from characters lead back to them
      (`fromUTF8?_bytesOf`).
-/

namespace TreeGrammar

/-- The bytes of the UTF-8 form of some characters. -/
def bytesOf (cs : List Char) : List UInt8 :=
  cs.flatMap String.utf8EncodeChar

@[simp] theorem bytesOf_nil : bytesOf [] = [] := rfl

@[simp] theorem bytesOf_cons (c : Char) (cs : List Char) :
    bytesOf (c :: cs) = String.utf8EncodeChar c ++ bytesOf cs := rfl

@[simp] theorem bytesOf_append (cs cs' : List Char) :
    bytesOf (cs ++ cs') = bytesOf cs ++ bytesOf cs' :=
  List.flatMap_append

@[simp] theorem length_bytesOf (cs : List Char) : (bytesOf cs).length = byteLength cs := by
  induction cs with
  | nil => rfl
  | cons c cs ih => simp [ih]

/-! ### Texts -/

theorem toUTF8_eq (source : String) : source.toUTF8 = (bytesOf source.toList).toByteArray := by
  conv => lhs; rw [← String.ofList_toList (s := source)]
  rw [String.toUTF8_eq_toByteArray, String.toByteArray_ofList]
  rfl

/-- Reading a text from its own bytes gives the text. -/
@[simp] theorem fromUTF8?_toUTF8 (source : String) :
    String.fromUTF8? source.toUTF8 = some source := by
  have hvalid : source.toUTF8.IsValidUTF8 := by
    rw [String.toUTF8_eq_toByteArray]
    exact source.isValidUTF8
  rw [String.fromUTF8?, dif_pos hvalid]
  rfl

@[simp] theorem fromUTF8?_bytesOf (cs : List Char) :
    String.fromUTF8? (bytesOf cs).toByteArray = some (String.ofList cs) := by
  have h := toUTF8_eq (String.ofList cs)
  rw [String.toList_ofList] at h
  rw [← h, fromUTF8?_toUTF8]

/-! ### Single characters -/

/-- The byte goes on with a character that started before it. -/
def isTail (byte : UInt8) : Bool :=
  byte &&& 0b11000000 == 0b10000000

theorem isTail_iff (byte : UInt8) :
    isTail byte = true ↔ 0x80 ≤ byte.toNat ∧ byte.toNat < 0xC0 := by
  have h : ∀ n < 256, isTail (UInt8.ofNat n) = true ↔ 0x80 ≤ n ∧ n < 0xC0 := by
    decide +kernel
  simpa using h byte.toNat byte.toNat_lt

/-- An ASCII character is the byte with its code. -/
theorem encode_ascii {c : Char} (h : c.toNat < 0x80) :
    String.utf8EncodeChar c = [c.toUInt8] := by
  have hc : c.val.toNat ≤ 0x7F := by
    have : c.val.toNat < 0x80 := h
    omega
  rw [String.utf8EncodeChar]
  simp only [hc, if_true]
  rfl

theorem utf8Size_ascii {c : Char} (h : c.toNat < 0x80) : c.utf8Size = 1 :=
  Char.utf8Size_eq_one_iff.2 (Nat.le_of_lt_succ h)

@[simp] theorem toNat_toUInt8 {c : Char} (h : c.toNat < 0x80) : c.toUInt8.toNat = c.toNat := by
  have hmod : c.toUInt8.toNat = c.toNat % 256 := rfl
  omega

@[simp] theorem toNat_ofUInt8 (byte : UInt8) : (Char.ofUInt8 byte).toNat = byte.toNat :=
  UInt8.toNat_toUInt32 byte

/-- The byte with the code of an ASCII character stands for it. -/
@[simp] theorem ofUInt8_toUInt8 {c : Char} (h : c.toNat < 0x80) : Char.ofUInt8 c.toUInt8 = c := by
  apply Char.toNat_inj.1
  rw [toNat_ofUInt8, toNat_toUInt8 h]

/-- Any other character is a lead byte and tails. -/
theorem encode_wide {c : Char} (h : 0x80 ≤ c.toNat) :
    ∃ lead tails, String.utf8EncodeChar c = lead :: tails ∧ 0xC0 ≤ lead.toNat ∧
      ∀ byte ∈ tails, isTail byte = true := by
  have hc : ¬ c.val.toNat ≤ 0x7F := by
    have : 0x80 ≤ c.val.toNat := h
    omega
  have htail : ∀ n, isTail (UInt8.ofNat (n % 64 + 128)) = true := by
    intro n
    rw [isTail_iff, UInt8.toNat_ofNat']
    omega
  have hnil : ∀ byte ∈ ([] : List UInt8), isTail byte = true := by simp
  have hlead : ∀ k bound base, bound ≤ 32 → 0xC0 ≤ base → base + bound ≤ 256 → 0 < bound →
      0xC0 ≤ (UInt8.ofNat (k % bound + base)).toNat := by
    intro k bound base _ _ _ hpos
    have := Nat.mod_lt k hpos
    rw [UInt8.toNat_ofNat']
    omega
  rw [String.utf8EncodeChar]
  simp only [hc, if_false]
  split
  · exact ⟨_, _, rfl, hlead _ 32 192 (by decide) (by decide) (by decide) (by decide),
      List.forall_mem_cons.2 ⟨htail _, hnil⟩⟩
  · split
    · exact ⟨_, _, rfl, hlead _ 16 224 (by decide) (by decide) (by decide) (by decide),
        List.forall_mem_cons.2 ⟨htail _, List.forall_mem_cons.2 ⟨htail _, hnil⟩⟩⟩
    · exact ⟨_, _, rfl, hlead _ 8 240 (by decide) (by decide) (by decide) (by decide),
        List.forall_mem_cons.2 ⟨htail _, List.forall_mem_cons.2 ⟨htail _,
          List.forall_mem_cons.2 ⟨htail _, hnil⟩⟩⟩⟩

/-- No byte of such a character has an ASCII code. -/
theorem wide_of_mem_encode {c : Char} (h : 0x80 ≤ c.toNat) {byte : UInt8}
    (hbyte : byte ∈ String.utf8EncodeChar c) : 0x80 ≤ byte.toNat := by
  obtain ⟨lead, tails, hencode, hlead, htails⟩ := encode_wide h
  rw [hencode] at hbyte
  rcases List.mem_cons.1 hbyte with rfl | hmem
  · omega
  · exact ((isTail_iff byte).1 (htails byte hmem)).1

/-- The first byte of a character is no tail. -/
theorem encode_eq_cons (c : Char) :
    ∃ lead tails, String.utf8EncodeChar c = lead :: tails ∧ isTail lead = false ∧
      ∀ byte ∈ tails, isTail byte = true := by
  have hnot : ∀ lead : UInt8, lead.toNat < 0x80 ∨ 0xC0 ≤ lead.toNat → isTail lead = false := by
    intro lead hlead
    rw [Bool.eq_false_iff, Ne, isTail_iff]
    omega
  by_cases h : c.toNat < 0x80
  · exact ⟨_, [], encode_ascii h, hnot _ (by rw [toNat_toUInt8 h]; exact .inl h), by simp⟩
  · obtain ⟨lead, tails, hencode, hlead, htails⟩ := encode_wide (Nat.le_of_not_lt h)
    exact ⟨lead, tails, hencode, hnot _ (.inr hlead), htails⟩

/-- A byte that starts a character has the code of an ASCII character only if it is this one. -/
theorem lead_eq_iff {c d : Char} (hd : d.toNat < 0x80) {lead : UInt8} {tails : List UInt8}
    (hencode : String.utf8EncodeChar c = lead :: tails) : lead = d.toUInt8 ↔ c = d := by
  constructor
  · rintro rfl
    by_cases hascii : c.toNat < 0x80
    · rw [encode_ascii hascii, List.cons.injEq] at hencode
      rw [← ofUInt8_toUInt8 hascii, hencode.1, ofUInt8_toUInt8 hd]
    · have hwide := wide_of_mem_encode (Nat.le_of_not_lt hascii)
        (show d.toUInt8 ∈ String.utf8EncodeChar c by simp [hencode])
      rw [toNat_toUInt8 hd] at hwide
      omega
  · rintro rfl
    rw [encode_ascii hd, List.cons.injEq] at hencode
    exact hencode.1.symm

/-- Bytes with ASCII codes are ahead where their characters are. -/
theorem isPrefixOf_bytesOf {ds : List Char} (hds : ∀ d ∈ ds, d.toNat < 0x80) (cs : List Char) :
    (ds.map Char.toUInt8).isPrefixOf (bytesOf cs) = ds.isPrefixOf cs := by
  induction ds generalizing cs with
  | nil => simp
  | cons d ds ih =>
    rw [List.forall_mem_cons] at hds
    cases cs with
    | nil => rfl
    | cons c cs =>
      obtain ⟨lead, tails, hencode, -, -⟩ := encode_eq_cons c
      rw [bytesOf_cons, hencode, List.map_cons, List.cons_append, List.isPrefixOf_cons_cons,
        List.isPrefixOf_cons_cons]
      by_cases heq : c = d
      · subst heq
        rw [encode_ascii hds.1, List.cons.injEq] at hencode
        rw [← hencode.1, ← hencode.2, List.nil_append, ih hds.2, beq_self_eq_true,
          beq_self_eq_true]
      · have hlead := mt (lead_eq_iff hds.1 hencode).1 heq
        rw [beq_false_of_ne (Ne.symm hlead), beq_false_of_ne (Ne.symm heq), Bool.false_and,
          Bool.false_and]

/-! ### Runs of bytes -/

/-- A test of bytes that sees which characters pass a test, on the first byte of each. -/
structure Recognises (p : UInt8 → Bool) (q : Char → Bool) : Prop where
  /-- All bytes of a character that passes do so. -/
  passes : ∀ c, q c = true → ∀ byte ∈ String.utf8EncodeChar c, p byte = true
  /-- The first byte of any other character does not. -/
  fails : ∀ c, q c = false → ∀ lead tails, String.utf8EncodeChar c = lead :: tails →
    p lead = false

/-- Such a test takes whole characters. -/
theorem takeWhile_bytesOf {p : UInt8 → Bool} {q : Char → Bool} (h : Recognises p q)
    (cs : List Char) : (bytesOf cs).takeWhile p = bytesOf (cs.takeWhile q) := by
  induction cs with
  | nil => rfl
  | cons c cs ih =>
    by_cases hq : q c = true
    · rw [bytesOf_cons, List.takeWhile_append_of_pos (h.passes c hq), ih,
        List.takeWhile_cons_of_pos hq, bytesOf_cons]
    · rw [List.takeWhile_cons_of_neg hq, bytesOf_nil, bytesOf_cons]
      obtain ⟨lead, tails, hencode, -, -⟩ := encode_eq_cons c
      have hlead := h.fails c (by simpa using hq) lead tails hencode
      rw [hencode, List.cons_append, List.takeWhile_cons_of_neg (by simp [hlead])]

/-- The bytes that go on with a character end where the next one starts. -/
theorem takeWhile_isTail {tails : List UInt8} (h : ∀ byte ∈ tails, isTail byte = true)
    (cs : List Char) : (tails ++ bytesOf cs).takeWhile isTail = tails := by
  rw [List.takeWhile_append_of_pos h]
  cases cs with
  | nil => simp
  | cons c cs =>
    obtain ⟨lead, tails', hencode, hlead, -⟩ := encode_eq_cons c
    rw [bytesOf_cons, hencode, List.cons_append, List.takeWhile_cons_of_neg (by simp [hlead]),
      List.append_nil]

/-! ### Characters of tokens -/

theorem toNat_lt_of_isNameChar {c : Char} (h : isNameChar c = true) : c.toNat < 0x80 := by
  rcases code_of_isNameChar h with rfl | hcode
  · decide
  · omega

theorem toNat_lt_of_ofMark? {c : Char} {kind : TokenKind} (h : TokenKind.ofMark? c = some kind) :
    c.toNat < 0x80 := by
  unfold TokenKind.ofMark? at h
  split at h
  case h_8 => simp at h
  all_goals decide

/-- A character is its lead byte, or neither of them is in ASCII. -/
theorem lead_cases {c : Char} {lead : UInt8} {tails : List UInt8}
    (h : String.utf8EncodeChar c = lead :: tails) :
    Char.ofUInt8 lead = c ∧ tails = [] ∨
      0x80 ≤ (Char.ofUInt8 lead).toNat ∧ 0x80 ≤ c.toNat := by
  by_cases hascii : c.toNat < 0x80
  · rw [encode_ascii hascii, List.cons.injEq] at h
    exact .inl ⟨by rw [← h.1, ofUInt8_toUInt8 hascii], h.2.symm⟩
  · have hwide := Nat.le_of_not_lt hascii
    refine .inr ⟨?_, hwide⟩
    rw [toNat_ofUInt8]
    exact wide_of_mem_encode hwide (by simp [h])

section Lead

variable {c : Char} {lead : UInt8} {tails : List UInt8}
  (h : String.utf8EncodeChar c = lead :: tails)

include h

/-- The lead byte of a character tells which mark it is. -/
theorem ofMark?_lead : TokenKind.ofMark? (Char.ofUInt8 lead) = TokenKind.ofMark? c := by
  have hwide : ∀ d : Char, 0x80 ≤ d.toNat → TokenKind.ofMark? d = none := by
    intro d hd
    rw [Option.eq_none_iff_forall_ne_some]
    intro kind hkind
    have := toNat_lt_of_ofMark? hkind
    omega
  rcases lead_cases h with ⟨heq, -⟩ | ⟨hlead, hc⟩
  · rw [heq]
  · rw [hwide _ hlead, hwide _ hc]

/-- It tells whether names may hold the character. -/
theorem isNameChar_lead : isNameChar (Char.ofUInt8 lead) = isNameChar c := by
  have hwide : ∀ d : Char, 0x80 ≤ d.toNat → isNameChar d = false := by
    intro d hd
    rw [Bool.eq_false_iff]
    intro hname
    have := toNat_lt_of_isNameChar hname
    omega
  rcases lead_cases h with ⟨heq, -⟩ | ⟨hlead, hc⟩
  · rw [heq]
  · rw [hwide _ hlead, hwide _ hc]

/-- It tells whether the character is a given one in ASCII. -/
theorem ofUInt8_lead_eq_iff {d : Char} (hd : d.toNat < 0x80) :
    Char.ofUInt8 lead = d ↔ c = d := by
  rcases lead_cases h with ⟨heq, -⟩ | ⟨hlead, hc⟩
  · rw [heq]
  · constructor <;> rintro rfl <;> omega

end Lead

/-- The bytes of names are their characters. -/
theorem recognises_isNameChar :
    Recognises (fun byte => isNameChar (Char.ofUInt8 byte)) isNameChar where
  passes c hc byte hbyte := by
    have hascii := toNat_lt_of_isNameChar hc
    rw [encode_ascii hascii, List.mem_singleton] at hbyte
    rw [hbyte, ofUInt8_toUInt8 hascii, hc]
  fails c hc lead tails hencode := by
    rw [isNameChar_lead hencode, hc]

/-- An ASCII character is recognised by its code. -/
theorem recognises_ne {d : Char} (hd : d.toNat < 0x80) :
    Recognises (· != d.toUInt8) (· != d) where
  passes c hc byte hbyte := by
    rw [bne_iff_ne] at hc ⊢
    rintro rfl
    by_cases hascii : c.toNat < 0x80
    · rw [encode_ascii hascii, List.mem_singleton] at hbyte
      exact hc ((lead_eq_iff hd (encode_ascii hascii)).1 hbyte.symm)
    · have hwide := wide_of_mem_encode (Nat.le_of_not_lt hascii) hbyte
      rw [toNat_toUInt8 hd] at hwide
      omega
  fails c hc lead tails hencode := by
    rw [bne_eq_false_iff_eq] at hc ⊢
    exact (lead_eq_iff hd hencode).2 hc

end TreeGrammar
