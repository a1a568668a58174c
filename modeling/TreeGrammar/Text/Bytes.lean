/-! # Byte offsets into a text

    Offsets count bytes of the UTF-8 form, while texts are read character by
    character. This module ties the two views together.

    Key idea:
    - `byteLength` is the number of bytes that a list of characters takes;
    - an offset is good for cutting only where a character starts, so
      `dropBytes?`, `takeBytes?` and `slice?` refuse every other offset;
    - each of the three is settled by how it splits the text
      (`dropBytes?_eq_some_iff`, `takeBytes?_eq_some_iff`, `slice?_eq_some_iff`).
-/

namespace TreeGrammar

/-- The number of bytes of the UTF-8 form of `cs`. -/
def byteLength (cs : List Char) : Nat :=
  cs.foldr (fun c n => c.utf8Size + n) 0

@[simp] theorem byteLength_nil : byteLength [] = 0 := rfl

@[simp] theorem byteLength_cons (c : Char) (cs : List Char) :
    byteLength (c :: cs) = c.utf8Size + byteLength cs := rfl

@[simp] theorem byteLength_append (s t : List Char) :
    byteLength (s ++ t) = byteLength s + byteLength t := by
  induction s with
  | nil => simp
  | cons c s ih => simp [ih, Nat.add_assoc]

/-- Every character takes at least one byte. -/
theorem length_le_byteLength (cs : List Char) : cs.length ≤ byteLength cs := by
  induction cs with
  | nil => simp
  | cons c cs ih =>
    have := c.utf8Size_pos
    simp only [List.length_cons, byteLength_cons]
    omega

@[simp] theorem byteLength_eq_zero_iff {cs : List Char} : byteLength cs = 0 ↔ cs = [] := by
  constructor
  · intro h
    have := length_le_byteLength cs
    exact List.length_eq_zero_iff.1 (by omega)
  · rintro rfl
    rfl

/-- A text without its first `n` bytes, if these are whole characters. -/
def dropBytes? : Nat → List Char → Option (List Char)
  | 0, cs => some cs
  | _ + 1, [] => none
  | n + 1, c :: cs =>
    if c.utf8Size ≤ n + 1 then dropBytes? (n + 1 - c.utf8Size) cs else none

/-- The first `n` bytes of a text, if these are whole characters. -/
def takeBytes? : Nat → List Char → Option (List Char)
  | 0, _ => some []
  | _ + 1, [] => none
  | n + 1, c :: cs =>
    if c.utf8Size ≤ n + 1 then (takeBytes? (n + 1 - c.utf8Size) cs).map (c :: ·) else none

/-- The bytes of a text from `start` up to `stop`, if both lie between characters of the text
    and in this order. -/
def slice? (start stop : Nat) (cs : List Char) : Option (List Char) :=
  if start ≤ stop then (dropBytes? start cs).bind (takeBytes? (stop - start)) else none

/-- Two ways of cutting one text after as many bytes are the same. -/
theorem eq_of_append_eq_of_byteLength_eq {pre pre' rest rest' : List Char}
    (h : pre ++ rest = pre' ++ rest') (hlen : byteLength pre = byteLength pre') :
    pre = pre' ∧ rest = rest' := by
  induction pre generalizing pre' with
  | nil =>
    obtain rfl : pre' = [] := byteLength_eq_zero_iff.1 hlen.symm
    exact ⟨rfl, h⟩
  | cons c cs ih =>
    cases pre' with
    | nil =>
      have := c.utf8Size_pos
      simp only [byteLength_cons, byteLength_nil] at hlen
      omega
    | cons c' cs' =>
      obtain ⟨rfl, htail⟩ := List.cons.inj h
      obtain ⟨rfl, rfl⟩ := ih htail (by simpa using hlen)
      exact ⟨rfl, rfl⟩

@[simp] theorem dropBytes?_zero (cs : List Char) : dropBytes? 0 cs = some cs := by
  cases cs <;> rfl

@[simp] theorem takeBytes?_zero (cs : List Char) : takeBytes? 0 cs = some [] := by
  cases cs <;> rfl

@[simp] theorem dropBytes?_append (pre rest : List Char) :
    dropBytes? (byteLength pre) (pre ++ rest) = some rest := by
  induction pre with
  | nil => simp
  | cons c cs ih =>
    obtain ⟨k, hk⟩ : ∃ k, c.utf8Size = k + 1 := ⟨c.utf8Size - 1, by have := c.utf8Size_pos; omega⟩
    have hsum : byteLength (c :: cs) = (k + byteLength cs) + 1 := by simp [hk]; omega
    rw [hsum, List.cons_append, dropBytes?, if_pos (by omega), hk,
      show k + byteLength cs + 1 - (k + 1) = byteLength cs by omega, ih]

@[simp] theorem takeBytes?_append (pre rest : List Char) :
    takeBytes? (byteLength pre) (pre ++ rest) = some pre := by
  induction pre with
  | nil => simp
  | cons c cs ih =>
    obtain ⟨k, hk⟩ : ∃ k, c.utf8Size = k + 1 := ⟨c.utf8Size - 1, by have := c.utf8Size_pos; omega⟩
    have hsum : byteLength (c :: cs) = (k + byteLength cs) + 1 := by simp [hk]; omega
    rw [hsum, List.cons_append, takeBytes?, if_pos (by omega), hk,
      show k + byteLength cs + 1 - (k + 1) = byteLength cs by omega, ih]
    rfl

/-- Dropping bytes succeeds exactly where the text splits after as many bytes. -/
theorem dropBytes?_eq_some_iff {n : Nat} {cs rest : List Char} :
    dropBytes? n cs = some rest ↔ ∃ pre, cs = pre ++ rest ∧ byteLength pre = n := by
  constructor
  · intro h
    fun_induction dropBytes? n cs with
    | case1 cs => exact ⟨[], by simpa using h, rfl⟩
    | case2 => simp at h
    | case3 n c cs hc ih =>
      obtain ⟨pre, rfl, hlen⟩ := ih h
      exact ⟨c :: pre, rfl, by simp [hlen]; omega⟩
    | case4 => simp at h
  · rintro ⟨pre, rfl, rfl⟩
    simp

/-- Taking bytes succeeds exactly where the text splits after as many bytes. -/
theorem takeBytes?_eq_some_iff {n : Nat} {cs pre : List Char} :
    takeBytes? n cs = some pre ↔ byteLength pre = n ∧ ∃ rest, cs = pre ++ rest := by
  constructor
  · intro h
    fun_induction takeBytes? n cs generalizing pre with
    | case1 cs => simp_all
    | case2 => simp at h
    | case3 n c cs hc ih =>
      obtain ⟨pre', htake, rfl⟩ := Option.map_eq_some_iff.1 h
      obtain ⟨hlen, rest, rfl⟩ := ih htake
      exact ⟨by simp [hlen]; omega, rest, rfl⟩
    | case4 => simp at h
  · rintro ⟨rfl, rest, rfl⟩
    simp

/-- A slice is the middle one of three parts of the text whose lengths are the two offsets. -/
theorem slice?_eq_some_iff {start stop : Nat} {cs mid : List Char} :
    slice? start stop cs = some mid ↔
      ∃ pre post, cs = pre ++ mid ++ post ∧ byteLength pre = start ∧
        byteLength (pre ++ mid) = stop := by
  constructor
  · intro h
    unfold slice? at h
    split at h
    · obtain ⟨rest, hdrop, htake⟩ := Option.bind_eq_some_iff.1 h
      obtain ⟨pre, rfl, hpre⟩ := dropBytes?_eq_some_iff.1 hdrop
      obtain ⟨hmid, post, rfl⟩ := takeBytes?_eq_some_iff.1 htake
      exact ⟨pre, post, by simp, hpre, by simp; omega⟩
    · simp at h
  · rintro ⟨pre, post, rfl, rfl, rfl⟩
    simp [slice?]

end TreeGrammar
