import TreeGrammar.Proofs.Bytewise
import TreeGrammar.Proofs.LineBreaks

/-! # Lines of bytes

    The table of lines once more, made in one pass over the bytes of a text
    and asked by a search for the line of an offset. Offsets are cut down to
    32 bits, a line is looked up by its index, and its start is subtracted.

    Key idea:
    - a pass over the bytes of a character is one step of the pass over the
      characters, since no byte of a wide character is a line break
      (`linesFrom_bytesOf`);
    - a search is only known by what it says about ascending keys
      (`Searches`), and the starts of the lines ascend for every text
      (`linesFrom_ascends`);
    - so the line that is found is there and does not start behind the
      offset, whichever text the table is asked about (`exists_position`).
-/

namespace TreeGrammar

/-- What may go wrong when a line is looked up. -/
inductive LineFault where
  /-- There is no line with this index. -/
  | index
  /-- The line starts behind the offset. -/
  | underflow
  deriving DecidableEq, Repr

namespace Bytewise

/-- A number as an offset. What does not fit in 32 bits is cut down to the greatest offset. -/
def toOffset (n : Nat) : Nat :=
  min n maxOffset

/-- The lines from a place inside a line on: the index of the place, the start of the line and
    whether the line holds a byte that is not ASCII so far. -/
def linesFrom (index start : Nat) (wide : Bool) : List UInt8 → List (Nat × Bool)
  | [] => [(start, wide)]
  | byte :: rest =>
    if byte = '\n'.toUInt8 ∨ byte = '\r'.toUInt8 then
      -- A line feed behind a carriage return is taken with it.
      if byte = '\r'.toUInt8 ∧ rest.head? = some '\n'.toUInt8 then
        (start, wide) :: linesFrom (index + 2) (toOffset (index + 2)) false rest.tail
      else (start, wide) :: linesFrom (index + 1) (toOffset (index + 1)) false rest
    else linesFrom (index + 1) start (wide || 0x80 ≤ byte.toNat) rest
  termination_by bytes => bytes.length

/-- The start of each line of a text and whether the line holds a byte that is not ASCII. -/
def lineTable (source : String) : List (Nat × Bool) :=
  linesFrom 0 0 false (bytes source)

/-- A search for a key gives the index of the key, or else the index at which it is missing. -/
abbrev Search := List Nat → Nat → Except Nat Nat

/-- The index of the line that an offset is on, given where the lines start. -/
def lineOf (search : Search) (starts : List Nat) (offset : Nat) : Nat :=
  match search starts offset with
  | .ok line => line
  -- The offset is behind the start of the line before, and the first line starts at zero.
  | .error line => line - 1

/-- The position of an offset in a text, by the lines of some table. -/
def position (search : Search) (table : List (Nat × Bool)) (query : String) (offset : Nat) :
    Except LineFault Position :=
  let offset := min offset (toOffset (bytes query).length)
  let line := lineOf search (table.map Prod.fst) offset
  match table[line]? with
  | none => .error .index
  | some (start, wide) =>
    if wide then
      .ok ⟨toOffset line, toOffset ((slice? start offset query.toList).getD []).length⟩
    else if start ≤ offset then .ok ⟨toOffset line, offset - start⟩
    else .error .underflow

/-- What is known of a search for a key among ascending ones. If the key is there several times,
    any of its indices may be found. -/
structure Searches (search : Search) : Prop where
  found : ∀ {keys : List Nat} {key i : Nat}, keys.Pairwise (· ≤ ·) →
    search keys key = .ok i → keys[i]? = some key
  /-- A key that is not found belongs behind all smaller keys and in front of all greater ones. -/
  missing : ∀ {keys : List Nat} {key i : Nat}, keys.Pairwise (· ≤ ·) →
    search keys key = .error i → i ≤ keys.length ∧ (∀ k ∈ keys.take i, k < key) ∧
      ∀ k ∈ keys.drop i, key < k

/-! ### A search -/

/-- The last index of some, `size` of them from `base` on, whose key is not greater than a given
    one, if there is any such index. -/
def bisectFrom (keys : List Nat) (key size base : Nat) : Nat :=
  if size ≤ 1 then base
  else
    let half := size / 2
    if key < keys.getD (base + half) 0 then bisectFrom keys key (size - half) base
    else bisectFrom keys key (size - half) (base + half)
  termination_by size

/-- Halves the keys until one is left, and compares that one. -/
def bisect : Search := fun keys key =>
  if keys = [] then .error 0
  else
    let base := bisectFrom keys key keys.length 0
    let found := keys.getD base 0
    if found = key then .ok base
    else .error (if found < key then base + 1 else base)

/-- The keys from `base` on, `size` of them, are those in question: the keys behind them are
    greater than the wanted one, and the first of them is not, unless it is the first of all. -/
structure Bisects (keys : List Nat) (key size base : Nat) : Prop where
  pos : 0 < size
  within : base + size ≤ keys.length
  behind : ∀ i k, base + size ≤ i → keys[i]? = some k → key < k
  first : base = 0 ∨ ∃ k, keys[base]? = some k ∧ k ≤ key

section Bisect

variable {keys : List Nat} {key : Nat} (hsorted : keys.Pairwise (· ≤ ·))

include hsorted

theorem le_of_getElem? {i j k k' : Nat} (hle : i ≤ j) (hi : keys[i]? = some k)
    (hj : keys[j]? = some k') : k ≤ k' := by
  obtain ⟨hi', rfl⟩ := List.getElem?_eq_some_iff.1 hi
  obtain ⟨hj', rfl⟩ := List.getElem?_eq_some_iff.1 hj
  obtain rfl | hlt := Nat.eq_or_lt_of_le hle
  · exact Nat.le_refl _
  · exact List.pairwise_iff_getElem.1 hsorted i j hi' hj' hlt

/-- Halving goes on until one key is in question. -/
theorem Bisects.bisectFrom {size base : Nat} (h : Bisects keys key size base) :
    Bisects keys key 1 (bisectFrom keys key size base) := by
  fun_induction Bytewise.bisectFrom keys key size base with
  | case1 size base hsize =>
    obtain rfl : size = 1 := Nat.le_antisymm hsize h.pos
    exact h
  | case2 size base hsize half hless ih =>
    have hwithin := h.within
    have hpos : 0 < half := Nat.div_pos (by omega) (by decide)
    have hlt : half < size := Nat.div_lt_self h.pos (by decide)
    have hk : keys[base + half]? = some (keys.getD (base + half) 0) := by
      rw [List.getD_eq_getElem?_getD, List.getElem?_eq_getElem (by omega)]
      rfl
    -- All keys from the middle one on are at least as great.
    refine ih ⟨by omega, by omega, ?_, h.first⟩
    intro i k hi hk'
    have hle := le_of_getElem? hsorted (by omega) hk hk'
    omega
  | case3 size base hsize half hless ih =>
    have hwithin := h.within
    have hlt : half < size := Nat.div_lt_self h.pos (by decide)
    have hk : keys[base + half]? = some (keys.getD (base + half) 0) := by
      rw [List.getD_eq_getElem?_getD, List.getElem?_eq_getElem (by omega)]
      rfl
    refine ih ⟨by omega, by omega, ?_, .inr ⟨_, hk, Nat.le_of_not_lt hless⟩⟩
    intro i k hi hk'
    exact h.behind i k (by omega) hk'

/-- The key that is left decides. -/
theorem Bisects.decides {base k : Nat} (h : Bisects keys key 1 base)
    (hk : keys[base]? = some k) (hne : k ≠ key) :
    let i := if k < key then base + 1 else base
    i ≤ keys.length ∧ (∀ k' ∈ keys.take i, k' < key) ∧ ∀ k' ∈ keys.drop i, key < k' := by
  have hwithin := h.within
  have hbehind : ∀ k' ∈ keys.drop (base + 1), key < k' := by
    intro k' hk'
    obtain ⟨i, hi⟩ := List.mem_iff_getElem?.1 hk'
    rw [List.getElem?_drop] at hi
    exact h.behind _ k' (Nat.le_add_right _ _) hi
  by_cases hless : k < key
  · rw [if_pos hless]
    refine ⟨hwithin, ?_, hbehind⟩
    intro k' hk'
    obtain ⟨i, hi⟩ := List.mem_iff_getElem?.1 hk'
    rw [List.getElem?_take] at hi
    split at hi
    case isTrue hlt =>
      have hle := le_of_getElem? hsorted (Nat.le_of_lt_succ hlt) hi hk
      omega
    case isFalse => cases hi
  · -- Only the first of all keys can be greater.
    have hzero : base = 0 := by
      obtain hzero | ⟨k', hk', hle⟩ := h.first
      · exact hzero
      · rw [hk] at hk'
        obtain rfl := Option.some.inj hk'
        omega
    subst hzero
    rw [if_neg hless]
    refine ⟨Nat.zero_le _, List.forall_mem_nil _, ?_⟩
    rw [List.drop_zero]
    intro k' hk'
    obtain ⟨i, hi⟩ := List.mem_iff_getElem?.1 hk'
    have hle := le_of_getElem? hsorted (Nat.zero_le i) hk hi
    omega

end Bisect

theorem bisects_start {keys : List Nat} (key : Nat) (hne : keys ≠ []) :
    Bisects keys key keys.length 0 where
  pos := List.length_pos_iff.2 hne
  within := by omega
  behind i k hi hk := by
    rw [List.getElem?_eq_none (by omega)] at hk
    cases hk
  first := .inl rfl

/-- One key is left in the end. -/
theorem exists_bisects {keys : List Nat} (key : Nat) (hsorted : keys.Pairwise (· ≤ ·))
    (hne : keys ≠ []) :
    ∃ base k, bisectFrom keys key keys.length 0 = base ∧ keys.getD base 0 = k ∧
      keys[base]? = some k ∧ Bisects keys key 1 base := by
  have h := (bisects_start key hne).bisectFrom hsorted
  have hwithin := h.within
  refine ⟨_, _, rfl, rfl, ?_, h⟩
  rw [List.getD_eq_getElem?_getD, List.getElem?_eq_getElem (by omega)]
  rfl

/-- Halving is a search. -/
theorem bisect_searches : Searches bisect where
  found {keys key i} hsorted h := by
    by_cases hne : keys = []
    · rw [bisect, if_pos hne] at h
      cases h
    · obtain ⟨base, k, hbase, hgetD, hk, -⟩ := exists_bisects key hsorted hne
      rw [bisect, if_neg hne] at h
      simp only [hbase, hgetD] at h
      split at h
      case isTrue heq =>
        cases h
        rw [hk, heq]
      case isFalse => cases h
  missing {keys key i} hsorted h := by
    by_cases hne : keys = []
    · rw [bisect, if_pos hne] at h
      cases h
      rw [hne]
      exact ⟨Nat.le_refl 0, List.forall_mem_nil _, List.forall_mem_nil _⟩
    · obtain ⟨base, k, hbase, hgetD, hk, hbisects⟩ := exists_bisects key hsorted hne
      rw [bisect, if_neg hne] at h
      simp only [hbase, hgetD] at h
      split at h
      case isTrue => cases h
      case isFalse hother =>
        cases h
        exact hbisects.decides hsorted hk hother

/-! ### Ascending lines -/

theorem toOffset_mono {m n : Nat} (h : m ≤ n) : toOffset m ≤ toOffset n := by
  unfold toOffset
  omega

theorem toOffset_of_le {n : Nat} (h : n ≤ maxOffset) : toOffset n = n :=
  Nat.min_eq_left h

/-- The lines go on with the present one, and each line starts where the one before does or
    behind. -/
theorem linesFrom_ascends {index start : Nat} (wide : Bool) (bs : List UInt8)
    (h : start ≤ toOffset index) :
    ∃ later, (linesFrom index start wide bs).map Prod.fst = start :: later ∧
      (start :: later).Pairwise (· ≤ ·) := by
  fun_induction linesFrom index start wide bs with
  | case1 index start wide => exact ⟨[], rfl, List.pairwise_singleton _ _⟩
  | case2 index start wide byte rest hbreak hboth ih =>
    obtain ⟨later, hlater, hascends⟩ := ih (Nat.le_refl _)
    have hle := Nat.le_trans h (toOffset_mono (Nat.le_add_right index 2))
    refine ⟨_ :: later, ?_, List.pairwise_cons_cons_iff_of_trans.2 ⟨hle, hascends⟩⟩
    rw [List.map_cons, hlater]
  | case3 index start wide byte rest hbreak hboth ih =>
    obtain ⟨later, hlater, hascends⟩ := ih (Nat.le_refl _)
    have hle := Nat.le_trans h (toOffset_mono (Nat.le_add_right index 1))
    refine ⟨_ :: later, ?_, List.pairwise_cons_cons_iff_of_trans.2 ⟨hle, hascends⟩⟩
    rw [List.map_cons, hlater]
  | case4 index start wide byte rest hbreak ih =>
    exact ih (Nat.le_trans h (toOffset_mono (Nat.le_add_right index 1)))

section Lookup

variable {search : Search} (hsearch : Searches search)

include hsearch

/-- The line that is found is there, and does not start behind the offset. -/
theorem lineOf_le {later : List Nat} (hkeys : (0 :: later).Pairwise (· ≤ ·)) (offset : Nat) :
    ∃ start, (0 :: later)[lineOf search (0 :: later) offset]? = some start ∧ start ≤ offset := by
  unfold lineOf
  cases hresult : search (0 :: later) offset with
  | ok line => exact ⟨offset, hsearch.found hkeys hresult, Nat.le_refl _⟩
  | error line =>
    obtain ⟨hle, hbefore, -⟩ := hsearch.missing hkeys hresult
    cases line with
    | zero => exact ⟨0, rfl, Nat.zero_le _⟩
    | succ line =>
      have hget := List.getElem?_eq_getElem (l := 0 :: later) (Nat.lt_of_succ_le hle)
      refine ⟨_, hget, Nat.le_of_lt (hbefore _ ?_)⟩
      rw [List.mem_iff_getElem?]
      exact ⟨line, by rw [List.getElem?_take_of_lt (Nat.lt_succ_self line), hget]⟩

/-- Where no two lines start at once, those behind it start behind the offset. -/
theorem lt_of_mem_drop_lineOf {later : List Nat} (hkeys : (0 :: later).Pairwise (· < ·))
    (offset : Nat) : ∀ k ∈ (0 :: later).drop (lineOf search (0 :: later) offset + 1),
      offset < k := by
  have hle : (0 :: later).Pairwise (· ≤ ·) := hkeys.imp Nat.le_of_lt
  intro k hk
  obtain ⟨i, hi⟩ := List.mem_iff_getElem?.1 hk
  rw [List.getElem?_drop] at hi
  unfold lineOf at hi
  cases hresult : search (0 :: later) offset with
  | ok line =>
    have hfound := hsearch.found hle hresult
    rw [hresult] at hi
    obtain ⟨hline, rfl⟩ := List.getElem?_eq_some_iff.1 hfound
    obtain ⟨hlater, rfl⟩ := List.getElem?_eq_some_iff.1 hi
    exact List.pairwise_iff_getElem.1 hkeys _ _ hline hlater (by simp only; omega)
  | error line =>
    obtain ⟨-, -, hbehind⟩ := hsearch.missing hle hresult
    rw [hresult] at hi
    cases line with
    | zero =>
      refine hbehind k ?_
      rw [List.drop_zero]
      exact List.mem_of_getElem? hi
    | succ line =>
      refine hbehind k (List.mem_iff_getElem?.2 ⟨i, ?_⟩)
      rw [List.getElem?_drop]
      exact hi

/-- Whichever text is asked about, the table of any text has an answer. -/
theorem exists_position (source query : String) (offset : Nat) :
    ∃ p, position search (lineTable source) query offset = .ok p := by
  obtain ⟨later, hstarts, hascends⟩ :=
    linesFrom_ascends false (bytes source) (Nat.zero_le (toOffset 0))
  change (lineTable source).map Prod.fst = 0 :: later at hstarts
  obtain ⟨start, hget, hle⟩ :=
    lineOf_le hsearch hascends (min offset (toOffset (bytes query).length))
  unfold position
  rw [hstarts]
  rw [← hstarts, List.getElem?_map] at hget
  obtain ⟨⟨start', wide⟩, hline, rfl⟩ := Option.map_eq_some_iff.1 hget
  rw [hstarts] at hline
  simp only [hline]
  cases wide with
  | true => exact ⟨_, rfl⟩
  | false =>
    -- The start of the line is subtracted from an offset that is not smaller.
    rw [if_neg Bool.false_ne_true, if_pos hle]
    exact ⟨_, rfl⟩

end Lookup

/-! ### Bytes of characters -/

/-- A byte that is no line break is passed. -/
theorem linesFrom_other {byte : UInt8} (hlf : byte ≠ '\n'.toUInt8) (hcr : byte ≠ '\r'.toUInt8)
    (index start : Nat) (wide : Bool) (rest : List UInt8) :
    linesFrom index start wide (byte :: rest) =
      linesFrom (index + 1) start (wide || 0x80 ≤ byte.toNat) rest := by
  rw [linesFrom, if_neg (not_or.2 ⟨hlf, hcr⟩)]

/-- Bytes that are not ASCII are no line breaks. -/
theorem linesFrom_wide {front : List UInt8} (hfront : ∀ byte ∈ front, 0x80 ≤ byte.toNat)
    (index start : Nat) (rest : List UInt8) :
    linesFrom index start true (front ++ rest) =
      linesFrom (index + front.length) start true rest := by
  induction front generalizing index with
  | nil => rfl
  | cons byte front ih =>
    rw [List.forall_mem_cons] at hfront
    have hne : ∀ c : Char, c.toNat < 0x80 → byte ≠ c.toUInt8 := by
      rintro c hc rfl
      have := hfront.1
      rw [toNat_toUInt8 hc] at this
      omega
    rw [List.cons_append, linesFrom_other (hne '\n' (by decide)) (hne '\r' (by decide)),
      Bool.true_or, ih hfront.2, List.length_cons, Nat.add_assoc, Nat.add_comm 1]

/-- A character that is no line break is passed, and counts as ASCII or not. -/
theorem linesFrom_char {c : Char} (hc : ¬ (c = '\r' ∨ c = '\n')) (index start : Nat) (ascii : Bool)
    (rest : List UInt8) :
    linesFrom index start (!ascii) (String.utf8EncodeChar c ++ rest) =
      linesFrom (index + c.utf8Size) start (!(ascii && c.toNat < 128)) rest := by
  obtain ⟨hcr, hlf⟩ := not_or.1 hc
  obtain hascii | hwide := Nat.lt_or_ge c.toNat 0x80
  · have hencode := encode_ascii hascii
    have hne : ∀ {d : Char}, d.toNat < 0x80 → c ≠ d → c.toUInt8 ≠ d.toUInt8 :=
      fun hd hcd heq => hcd ((lead_eq_iff hd hencode).1 heq)
    have htest : ¬ 0x80 ≤ c.toNat := Nat.not_le_of_lt hascii
    rw [hencode, utf8Size_ascii hascii, List.singleton_append,
      linesFrom_other (hne (by decide) hlf) (hne (by decide) hcr), toNat_toUInt8 hascii]
    simp only [htest, hascii, decide_false, decide_true, Bool.or_false, Bool.and_true]
  · obtain ⟨lead, tails, hencode, hlead, htails⟩ := encode_wide hwide
    have hbytes : ∀ byte ∈ String.utf8EncodeChar c, 0x80 ≤ byte.toNat :=
      fun byte => wide_of_mem_encode hwide
    have htest : ¬ c.toNat < 128 := Nat.not_lt_of_le hwide
    have hne : ∀ {d : Char}, d.toNat < 0x80 → c ≠ d → lead ≠ d.toUInt8 :=
      fun hd hcd heq => hcd ((lead_eq_iff hd hencode).1 heq)
    rw [← String.length_utf8EncodeChar]
    rw [hencode] at hbytes ⊢
    rw [List.forall_mem_cons] at hbytes
    -- The first byte sets the flag, which then stays.
    rw [List.cons_append, linesFrom_other (hne (by decide) hlf) (hne (by decide) hcr),
      decide_eq_true hbytes.1, Bool.or_true, linesFrom_wide hbytes.2, List.length_cons,
      decide_eq_false htest, Bool.and_false, Nat.add_assoc, Nat.add_comm 1]
    rfl

/-- The next byte is an ASCII character exactly if the next character is. -/
theorem head?_bytesOf {d : Char} (hd : d.toNat < 0x80) (cs : List Char) :
    (bytesOf cs).head? = some d.toUInt8 ↔ cs.head? = some d := by
  cases cs with
  | nil => simp
  | cons c cs =>
    obtain ⟨lead, tails, hencode, -, -⟩ := encode_eq_cons c
    rw [bytesOf_cons, hencode, List.cons_append, List.head?_cons, List.head?_cons, Option.some_inj,
      Option.some_inj, lead_eq_iff hd hencode]

/-- A line of characters, as it stands in a table of bytes. -/
def entry (line : Line) : Nat × Bool :=
  (line.start, !line.ascii)

/-- In a text that is not too long, the pass over the bytes gives the lines of the pass over the
    characters. -/
theorem linesFrom_bytesOf (start offset : Nat) (ascii : Bool) (cs : List Char)
    (hroom : offset + byteLength cs ≤ maxOffset) :
    linesFrom offset start (!ascii) (bytesOf cs) =
      (Line.tableFrom start offset ascii cs).map entry := by
  have hencode : ∀ {c : Char}, c = '\r' ∨ c = '\n' → String.utf8EncodeChar c = [c.toUInt8] := by
    rintro c (rfl | rfl) <;> exact encode_ascii (by decide)
  fun_induction Line.tableFrom start offset ascii cs with
  | case1 start offset ascii =>
    rw [bytesOf_nil, linesFrom]
    rfl
  | case2 start offset ascii cs ih =>
    simp only [byteLength_cons, Spot.utf8Size_break (.inl rfl), Spot.utf8Size_break (.inr rfl)]
      at hroom
    rw [bytesOf_cons, bytesOf_cons, hencode (.inl rfl), hencode (.inr rfl), List.singleton_append,
      List.singleton_append, linesFrom, if_pos (.inr rfl), if_pos ⟨rfl, rfl⟩,
      toOffset_of_le (by omega), List.map_cons, ← ih (by omega)]
    rfl
  | case3 start offset ascii c cs hcr hbreak ih =>
    simp only [byteLength_cons, Spot.utf8Size_break hbreak] at hroom
    have hbreak' : c.toUInt8 = '\n'.toUInt8 ∨ c.toUInt8 = '\r'.toUInt8 := by
      obtain rfl | rfl := hbreak
      · exact .inr rfl
      · exact .inl rfl
    -- If the next byte is a line feed, so is the next character.
    have hboth : ¬ (c.toUInt8 = '\r'.toUInt8 ∧ (bytesOf cs).head? = some '\n'.toUInt8) := by
      rintro ⟨hc, hhead⟩
      rw [lead_eq_iff (by decide) (hencode hbreak)] at hc
      rw [head?_bytesOf (by decide)] at hhead
      obtain ⟨behind, rfl⟩ := List.head?_eq_some_iff.1 hhead
      exact hcr behind hc rfl
    rw [bytesOf_cons, hencode hbreak, List.singleton_append, linesFrom, if_pos hbreak',
      if_neg hboth, toOffset_of_le (by omega), List.map_cons, ← ih (by omega)]
    rfl
  | case4 start offset ascii c cs hcr hbreak ih =>
    rw [byteLength_cons, ← Nat.add_assoc] at hroom
    rw [bytesOf_cons, linesFrom_char hbreak, ih hroom]

/-- Offsets that ascend are not smaller than their index. -/
theorem index_le {keys : List Nat} (hkeys : keys.Pairwise (· < ·)) {i k : Nat}
    (h : keys[i]? = some k) : i ≤ k := by
  induction i generalizing k with
  | zero => exact Nat.zero_le k
  | succ i ih =>
    obtain ⟨hi, rfl⟩ := List.getElem?_eq_some_iff.1 h
    have hlt := List.pairwise_iff_getElem.1 hkeys i (i + 1) (by omega) hi (by omega)
    have hle := ih (List.getElem?_eq_getElem (by omega))
    omega

theorem lineTable_eq {source : String} (hroom : byteLength source.toList ≤ maxOffset) :
    lineTable source = (LineTable.ofText source).lines.map entry := by
  rw [lineTable, bytes_eq]
  exact linesFrom_bytesOf 0 0 true source.toList (by omega)

/-- A piece of a text has no more characters than there are bytes up to its end. -/
theorem length_slice_le (start stop : Nat) (cs : List Char) :
    ((slice? start stop cs).getD []).length ≤ stop := by
  cases hslice : slice? start stop cs with
  | none => exact Nat.zero_le stop
  | some mid =>
    obtain ⟨front, behind, -, -, hstop⟩ := slice?_eq_some_iff.1 hslice
    have hlength := length_le_byteLength mid
    rw [byteLength_append] at hstop
    show mid.length ≤ stop
    omega

/-- An entry cuts a list in two. -/
theorem exists_append_of_getElem? {α : Type} {l : List α} {i : Nat} {a : α}
    (h : l[i]? = some a) : ∃ before later, l = before ++ a :: later ∧ before.length = i := by
  obtain ⟨hi, rfl⟩ := List.getElem?_eq_some_iff.1 h
  refine ⟨l.take i, l.drop (i + 1), ?_, List.length_take_of_le (Nat.le_of_lt hi)⟩
  rw [List.getElem_cons_drop, List.take_append_drop]

/-- On the line that is found, bytes are subtracted or characters are counted as in the table of
    characters. -/
theorem position_on {search : Search} {table : List (Nat × Bool)} {query : String}
    {offset clamped line : Nat} {present : Line} (hoffset : offset ≤ maxOffset)
    (hclamped : min offset (byteLength query.toList) = clamped)
    (hline : lineOf search (table.map Prod.fst) clamped = line)
    (hentry : table[line]? = some (entry present)) (hle : present.start ≤ clamped)
    (hindex : line ≤ clamped) :
    position search table query offset = .ok ⟨line, present.column query.toList clamped⟩ := by
  have hclamp : min offset (toOffset (bytes query).length) = clamped := by
    rw [bytes_eq, length_bytesOf]
    unfold toOffset
    omega
  unfold position
  simp only [hclamp, hline, hentry, entry]
  rw [toOffset_of_le (show line ≤ maxOffset by omega)]
  cases hascii : present.ascii with
  | true =>
    rw [Bool.not_true, if_neg Bool.false_ne_true, if_pos hle, Line.column, if_pos hascii]
  | false =>
    -- There are no more characters than bytes, so their number fits in 32 bits as well.
    have hcount := length_slice_le present.start clamped query.toList
    have hcolumn : present.column query.toList clamped =
        ((slice? present.start clamped query.toList).getD []).length := by
      unfold Line.column
      rw [hascii, if_neg Bool.false_ne_true]
      cases slice? present.start clamped query.toList <;> rfl
    rw [Bool.not_false, if_pos rfl, hcolumn, toOffset_of_le (by omega)]

/-- For a text that is not too long, the table of bytes and the table of characters give the same
    positions, in whichever text. -/
theorem position_eq {search : Search} (hsearch : Searches search) {source : String}
    (hroom : byteLength source.toList ≤ maxOffset) (query : String) {offset : Nat}
    (hoffset : offset ≤ maxOffset) :
    position search (lineTable source) query offset =
      .ok ((LineTable.ofText source).position query offset) := by
  obtain ⟨ends, hends, hstarts⟩ := exists_lineEnds source
  have hfst : (lineTable source).map Prod.fst = 0 :: ends := by
    rw [lineTable_eq hroom, List.map_map, ← hstarts]
    rfl
  generalize hclamped : min offset (byteLength query.toList) = clamped
  have hclamp : (LineTable.ofText source).position query offset =
      (LineTable.ofText source).position query clamped := by
    simp only [← hclamped, LineTable.position, Nat.min_assoc, Nat.min_self]
  obtain ⟨start, hget, hle⟩ := lineOf_le hsearch (hends.ascends.imp Nat.le_of_lt) clamped
  have hbehind := lt_of_mem_drop_lineOf hsearch hends.ascends clamped
  generalize hline : lineOf search (0 :: ends) clamped = line at hget hbehind
  have hindex := index_le hends.ascends hget
  rw [← hstarts, List.getElem?_map] at hget
  obtain ⟨present, hpresent, rfl⟩ := Option.map_eq_some_iff.1 hget
  have hentry : (lineTable source)[line]? = some (entry present) := by
    rw [lineTable_eq hroom, List.getElem?_map, hpresent]
    rfl
  -- The line that is found cuts the table into the lines that start before and behind.
  obtain ⟨before, later, hlines, hlength⟩ := exists_append_of_getElem? hpresent
  have hkeys : 0 :: ends = before.map Line.start ++ present.start :: later.map Line.start := by
    rw [← hstarts, hlines, List.map_append, List.map_cons]
  have hbefore : ∀ l ∈ before, l.start ≤ clamped := by
    intro l hl
    have hascends := hends.ascends
    rw [hkeys, List.pairwise_append] at hascends
    have hlt := hascends.2.2 l.start (List.mem_map_of_mem hl) present.start List.mem_cons_self
    omega
  have hlater : ∀ l ∈ later, clamped < l.start := by
    intro l hl
    refine hbehind l.start ?_
    rw [hkeys, List.append_cons, List.drop_left' (by simp [hlength])]
    exact List.mem_map_of_mem hl
  have htable : LineTable.ofText source = ⟨before ++ present :: later⟩ := congrArg LineTable.mk hlines
  rw [position_on hoffset hclamped (hfst ▸ hline) hentry hle (by omega), hclamp, htable,
    LineTable.position_eq (by omega) hbefore hle hlater, hlength]

/-! ### The naive definition -/

/-- The lines of a source whose length fits in 32 bits start at zero and behind each line break,
    and the position of an offset in it is found by counting line breaks and characters. The table
    of bytes gives it as well, and has an answer for all texts. -/
theorem position_counts {search : Search} (hsearch : Searches search) (source : String)
    (hroom : byteLength source.toList ≤ maxOffset) :
    (∃ ends, LineEnds source.toList ends ∧ (lineTable source).map Prod.fst = 0 :: ends ∧
      (LineTable.ofText source).lines.map Line.start = 0 :: ends ∧
      ∀ offset ≤ maxOffset, Boundary source (min offset (byteLength source.toList)) →
        position search (lineTable source) source offset = .ok (positionIn source offset) ∧
        Counts source ends (min offset (byteLength source.toList)) (positionIn source offset)) ∧
    (∀ (query : String), ∀ offset ≤ maxOffset,
      position search (lineTable source) query offset =
        .ok ((LineTable.ofText source).position query offset)) ∧
    ∀ (text query : String) (offset : Nat),
      ∃ p, position search (lineTable text) query offset = .ok p := by
  refine ⟨?_, fun query offset => position_eq hsearch hroom query, exists_position hsearch⟩
  obtain ⟨ends, hends, hstarts⟩ := exists_lineEnds source
  refine ⟨ends, hends, ?_, hstarts, ?_⟩
  · rw [lineTable_eq hroom, List.map_map, ← hstarts]
    rfl
  · intro offset hoffset hboundary
    exact ⟨position_eq hsearch hroom source hoffset, positionIn_counts hstarts hboundary⟩

/-- Between the characters of a line break, at the start of a line and behind the text. -/
theorem position_counts_bisect :
    let source := "ab\r\nìc\r\n\rd"
    Searches bisect ∧ byteLength source.toList ≤ maxOffset ∧
    (lineTable source).map Prod.fst = [0, 4, 9, 10] ∧
    position bisect (lineTable source) source 3 = .ok ⟨0, 3⟩ ∧
    position bisect (lineTable source) source 7 = .ok ⟨1, 2⟩ ∧
    position bisect (lineTable source) source 10 = .ok ⟨3, 0⟩ ∧
    position bisect (lineTable source) source 99 = .ok ⟨3, 1⟩ := by
  intro source
  have hroom : byteLength source.toList ≤ maxOffset := by decide
  obtain ⟨⟨ends, hends, htable, hstarts, -⟩, hposition, -⟩ :=
    position_counts bisect_searches source hroom
  have hlines : (LineTable.ofText source).lines.map Line.start = [0, 4, 9, 10] := by decide
  rw [hlines] at hstarts
  rw [htable, ← hstarts]
  refine ⟨bisect_searches, hroom, rfl, ?_, ?_, ?_, ?_⟩
  all_goals
    rw [hposition source _ (by decide)]
    decide

end Bytewise

end TreeGrammar
