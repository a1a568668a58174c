import TreeGrammar.Proofs.Lines

/-! # Lines by counting

    What line and column of a place are, without a table: the line breaks
    that end before the place are counted, and then the characters from the
    last of them on.

    Key idea:
    - where a line break ends is told by one character before and one behind
      (`EndsLine`), and a table starts a line at each such place and nowhere
      else (`Line.mem_tableFrom`);
    - the lines of a table are cut at any boundary into those before it, the
      present one and those behind (`OnLine.exists_cut`);
    - counting both sides of the cut gives line and column (`positionIn_counts`).
-/

namespace TreeGrammar

/-- A line break ends between two parts of a text: behind a line feed, or behind a carriage
    return that no line feed follows. -/
def EndsLine (front behind : List Char) : Prop :=
  front.getLast? = some '\n' ∨ front.getLast? = some '\r' ∧ behind.head? ≠ some '\n'

/-- In a text that starts at an offset, a line break ends at another one. -/
def EndsAt (text : List Char) (offset stop : Nat) : Prop :=
  ∃ front behind, text = front ++ behind ∧ EndsLine front behind ∧
    offset + byteLength front = stop

/-- The offsets behind the line breaks of a text, in the order of the text. -/
structure LineEnds (text : List Char) (ends : List Nat) : Prop where
  /-- They ascend, and none of them is zero. -/
  ascends : (0 :: ends).Pairwise (· < ·)
  /-- They are those at which a line break ends. -/
  mem_iff : ∀ stop, stop ∈ ends ↔ EndsAt text 0 stop

/-- Line and column of an offset, by counting. -/
structure Counts (source : String) (ends : List Nat) (offset : Nat) (p : Position) : Prop where
  /-- The line is the number of line breaks that end at the offset or before it. -/
  line : p.line = ends.countP (· ≤ offset)
  /-- The column is the number of characters between the start of that line and the offset. -/
  column : ∃ start chars, (0 :: ends)[p.line]? = some start ∧
    slice? start offset source.toList = some chars ∧ p.column = chars.length

/-! ### Ends of line breaks -/

theorem not_endsLine_nil (behind : List Char) : ¬ EndsLine [] behind := by
  rintro (h | ⟨h, -⟩) <;> cases h

theorem endsLine_singleton {c : Char} {behind : List Char} :
    EndsLine [c] behind ↔ c = '\n' ∨ c = '\r' ∧ behind.head? ≠ some '\n' := by
  simp [EndsLine]

theorem endsLine_cons_cons {c c' : Char} {front behind : List Char} :
    EndsLine (c :: c' :: front) behind ↔ EndsLine (c' :: front) behind := by
  rw [EndsLine, EndsLine, List.getLast?_cons_cons]

theorem not_endsAt_nil (offset stop : Nat) : ¬ EndsAt [] offset stop := by
  rintro ⟨front, behind, htext, hends, -⟩
  obtain ⟨rfl, rfl⟩ := List.append_eq_nil_iff.1 htext.symm
  exact not_endsLine_nil [] hends

theorem EndsAt.lt {text : List Char} {offset stop : Nat} (h : EndsAt text offset stop) :
    offset < stop := by
  obtain ⟨front, behind, -, hends, rfl⟩ := h
  have hne : front ≠ [] := by
    rintro rfl
    exact not_endsLine_nil behind hends
  have := Nat.pos_of_ne_zero (mt byteLength_eq_zero_iff.1 hne)
  omega

/-- A line break ends behind the first character, or in the rest of the text. -/
theorem endsAt_cons {c : Char} {cs : List Char} {offset stop : Nat} :
    EndsAt (c :: cs) offset stop ↔
      EndsLine [c] cs ∧ offset + c.utf8Size = stop ∨ EndsAt cs (offset + c.utf8Size) stop := by
  constructor
  · rintro ⟨front, behind, htext, hends, hstop⟩
    rcases front with _ | ⟨d, _ | ⟨d', front⟩⟩
    · exact absurd hends (not_endsLine_nil behind)
    · obtain ⟨rfl, rfl⟩ := List.cons.inj htext
      exact .inl ⟨hends, hstop⟩
    · obtain ⟨rfl, hrest⟩ := List.cons.inj htext
      refine .inr ⟨d' :: front, behind, hrest, endsLine_cons_cons.1 hends, ?_⟩
      rw [← hstop, byteLength_cons c, Nat.add_assoc]
  · rintro (⟨hends, hstop⟩ | ⟨front, behind, rfl, hends, hstop⟩)
    · exact ⟨[c], cs, rfl, hends, hstop⟩
    · cases front with
      | nil => exact absurd hends (not_endsLine_nil behind)
      | cons d front =>
        refine ⟨c :: d :: front, behind, rfl, endsLine_cons_cons.2 hends, ?_⟩
        rw [← hstop, byteLength_cons, Nat.add_assoc]

namespace Line

/-- A table starts a line at its start and behind each line break. -/
theorem mem_tableFrom {start offset : Nat} {ascii : Bool} {cs : List Char} {stop : Nat} :
    stop ∈ (tableFrom start offset ascii cs).map Line.start ↔
      start = stop ∨ EndsAt cs offset stop := by
  fun_induction tableFrom start offset ascii cs with
  | case1 start offset ascii => simp [not_endsAt_nil, eq_comm]
  | case2 start offset ascii cs ih =>
    -- The break does not end behind the carriage return.
    have hcr : ¬ EndsLine ['\r'] ('\n' :: cs) := by simp [endsLine_singleton]
    have hlf : EndsLine ['\n'] cs := endsLine_singleton.2 (.inl rfl)
    rw [List.map_cons, List.mem_cons, ih, endsAt_cons, endsAt_cons,
      Spot.utf8Size_break (.inl rfl), Spot.utf8Size_break (.inr rfl), eq_comm]
    simp only [hcr, hlf, false_and, true_and, false_or, Nat.add_assoc]
  | case3 start offset ascii c cs hcr hbreak ih =>
    have hends : EndsLine [c] cs := by
      obtain rfl | rfl := hbreak
      · refine endsLine_singleton.2 (.inr ⟨rfl, ?_⟩)
        intro hhead
        obtain ⟨behind, rfl⟩ := List.head?_eq_some_iff.1 hhead
        exact hcr behind rfl rfl
      · exact endsLine_singleton.2 (.inl rfl)
    rw [List.map_cons, List.mem_cons, ih, endsAt_cons, Spot.utf8Size_break hbreak, eq_comm]
    simp only [hends, true_and]
  | case4 start offset ascii c cs hcr hbreak ih =>
    have hends : ¬ EndsLine [c] cs := by
      rw [endsLine_singleton]
      rintro (h | ⟨h, -⟩)
      · exact hbreak (.inr h)
      · exact hbreak (.inl h)
    rw [ih, endsAt_cons]
    simp only [hends, false_and, false_or]

/-- Lines start one behind the other. -/
theorem tableFrom_ascends {start offset : Nat} (ascii : Bool) (cs : List Char)
    (h : start ≤ offset) : ((tableFrom start offset ascii cs).map Line.start).Pairwise (· < ·) := by
  -- Behind a break the present line starts at the offset, and it starts before the later ones.
  have hcons : ∀ {start offset next : Nat} {ascii : Bool} {cs : List Char},
      start < next → start ≤ offset →
      ((tableFrom next next true cs).map Line.start).Pairwise (· < ·) →
      ((⟨start, ascii⟩ :: tableFrom next next true cs).map Line.start).Pairwise (· < ·) := by
    intro start offset next ascii cs hlt hle hnext
    obtain ⟨present, later, htable, hpresent, -⟩ := tableFrom_eq next next true cs
    rw [htable, List.map_cons] at hnext
    rw [htable, List.map_cons, List.map_cons]
    exact List.pairwise_cons_cons_iff_of_trans.2 ⟨hpresent ▸ hlt, hnext⟩
  fun_induction tableFrom start offset ascii cs with
  | case1 => exact List.pairwise_singleton _ _
  | case2 start offset ascii cs ih => exact hcons (by omega) h (ih (Nat.le_refl _))
  | case3 start offset ascii c cs hcr hbreak ih => exact hcons (by omega) h (ih (Nat.le_refl _))
  | case4 start offset ascii c cs hcr hbreak ih => exact ih (Nat.le_trans h (Nat.le_add_right _ _))

end Line

/-! ### Cuts of a table -/

/-- A place of a text cuts some lines: those before it, the one that it lies on and those behind
    it. -/
structure LineCut (text : List Char) (lines before : List Line) (present : Line)
    (later : List Line) (offset : Nat) (rest : List Char) : Prop where
  lines : lines = before ++ present :: later
  before : ∀ line ∈ before, line.start ≤ offset
  later : ∀ line ∈ later, offset < line.start
  /-- Up to the place the present line is ASCII, if it says that it is. -/
  present : ∃ column ascii, OnLine text present.start offset column ascii rest ∧
    (present.ascii = true → ascii = true)

namespace LineCut

variable {text rest : List Char} {lines before later : List Line} {present line : Line}
  {offset : Nat}

theorem start_le (h : LineCut text lines before present later offset rest) :
    present.start ≤ offset := by
  obtain ⟨_, _, hline, -⟩ := h.present
  exact hline.start_le

/-- A line that ends before the place goes in front of the others. -/
theorem cons (h : LineCut text lines before present later offset rest)
    (hle : line.start ≤ offset) :
    LineCut text (line :: lines) (line :: before) present later offset rest where
  lines := congrArg (line :: ·) h.lines
  before := List.forall_mem_cons.2 ⟨hle, h.before⟩
  later := h.later
  present := h.present

/-- The column is the number of characters from the start of the present line on. -/
theorem exists_slice (h : LineCut text lines before present later offset rest) :
    ∃ chars, slice? present.start offset text = some chars ∧
      present.column text offset = chars.length := by
  obtain ⟨column, ascii, hline, hascii⟩ := h.present
  have hcolumn := hline.column_eq rfl hascii
  obtain ⟨front, chars, htext, hstart, hoffset, hlength, -⟩ := hline
  refine ⟨chars, slice?_eq_some_iff.2 ⟨front, rest, ?_, hstart, ?_⟩, hcolumn.trans hlength.symm⟩
  · rw [htext, List.append_assoc]
  · rw [byteLength_append, hstart, hoffset]

end LineCut

/-- The present place is on the first line of the table. -/
theorem OnLine.cut {text cs : List Char} {start offset column : Nat} {ascii : Bool}
    (h : OnLine text start offset column ascii cs) :
    ∃ before present later, LineCut text (Line.tableFrom start offset ascii cs) before present
      later offset cs := by
  obtain ⟨present, later, htable, hstart, hascii, hlater⟩ :=
    Line.tableFrom_eq start offset ascii cs
  refine ⟨[], present, later, htable, List.forall_mem_nil _, hlater, column, ascii, ?_, hascii⟩
  rwa [hstart]

/-- Between a carriage return and its line feed, the line has not ended yet. -/
theorem OnLine.cut_inside {text cs : List Char} {start offset column : Nat} {ascii : Bool}
    (h : OnLine text start offset column ascii ('\r' :: '\n' :: cs)) :
    LineCut text (⟨start, ascii⟩ :: Line.tableFrom (offset + 2) (offset + 2) true cs) []
      ⟨start, ascii⟩ (Line.tableFrom (offset + 2) (offset + 2) true cs) (offset + 1)
      ('\n' :: cs) where
  lines := rfl
  before := List.forall_mem_nil _
  later := by
    obtain ⟨next, later, htable, hnext, -, hlater⟩ :=
      Line.tableFrom_eq (offset + 2) (offset + 2) true cs
    rw [htable, List.forall_mem_cons]
    refine ⟨by omega, ?_⟩
    intro line hline
    have := hlater line hline
    omega
  present := by
    have hchar := h.char
    rw [Spot.utf8Size_break (.inl rfl), decide_eq_true (by decide), Bool.and_true] at hchar
    exact ⟨column + 1, ascii, hchar, id⟩

/-- Any place further on cuts the table. -/
theorem OnLine.exists_cut {text cs front rest : List Char} {start offset column : Nat}
    {ascii : Bool} (h : OnLine text start offset column ascii cs) (hcs : cs = front ++ rest) :
    ∃ before present later, LineCut text (Line.tableFrom start offset ascii cs) before present
      later (offset + byteLength front) rest := by
  induction start, offset, ascii, cs using Line.tableFrom.induct generalizing front column with
  | case1 start offset ascii =>
    obtain ⟨rfl, rfl⟩ := List.append_eq_nil_iff.1 hcs.symm
    exact h.cut
  | case2 start offset ascii cs ih =>
    have hstart := h.start_le
    have hcr : ('\r' : Char).utf8Size = 1 := Spot.utf8Size_break (.inl rfl)
    have hlf : ('\n' : Char).utf8Size = 1 := Spot.utf8Size_break (.inr rfl)
    rcases front with _ | ⟨c, _ | ⟨c', front⟩⟩
    · subst hcs
      exact h.cut
    · -- The place is inside the break.
      obtain ⟨rfl, rfl⟩ := List.cons.inj hcs
      rw [Line.tableFrom, byteLength_cons, hcr]
      exact ⟨[], _, _, h.cut_inside⟩
    · -- The break ends the present line, which goes in front of the lines that are cut.
      simp only [List.cons_append, List.cons.injEq] at hcs
      obtain ⟨rfl, rfl, hrest⟩ := hcs
      have hbreak : OnLine text start offset column ascii (['\r', '\n'] ++ cs) := h
      obtain ⟨before, present, later, hcut⟩ := ih hbreak.break hrest
      rw [Line.tableFrom]
      refine ⟨⟨start, ascii⟩ :: before, present, later, ?_⟩
      rw [byteLength_cons, byteLength_cons, hcr, hlf, ← Nat.add_assoc 1, ← Nat.add_assoc]
      exact hcut.cons (by simp only; omega)
  | case3 start offset ascii c cs hcr hbreak ih =>
    have hstart := h.start_le
    cases front with
    | nil =>
      subst hcs
      exact h.cut
    | cons c front =>
      obtain ⟨rfl, hrest⟩ := List.cons.inj hcs
      have hchar : OnLine text start offset column ascii ([c] ++ cs) := h
      have hnext := hchar.break
      rw [byteLength_cons, Spot.utf8Size_break hbreak] at hnext
      obtain ⟨before, present, later, hcut⟩ := ih hnext hrest
      rw [Line.tableFrom.eq_3 _ _ _ _ _ hcr, if_pos hbreak]
      refine ⟨⟨start, ascii⟩ :: before, present, later, ?_⟩
      rw [byteLength_cons, Spot.utf8Size_break hbreak, ← Nat.add_assoc]
      exact hcut.cons (by simp only; omega)
  | case4 start offset ascii c cs hcr hbreak ih =>
    cases front with
    | nil =>
      subst hcs
      exact h.cut
    | cons c front =>
      obtain ⟨rfl, hrest⟩ := List.cons.inj hcs
      rw [Line.tableFrom.eq_3 _ _ _ _ _ hcr, if_neg hbreak, byteLength_cons, ← Nat.add_assoc]
      exact ih h.char hrest

/-! ### Counting -/

/-- The lines of a text start at zero and behind each line break. -/
theorem exists_lineEnds (source : String) :
    ∃ ends, LineEnds source.toList ends ∧
      (LineTable.ofText source).lines.map Line.start = 0 :: ends := by
  obtain ⟨present, later, htable, hstart, -, -⟩ := Line.tableFrom_eq 0 0 true source.toList
  have hlines : (Line.tableFrom 0 0 true source.toList).map Line.start =
      0 :: later.map Line.start := by
    rw [htable, List.map_cons, hstart]
  have hascends := Line.tableFrom_ascends true source.toList (Nat.le_refl 0)
  rw [hlines] at hascends
  refine ⟨later.map Line.start, ⟨hascends, ?_⟩, hlines⟩
  intro stop
  have hmem : stop ∈ 0 :: later.map Line.start ↔ 0 = stop ∨ EndsAt source.toList 0 stop := by
    rw [← hlines]
    exact Line.mem_tableFrom
  constructor
  · intro h
    have hpos := (List.pairwise_cons.1 hascends).1 stop h
    exact (hmem.1 (List.mem_cons_of_mem _ h)).resolve_left (Nat.ne_of_lt hpos)
  · intro h
    exact (List.mem_cons.1 (hmem.2 (.inr h))).resolve_left (Nat.ne_of_gt h.lt)

/-- Where the lines are cut, those before the place are as many as the line breaks before it. -/
theorem LineCut.countP_ends {text rest : List Char} {lines before later : List Line}
    {present : Line} {offset : Nat} {ends : List Nat}
    (h : LineCut text lines before present later offset rest)
    (hlines : lines.map Line.start = 0 :: ends) :
    ends.countP (· ≤ offset) = before.length ∧
      (0 :: ends)[before.length]? = some present.start := by
  have hbefore : (before.map Line.start).countP (· ≤ offset) = before.length := by
    rw [List.countP_map, List.countP_eq_length]
    simpa using h.before
  have hlater : (later.map Line.start).countP (· ≤ offset) = 0 := by
    rw [List.countP_map, List.countP_eq_zero]
    simpa using h.later
  rw [h.lines, List.map_append, List.map_cons] at hlines
  rw [← hlines]
  refine ⟨?_, ?_⟩
  · -- The first line starts at zero, where no line break ends.
    have hcount := congrArg (List.countP (· ≤ offset)) hlines
    rw [List.countP_append, List.countP_cons, hbefore, hlater, List.countP_cons] at hcount
    simp only [h.start_le, decide_true, if_true, Nat.zero_le] at hcount
    omega
  · simp

/-- The position of an offset in a text, which is that of the end behind the text, is found by
    counting. -/
theorem positionIn_counts {source : String} {ends : List Nat}
    (hlines : (LineTable.ofText source).lines.map Line.start = 0 :: ends) {offset : Nat}
    (h : Boundary source (min offset (byteLength source.toList))) :
    Counts source ends (min offset (byteLength source.toList)) (positionIn source offset) := by
  obtain ⟨front, rest, hsource, hoffset⟩ := h
  obtain ⟨before, present, later, hcut⟩ := (onLine_start source.toList).exists_cut hsource
  rw [hoffset, Nat.zero_add] at hcut
  obtain ⟨hcount, hpresent⟩ := hcut.countP_ends hlines
  obtain ⟨chars, hslice, hcolumn⟩ := hcut.exists_slice
  have hposition : positionIn source offset = ⟨before.length, chars.length⟩ := by
    have hclamp : positionIn source offset =
        positionIn source (min offset (byteLength source.toList)) := by
      simp only [positionIn, LineTable.position, Nat.min_assoc, Nat.min_self]
    have htable : LineTable.ofText source = ⟨before ++ present :: later⟩ :=
      congrArg LineTable.mk hcut.lines
    rw [hclamp, positionIn, htable, LineTable.position_eq (Nat.min_le_right _ _) hcut.before
      hcut.start_le hcut.later, hcolumn]
  rw [hposition]
  exact ⟨hcount.symm, present.start, chars, hpresent, hslice, rfl⟩

end TreeGrammar
