import TreeGrammar.Proofs.LineScan

/-! # The order of positions

    Two places of a text compare by line and column as they compare by byte
    offset, whatever lines they are on.

    Key idea:
    - the earlier of two boundaries has the smaller position
      (`positionIn_lt`), and positions are ordered in one of three ways, as
      offsets are, so the two comparisons agree (`compare_positionIn`);
    - a sort only asks how the members of its list compare, so sorting by
      position is sorting by offset (`mergeSort_by_position`).
-/

namespace TreeGrammar

section Boundaries

variable {source : String} {first second : Nat} (hfirst : Boundary source first)
  (hsecond : Boundary source second)

include hfirst hsecond

/-- Boundaries compare by position as they do by offset. -/
theorem compare_positionIn :
    compare (positionIn source first) (positionIn source second) = compare first second := by
  rcases Nat.lt_trichotomy first second with hlt | rfl | hgt
  · have hposition : compare (positionIn source first) (positionIn source second) = .lt :=
      positionIn_lt hfirst hsecond hlt
    rw [hposition, Nat.compare_eq_lt.2 hlt]
  · rw [Position.compare_eq_eq.2 rfl, Nat.compare_eq_eq.2 rfl]
  · rw [Position.compare_eq_gt.2 (positionIn_lt hsecond hfirst hgt), Nat.compare_eq_gt.2 hgt]

theorem positionIn_lt_iff : positionIn source first < positionIn source second ↔ first < second := by
  show compare (positionIn source first) (positionIn source second) = .lt ↔ first < second
  rw [compare_positionIn hfirst hsecond, Nat.compare_eq_lt]

end Boundaries

/-! ### Sorting -/

/-- Things sorted by the position of their place are sorted by its offset. -/
theorem mergeSort_by_position {source : String} {α : Type} {key : α → Nat} {items : List α}
    (hitems : ∀ a ∈ items, Boundary source (key a)) :
    items.mergeSort (fun a b =>
        (compare (positionIn source (key a)) (positionIn source (key b))).isLE) =
      items.mergeSort (fun a b => (compare (key a) (key b)).isLE) := by
  have hcompare : ∀ a ∈ items, ∀ b ∈ items,
      (compare (positionIn source (key a)) (positionIn source (key b))).isLE =
        (compare (key a) (key b)).isLE := by
    intro a ha b hb
    rw [compare_positionIn (hitems a ha) (hitems b hb)]
  simpa only [List.map_id] using List.map_mergeSort (f := id) hcompare

/-- The sorted positions of some places are the positions of the sorted places. -/
theorem sort_positions {source : String} {offsets : List Nat}
    (hoffsets : ∀ offset ∈ offsets, Boundary source offset) :
    Position.sort (offsets.map (positionIn source)) =
      (offsets.mergeSort fun a b => (compare a b).isLE).map (positionIn source) := by
  refine (List.map_mergeSort fun a ha b hb => ?_).symm
  rw [compare_positionIn (hoffsets a ha) (hoffsets b hb)]

namespace Bytewise

section Table

variable {search : Search} (hsearch : Searches search) {source : String}
  (hroom : byteLength source.toList ≤ maxOffset)

include hsearch hroom

/-- The table of bytes of a text that is not too long has the position of every boundary. -/
theorem position_boundary {offset : Nat} (h : Boundary source offset) :
    position search (lineTable source) source offset = .ok (positionIn source offset) :=
  position_eq hsearch hroom source (Nat.le_trans h.le hroom)

theorem mapM_position {offsets : List Nat} (h : ∀ offset ∈ offsets, Boundary source offset) :
    offsets.mapM (position search (lineTable source) source) =
      .ok (offsets.map (positionIn source)) := by
  induction offsets with
  | nil => rfl
  | cons offset offsets ih =>
    obtain ⟨hoffset, hoffsets⟩ := List.forall_mem_cons.1 h
    rw [List.mapM_cons, position_boundary hsearch hroom hoffset, ih hoffsets]
    rfl

/-- Sorting boundaries before their positions are looked up is sorting the positions. -/
theorem mapM_position_mergeSort {offsets : List Nat}
    (h : ∀ offset ∈ offsets, Boundary source offset) :
    (offsets.mergeSort fun a b => (compare a b).isLE).mapM
        (position search (lineTable source) source) =
      .ok (Position.sort (offsets.map (positionIn source))) := by
  rw [sort_positions h]
  refine mapM_position hsearch hroom fun offset hoffset => h offset ?_
  exact (List.mergeSort_perm offsets _).mem_iff.1 hoffset

end Table

/-- In a source whose length fits in 32 bits, the positions of two boundaries compare as their
    offsets do: the earlier one has the smaller line and column, and different boundaries have
    different ones. So the positions of some boundaries are sorted when their offsets are, and
    whatever is sorted by the position of its place is sorted by its offset. -/
theorem position_order {search : Search} (hsearch : Searches search) (source : String)
    (hroom : byteLength source.toList ≤ maxOffset) :
    (∀ first second, Boundary source first → Boundary source second →
      ∃ p q, position search (lineTable source) source first = .ok p ∧
        position search (lineTable source) source second = .ok q ∧
        positionIn source first = p ∧ positionIn source second = q ∧
        (first < second ↔ p < q) ∧ (first = second ↔ p = q) ∧
        compare first second = compare p q) ∧
    (∀ offsets : List Nat, (∀ offset ∈ offsets, Boundary source offset) →
      ∃ positions, offsets.mapM (position search (lineTable source) source) = .ok positions ∧
        (offsets.mergeSort fun a b => (compare a b).isLE).mapM
          (position search (lineTable source) source) = .ok (Position.sort positions)) ∧
    ∀ (α : Type) (key : α → Nat) (items : List α), (∀ a ∈ items, Boundary source (key a)) →
      items.mergeSort (fun a b =>
          (compare (positionIn source (key a)) (positionIn source (key b))).isLE) =
        items.mergeSort (fun a b => (compare (key a) (key b)).isLE) := by
  refine ⟨fun first second hfirst hsecond => ?_, fun offsets hoffsets => ?_,
    fun α key items hitems => mergeSort_by_position hitems⟩
  · refine ⟨_, _, position_boundary hsearch hroom hfirst, position_boundary hsearch hroom hsecond,
      rfl, rfl, (positionIn_lt_iff hfirst hsecond).symm, ⟨congrArg _, ?_⟩,
      (compare_positionIn hfirst hsecond).symm⟩
    exact positionIn_inj hfirst hsecond
  · exact ⟨_, mapM_position hsearch hroom hoffsets, mapM_position_mergeSort hsearch hroom hoffsets⟩

/-- A line with a wide character, both sides of the middle of a line break, and the end. -/
theorem position_order_bisect :
    let source := "ab\r\nìc\r\n\rd"
    Searches bisect ∧ byteLength source.toList ≤ maxOffset ∧
    (∀ offset ∈ [11, 6, 3, 4], Boundary source offset) ∧
    [11, 6, 3, 4].mapM (position bisect (lineTable source) source) =
      .ok [⟨3, 1⟩, ⟨1, 1⟩, ⟨0, 3⟩, ⟨1, 0⟩] ∧
    [3, 4, 6, 11].mapM (position bisect (lineTable source) source) =
      .ok [⟨0, 3⟩, ⟨1, 0⟩, ⟨1, 1⟩, ⟨3, 1⟩] := by
  intro source
  have hroom : byteLength source.toList ≤ maxOffset := by decide
  have hboundary : ∀ offset ∈ [11, 6, 3, 4], Boundary source offset := by
    simp only [List.forall_mem_cons]
    exact ⟨⟨source.toList, [], by decide, by decide⟩,
      ⟨"ab\r\nì".toList, "c\r\n\rd".toList, by decide, by decide⟩,
      ⟨"ab\r".toList, "\nìc\r\n\rd".toList, by decide, by decide⟩,
      ⟨"ab\r\n".toList, "ìc\r\n\rd".toList, by decide, by decide⟩,
      List.forall_mem_nil _⟩
  have hpositions : [11, 6, 3, 4].map (positionIn source) =
      [⟨3, 1⟩, ⟨1, 1⟩, ⟨0, 3⟩, ⟨1, 0⟩] := by decide
  obtain ⟨-, hsort, -⟩ := position_order bisect_searches source hroom
  obtain ⟨positions, hmap, hsorted⟩ := hsort _ hboundary
  obtain rfl : positions = [⟨3, 1⟩, ⟨1, 1⟩, ⟨0, 3⟩, ⟨1, 0⟩] := by
    rw [mapM_position bisect_searches hroom hboundary, hpositions] at hmap
    exact (Except.ok.inj hmap).symm
  refine ⟨bisect_searches, hroom, hboundary, hmap, ?_⟩
  simpa +decide [List.mergeSort, Position.sort] using hsorted

end Bytewise

end TreeGrammar
