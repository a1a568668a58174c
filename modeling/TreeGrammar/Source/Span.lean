import TreeGrammar.Text.Bytes

/-! # Spans

    A span is a range of byte offsets into a text. Its two ends are in order
    by construction, so a length never underflows; `Span.ofBounds?` is the
    way in for ends that are not known to be.
-/

namespace TreeGrammar

/-- The byte offsets from `start` up to, but without, `stop`. -/
structure Span where
  /-- The offset of the first byte. -/
  start : Nat
  /-- The offset behind the last byte. -/
  stop : Nat
  /-- A span does not end before it starts. -/
  start_le_stop : start ≤ stop
  deriving DecidableEq, Repr

namespace Span

/-- The span between two offsets, if they are in order. -/
def ofBounds? (start stop : Nat) : Option Span :=
  if h : start ≤ stop then some ⟨start, stop, h⟩ else none

/-- The empty span at an offset. -/
def point (offset : Nat) : Span :=
  ⟨offset, offset, Nat.le_refl offset⟩

/-- The span of `length` bytes from an offset on. -/
def ofLength (start length : Nat) : Span :=
  ⟨start, start + length, Nat.le_add_right start length⟩

instance : Inhabited Span := ⟨point 0⟩

/-- The number of bytes in a span. -/
def length (s : Span) : Nat :=
  s.stop - s.start

/-- Whether a span holds no byte. -/
def isEmpty (s : Span) : Bool :=
  s.start = s.stop

/-- The part of a text that a span stands for, if both its ends lie between characters of
    the text. -/
def text? (s : Span) (source : String) : Option String :=
  (slice? s.start s.stop source.toList).map String.ofList

/-- A span as it is shown to a reader. -/
def render (s : Span) : String :=
  s!"{s.start}..{s.stop}"

/-- Spans are ordered by their start, then by their end. -/
instance : Ord Span where
  compare a b := (compare a.start b.start).then (compare a.stop b.stop)

/-- The spans in ascending order. -/
def sort (spans : List Span) : List Span :=
  spans.mergeSort fun a b => (compare a b).isLE

@[simp] theorem ofBounds?_eq_none_iff {start stop : Nat} :
    ofBounds? start stop = none ↔ stop < start := by
  simp [ofBounds?]

@[simp] theorem ofBounds?_bounds (s : Span) : ofBounds? s.start s.stop = some s := by
  simp [ofBounds?, s.start_le_stop]

@[simp] theorem start_point (n : Nat) : (point n).start = n := rfl

@[simp] theorem stop_point (n : Nat) : (point n).stop = n := rfl

@[simp] theorem start_ofLength (n k : Nat) : (ofLength n k).start = n := rfl

@[simp] theorem stop_ofLength (n k : Nat) : (ofLength n k).stop = n + k := rfl

@[simp] theorem length_ofLength (n k : Nat) : (ofLength n k).length = k := by
  simp [length]

theorem isEmpty_iff {s : Span} : s.isEmpty = true ↔ s.length = 0 := by
  have := s.start_le_stop
  simp [isEmpty, length]
  omega

end Span

end TreeGrammar
