/-! # Quoted literals

    A literal stands between apostrophes. Inside, a backslash takes the
    character after it as it is, whatever it is.

    Key idea:
    - `Literal.spelling` is the canonical spelling of a value: it puts a
      backslash before apostrophes and backslashes and nowhere else;
    - `Literal.inside?` reads any spelling, behind its opening apostrophe.
-/

namespace TreeGrammar

namespace Literal

/-- A character of a value inside the canonical spelling. -/
def spellChar (c : Char) : List Char :=
  if c = '\\' ∨ c = '\'' then ['\\', c] else [c]

/-- The canonical spelling of a value. -/
def spelling (value : String) : String :=
  String.ofList ('\'' :: value.toList.flatMap spellChar ++ ['\''])

/-- What the inside of a literal spells. -/
structure Inside where
  /-- The characters of the literal behind its opening apostrophe, the closing one included. -/
  text : List Char
  /-- The characters that the literal stands for. -/
  value : List Char
  deriving DecidableEq, Repr

/-- Reads on inside a literal up to its closing apostrophe. What was read so far is given in
    reverse. There is no result if the text ends before the literal does. -/
def insideFrom? (text value : List Char) : List Char → Option Inside
  | [] => none
  | '\'' :: _ => some ⟨('\'' :: text).reverse, value.reverse⟩
  | ['\\'] => none
  -- The backslash belongs to the text and not to the value.
  | '\\' :: c :: rest => insideFrom? (c :: '\\' :: text) (c :: value) rest
  | c :: rest => insideFrom? (c :: text) (c :: value) rest

/-- Reads a literal behind its opening apostrophe. -/
def inside? (cs : List Char) : Option Inside :=
  insideFrom? [] [] cs

/-- What was read before only stands in front. -/
theorem insideFrom?_eq_map (text value cs : List Char) :
    insideFrom? text value cs =
      (inside? cs).map fun i => ⟨text.reverse ++ i.text, value.reverse ++ i.value⟩ := by
  suffices h : ∀ text' value' : List Char,
      insideFrom? (text' ++ text) (value' ++ value) cs =
        (insideFrom? text' value' cs).map
          fun i => ⟨text.reverse ++ i.text, value.reverse ++ i.value⟩ from h [] []
  intro text' value'
  fun_induction insideFrom? text' value' cs with
  | case1 => simp [insideFrom?]
  | case2 => simp [insideFrom?]
  | case3 => simp [insideFrom?]
  | case4 text' value' c rest ih => simpa [insideFrom?] using ih
  | case5 text' value' c rest h1 h2 h3 ih =>
    rw [insideFrom?.eq_5 _ _ _ _ h1 h2 h3]
    exact ih

@[simp] theorem inside?_nil : inside? [] = none := rfl

@[simp] theorem inside?_quote (rest : List Char) :
    inside? ('\'' :: rest) = some ⟨['\''], []⟩ := by
  simp [inside?, insideFrom?]

@[simp] theorem inside?_backslash_nil : inside? ['\\'] = none := rfl

@[simp] theorem inside?_backslash_cons (c : Char) (rest : List Char) :
    inside? ('\\' :: c :: rest) =
      (inside? rest).map fun i => ⟨'\\' :: c :: i.text, c :: i.value⟩ := by
  rw [inside?, insideFrom?, insideFrom?_eq_map]
  simp

theorem inside?_cons {c : Char} (rest : List Char) (hquote : c ≠ '\'') (hslash : c ≠ '\\') :
    inside? (c :: rest) = (inside? rest).map fun i => ⟨c :: i.text, c :: i.value⟩ := by
  rw [inside?, insideFrom?, insideFrom?_eq_map]
  · simp
  · simpa using hquote
  · simp [hslash]
  · simp [hslash]

/-- What was read of a literal is how the text starts. -/
theorem exists_append_of_inside? {cs : List Char} {i : Inside} (h : inside? cs = some i) :
    ∃ rest, cs = i.text ++ rest := by
  suffices hfrom : ∀ text value, insideFrom? text value cs = some i →
      ∃ rest, text.reverse ++ cs = i.text ++ rest from hfrom [] [] h
  clear h
  intro text value h
  fun_induction insideFrom? text value cs with
  | case1 => simp at h
  | case2 text value rest =>
    obtain rfl := Option.some.inj h
    exact ⟨rest, by simp⟩
  | case3 => simp at h
  | case4 text value c rest ih =>
    obtain ⟨rest', h'⟩ := ih h
    exact ⟨rest', by simpa using h'⟩
  | case5 text value c rest _ _ _ ih =>
    obtain ⟨rest', h'⟩ := ih h
    exact ⟨rest', by simpa using h'⟩

end Literal

end TreeGrammar
