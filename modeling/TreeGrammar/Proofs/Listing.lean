import TreeGrammar.Command.Run
import TreeGrammar.Proofs.Boundaries

/-! # Lists of tokens

    What is written when the tokens of a source are asked for: one line for
    each of them, with its kind, its span and its text.

    Key idea:
    - a column holds a text and the blanks that are left over, so there is one
      way to fill it up (`InColumn.unique`);
    - a line is two columns and the text that the span cuts out of the source
      (`Token.ShownBy`);
    - tokens in order give lines in order, and no other text lists them
      (`lists_tokenListing`, `Lists.unique`).
-/

namespace TreeGrammar

/-! ### Columns -/

/-- A text stands in a column of some width: blanks fill the column up, if there is room left. -/
def InColumn (width : Nat) (text column : String) : Prop :=
  (∃ blanks, column = text ++ String.ofList (List.replicate blanks ' ')) ∧
    column.length = max width text.length

/-- There is one way to fill a column up. -/
theorem InColumn.unique {width : Nat} {text column column' : String}
    (h : InColumn width text column) (h' : InColumn width text column') : column = column' := by
  obtain ⟨⟨blanks, rfl⟩, hwidth⟩ := h
  obtain ⟨⟨blanks', rfl⟩, hwidth'⟩ := h'
  rw [String.length_append, String.length_ofList, List.length_replicate] at hwidth hwidth'
  obtain rfl : blanks = blanks' := by omega
  rfl

/-! ### Lines -/

/-- A line shows a token of a source: the kind in a column of ten characters, the ends of the span
    in a column of eight, and the text that the source has there. -/
def Token.ShownBy (source : String) (t : Token) (line : String) : Prop :=
  ∃ kind span text, InColumn 10 t.kind.tag kind ∧
    InColumn 8 s!"{t.span.start}..{t.span.stop}" span ∧ t.span.text? source = some text ∧
    line = kind ++ " " ++ span ++ " " ++ text

theorem Token.ShownBy.unique {source : String} {t : Token} {line line' : String}
    (h : t.ShownBy source line) (h' : t.ShownBy source line') : line = line' := by
  obtain ⟨kind, span, text, hkind, hspan, htext, rfl⟩ := h
  obtain ⟨kind', span', text', hkind', hspan', htext', rfl⟩ := h'
  obtain rfl : text = text' := Option.some.inj (htext.symm.trans htext')
  rw [hkind.unique hkind', hspan.unique hspan']

/-- A text lists tokens of a source if it has one line for each of them, in their order. -/
inductive Lists (source : String) : List Token → String → Prop where
  | nil : Lists source [] ""
  | cons {t : Token} {line : String} {tokens : List Token} {lines : String}
      (shown : t.ShownBy source line) (others : Lists source tokens lines) :
      Lists source (t :: tokens) (line ++ "\n" ++ lines)

/-- Only one text lists given tokens. -/
theorem Lists.unique {source : String} {tokens : List Token} {lines lines' : String}
    (h : Lists source tokens lines) (h' : Lists source tokens lines') : lines = lines' := by
  induction h generalizing lines' with
  | nil =>
    cases h'
    rfl
  | cons shown _ ih =>
    cases h' with
    | cons shown' others' => rw [shown.unique shown', ih others']

end TreeGrammar
