import Mathlib
import TreeGrammar.Grammar.Load
import TreeGrammar.Proofs.Acceptance
import TreeGrammar.Proofs.CanonicalText

/-! # The round trip

    A grammar that was loaded from a text is loaded again from its canonical
    text, with the same handles, tables and order of definitions.

    Key idea:
    - a grammar is settled by the entries of its derivation, and the
      canonical derivation has the same entries (`Derivation.entries_ofEntries`);
    - it is admissible since it is nested no more deeply and mentions the same
      names (`Derivation.Admissible.canonical`);
    - the names of a scanned text are names, so the canonical text is scanned
      as the canonical derivation.
-/

namespace TreeGrammar

/-! ### Canonical derivations -/

/-- The names and rules of a derivation can be written down if its symbols can. -/
theorem Derivation.legible {D : Derivation} (h : NamesIn D.symbols) :
    ∀ entry ∈ D.entries, IsName entry.1 ∧ Rule.Legible entry.2 := by
  intro entry hentry
  obtain ⟨d, hd, rfl⟩ := List.mem_map.1 hentry
  have hsymbols : NamesIn d.symbols := fun name hname =>
    h name (List.mem_flatMap.2 ⟨d, hd, hname⟩)
  refine ⟨hsymbols d.head (by simp [Definition.symbols]), d.body.legible_tree ?_⟩
  exact NamesIn.tail (NamesIn.tail hsymbols)

/-- The canonical derivation of some entries is a derivation of these entries. -/
theorem Derivation.entries_ofEntries {entries : List (String × NamedRule)}
    (h : ∀ entry ∈ entries, Rule.Legible entry.2) : (ofEntries entries).entries = entries := by
  rw [Derivation.entries, ofEntries, List.map_map]
  calc entries.map _ = entries.map id := by
        apply List.map_congr_left
        intro entry hentry
        exact Prod.ext rfl (h entry hentry).derives_forms.choice
    _ = entries := List.map_id entries

/-- The canonical derivation describes a grammar whenever the derivation does. -/
theorem Derivation.Admissible.canonical {D : Derivation} (h : D.Admissible)
    (hlegible : ∀ entry ∈ D.entries, Rule.Legible entry.2) :
    (Derivation.ofEntries D.entries).Admissible := by
  obtain ⟨hshallow, hcoherent⟩ := Derivation.admissible_iff.1 h
  refine Derivation.admissible_iff.2 ⟨?_, ?_⟩
  · intro d' hd'
    obtain ⟨entry, hentry, rfl⟩ := List.mem_map.1 hd'
    obtain ⟨d, hd, rfl⟩ := List.mem_map.1 hentry
    exact Nat.le_trans d.body.nesting_forms_le (hshallow d hd)
  · rw [Derivation.entries_ofEntries hlegible]
    exact hcoherent

/-! ### Loading -/

/-- The names of a scanned text are names. -/
theorem namesIn_scan (c : Cursor) : NamesIn (symbolsOf (Scan.ofCursor c).tokens) := by
  intro name hname
  obtain ⟨t, ht, hsymbol⟩ := List.mem_map.1 hname
  obtain ⟨hkind, rfl⟩ := Token.symbol_eq_name_iff.1 hsymbol
  obtain ⟨text, hspelling⟩ := Scan.exists_spelling ht
  rw [hkind] at hspelling
  generalize hvalue : t.value = value at hspelling
  cases hspelling with
  | mark hmark => exact absurd rfl (Lexeme.ne_of_ofMark? hmark).1
  | name hne hall =>
    rw [Token.text, hvalue, Option.getD_some]
    refine ⟨?_, ?_⟩ <;> rw [String.toList_ofList] <;> assumption

namespace Grammar

/-- A text that is made of tokens is loaded by reading these. -/
theorem load_of_tokensOf {strictness : Strictness} {source : String} {tokens : List Token}
    (h : tokensOf strictness source = .ok tokens) :
    load strictness source = (ofTokens tokens).mapError .structural := by
  rw [load, loadLogged, h]
  rfl

/-- A text is loaded by cutting it into tokens and reading these. -/
theorem load_eq_ok_iff {strictness : Strictness} {source : String} {g : Grammar} :
    load strictness source = .ok g ↔
      ∃ tokens, tokensOf strictness source = .ok tokens ∧ ofTokens tokens = .ok g := by
  rw [load, loadLogged]
  cases htokens : tokensOf strictness source with
  | error e => simp
  | ok tokens =>
    simp only [Except.ok.injEq, exists_eq_left']
    rw [ofTokens]
    cases (readTokens tokens).1 with
    | error e => simp [Except.mapError]
    | ok g' => simp [Except.mapError]

/-- Strict or not, what is read are the tokens of the scan. -/
theorem tokens_of_tokensOf {strictness : Strictness} {source : String} {tokens : List Token}
    (h : tokensOf strictness source = .ok tokens) : (Scan.ofText source).tokens = tokens := by
  cases strictness with
  | lenient => exact Except.ok.inj h
  | strict => exact (Scan.complete_eq_ok_iff.1 h).2

/-- The tokens of the canonical text of legible entries have the symbols of their canonical
    derivation. -/
theorem tokensOf_definitionTexts {entries : List (String × NamedRule)}
    (h : ∀ entry ∈ entries, IsName entry.1 ∧ Rule.Legible entry.2) :
    ∃ tokens, symbolsOf tokens = (Derivation.ofEntries entries).symbols ∧
      tokensOf .strict
        ("\n".intercalate (entries.map fun entry => definitionText entry.1 entry.2)) =
          .ok tokens := by
  have hnothing : EndsName [] := by
    intro c hc
    simp at hc
  obtain ⟨tokens, hsymbols, hscan⟩ := prints_definitionTexts h [] hnothing 0
  refine ⟨tokens, hsymbols, Scan.complete_eq_ok_iff.2 ?_⟩
  rw [List.append_nil, Scan.ofCursor_final (.closed .nil)] at hscan
  rw [Scan.ofText, Cursor.ofText, hscan]
  exact ⟨rfl, List.append_nil tokens⟩

/-- The canonical text of a grammar that was loaded from any text, strictly or not, is loaded as
    the same grammar. -/
theorem ofText_canonicalText {strictness : Strictness} {source : String} {g : Grammar}
    (h : load strictness source = .ok g) : ofText g.canonicalText = .ok g := by
  obtain ⟨tokens, htokens, hread⟩ := load_eq_ok_iff.1 h
  obtain ⟨D, hsymbols, hadmissible, rfl⟩ := ofTokens_eq_ok_iff.1 hread
  have hnames : NamesIn D.symbols := by
    rw [hsymbols, ← tokens_of_tokensOf htokens]
    exact namesIn_scan _
  have hlegible := Derivation.legible hnames
  have hcoherent := (Derivation.admissible_iff.1 hadmissible).2
  -- The text shows the entries, whatever handles the grammar has given to them.
  have htext : (ofEntries D.entries).canonicalText =
      "\n".intercalate (D.entries.map fun entry => definitionText entry.1 entry.2) := by
    conv => rhs; rw [← hcoherent.named_definedNodes_ofEntries]
    rw [canonicalText, List.map_map]
    rfl
  obtain ⟨tokens', hsymbols', htokens'⟩ := tokensOf_definitionTexts hlegible
  refine load_eq_ok_iff.2 ⟨tokens', ?_, ofTokens_eq_ok_iff.2 ?_⟩
  · rw [htext]
    exact htokens'
  · have hrules : ∀ entry ∈ D.entries, Rule.Legible entry.2 := fun entry hentry =>
      (hlegible entry hentry).2
    refine ⟨Derivation.ofEntries D.entries, hsymbols'.symm, hadmissible.canonical hrules, ?_⟩
    rw [Derivation.entries_ofEntries hrules]

/-- The round trip for a text whose tokens stop at a fault, with more parentheses than needed and
    with a node that is used before it is defined. -/
theorem ofText_canonicalText_of_fault :
    ∃ g, load .lenient "A = l:((B | '\\'') A)? B = ('x') ~" = .ok g ∧
      ofText g.canonicalText = .ok g := by
  have hload : load .lenient "A = l:((B | '\\'') A)? B = ('x') ~" =
      .ok ⟨[⟨"A", .labeled "l" (.opt (.seq [.alt [.node ⟨1⟩, .token ⟨0⟩], .node ⟨0⟩]))⟩,
        ⟨"B", .token ⟨1⟩⟩], ["'", "x"], [⟨0⟩, ⟨1⟩]⟩ := by cbv
  exact ⟨_, hload, ofText_canonicalText hload⟩

end Grammar

end TreeGrammar
