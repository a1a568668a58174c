import TreeGrammar.Proofs.Occurrences
import TreeGrammar.Proofs.Viability

/-! # Definitions in another order

    Tokens may be cut into definitions in one way only, and the definitions
    may be put into any other order: nodes and tokens are numbered anew, and
    nothing else changes.

    Key idea:
    - each piece of a cut is derived on its own, and permuted pieces have a
      permuted derivation (`Derivation.Pieces.exists_perm`);
    - whether names are defined, once each, does not depend on the order of
      definitions (`Coherent.perm`), nor does the rule of a name, once names
      are put in place of handles (`Coherent.resolvedRule?_perm`);
    - definitions are refused for an undefined node exactly if they are
      nested and named as they should be without being coherent
      (`ofTokens_undefined_iff`), which their order does not change either.
-/

namespace TreeGrammar

/-! ### Cuts -/

/-- Some tokens, cut into definitions. -/
structure CutInto (tokens : List Token) (pieces : List (List Token)) : Prop where
  /-- The pieces make up the tokens. -/
  flatten : pieces.flatten = tokens
  /-- Each piece is a name, `=` and a rule. -/
  definition : ∀ piece ∈ pieces, ∃ d : Definition, d.symbols = symbolsOf piece

/-- The tokens of each definition of a derivation. -/
def Derivation.Pieces (D : Derivation) (pieces : List (List Token)) : Prop :=
  List.Forall₂ (fun d piece => d.symbols = symbolsOf piece) D pieces

section Cut

variable {tokens : List Token} {pieces others : List (List Token)} {D : Derivation}

namespace Derivation

theorem Pieces.symbols_eq (h : D.Pieces pieces) : D.symbols = symbolsOf pieces.flatten := by
  induction h with
  | nil => rfl
  | cons hd _ ih => rw [symbols_cons, List.flatten_cons, symbolsOf_append, hd, ih]

theorem Pieces.cutInto (h : D.Pieces pieces) : CutInto pieces.flatten pieces := by
  refine ⟨rfl, ?_⟩
  induction h with
  | nil => exact List.forall_mem_nil _
  | cons hd _ ih => exact List.forall_mem_cons.2 ⟨⟨_, hd⟩, ih⟩

/-- The tokens of a derivation fall into the pieces of its definitions. -/
theorem exists_pieces (h : D.symbols = symbolsOf tokens) :
    ∃ pieces, D.Pieces pieces ∧ pieces.flatten = tokens := by
  induction D generalizing tokens with
  | nil =>
    obtain rfl : tokens = [] := List.map_eq_nil_iff.1 h.symm
    exact ⟨[], .nil, rfl⟩
  | cons d D ih =>
    rw [symbols_cons] at h
    obtain ⟨piece, behind, rfl, hpiece, hbehind⟩ := List.map_eq_append_iff.1 h.symm
    obtain ⟨pieces, hpieces, rfl⟩ := ih hbehind.symm
    exact ⟨piece :: pieces, .cons hpiece.symm hpieces, rfl⟩

/-- Definitions in a row are a derivation. -/
theorem exists_of_pieces (h : ∀ piece ∈ pieces, ∃ d : Definition, d.symbols = symbolsOf piece) :
    ∃ D : Derivation, D.Pieces pieces := by
  induction pieces with
  | nil => exact ⟨[], .nil⟩
  | cons piece pieces ih =>
    obtain ⟨⟨d, hd⟩, hpieces⟩ := List.forall_mem_cons.1 h
    obtain ⟨D, hD⟩ := ih hpieces
    exact ⟨d :: D, .cons hd hD⟩

/-- One derivation has one list of pieces. -/
theorem Pieces.eq_of_flatten (h : D.Pieces pieces) (h' : D.Pieces others)
    (hflatten : pieces.flatten = others.flatten) : pieces = others := by
  induction h generalizing others with
  | nil =>
    cases h'
    rfl
  | @cons d piece D pieces hd _ ih =>
    cases h' with
    | @cons _ piece' _ others hd' hothers =>
      -- A piece has as many tokens as its definition has symbols.
      have hlength : piece.length = piece'.length := by
        have hsymbols := congrArg List.length (hd.symm.trans hd')
        simpa [symbolsOf] using hsymbols
      obtain ⟨rfl, hbehind⟩ := List.append_inj hflatten hlength
      rw [ih hothers hbehind]

/-- Permuted pieces are those of the permuted definitions. -/
theorem Pieces.exists_perm (h : D.Pieces pieces) (hperm : others.Perm pieces) :
    ∃ D' : Derivation, D'.Perm D ∧ D'.Pieces others := by
  obtain ⟨D', hothers, hD'⟩ := List.perm_comp_forall₂ hperm h.flip
  exact ⟨D', hD', hothers.flip⟩

end Derivation

/-- The definitions of a cut are those of a derivation. -/
theorem CutInto.exists_derivation (h : CutInto tokens pieces) :
    ∃ D : Derivation, D.Pieces pieces ∧ D.symbols = symbolsOf tokens := by
  obtain ⟨D, hD⟩ := Derivation.exists_of_pieces h.definition
  exact ⟨D, hD, h.flatten ▸ hD.symbols_eq⟩

/-- Tokens are cut into definitions in one way. -/
theorem CutInto.unique (h : CutInto tokens pieces) (h' : CutInto tokens others) :
    others = pieces := by
  obtain ⟨D, hD, hsymbols⟩ := h.exists_derivation
  obtain ⟨D', hD', hsymbols'⟩ := h'.exists_derivation
  obtain rfl : D' = D := Derivation.unambiguous (hsymbols'.trans hsymbols.symm)
  exact hD'.eq_of_flatten hD (h'.flatten.trans h.flatten.symm)

end Cut

/-! ### Permuted entries -/

namespace Grammar

/-- The rule of the first node with a name, with names in place of handles. A handle out of range
    has no name. -/
def resolvedRule? (g : Grammar) (name : String) : Option (Rule (Option String) (Option String)) :=
  ((g.findNode? name).bind g.node?).map fun node => g.resolved node.rule

section Perm

variable {entries others : List (String × NamedRule)}

theorem Coherent.resolvedRule?_of_mem (h : Coherent entries) {entry : String × NamedRule}
    (hentry : entry ∈ entries) :
    (ofEntries entries).resolvedRule? entry.1 = some (entry.2.map some some) := by
  have hname : entry.1 ∈ entryNames entries := h.mem_entryNames_iff.2 (List.mem_map_of_mem hentry)
  rw [resolvedRule?, h.findNode?_eq hname, Option.bind_some, h.node?_ofEntries hentry,
    Option.map_some, h.resolved_handled hentry]

theorem Coherent.resolvedRule?_of_not_mem (h : Coherent entries) {name : String}
    (hname : name ∉ entries.map Prod.fst) : (ofEntries entries).resolvedRule? name = none := by
  have hfind : (ofEntries entries).findNode? name = none := by
    rw [findNode?, Option.map_eq_none_iff, List.findIdx?_eq_none_iff]
    intro node hnode
    have hmem : node.name ∈ entryNames entries := by
      rw [← h.names_ofEntries]
      exact List.mem_map_of_mem hnode
    have hne : node.name ≠ name := by
      rintro rfl
      exact hname (h.mem_entryNames_iff.1 hmem)
    exact decide_eq_false hne
  rw [resolvedRule?, hfind]
  rfl

theorem Coherent.perm (h : Coherent entries) (hperm : others.Perm entries) : Coherent others where
  distinct := (hperm.map _).nodup_iff.2 h.distinct
  closed entry hentry name hname :=
    (hperm.map _).mem_iff.2 (h.closed entry (hperm.mem_iff.1 hentry) name hname)

/-- Permuted entries have the same names. -/
theorem Coherent.perm_names (h : Coherent entries) (hperm : others.Perm entries) :
    ((ofEntries others).nodes.map Node.name).Perm ((ofEntries entries).nodes.map Node.name) :=
  (h.perm hperm).perm_names_ofEntries.trans
    ((hperm.map Prod.fst).trans h.perm_names_ofEntries.symm)

/-- Permuted entries have the same tokens. -/
theorem perm_tokens (hperm : others.Perm entries) :
    (ofEntries others).tokens.Perm (ofEntries entries).tokens := by
  have hnodup : ∀ entries, (entryTokens entries).Nodup :=
    fun _ => nodup_seeAll List.nodup_nil _
  refine (List.perm_ext_iff_of_nodup (hnodup others) (hnodup entries)).2 fun name => ?_
  rw [mem_entryTokens_iff, mem_entryTokens_iff]
  simp only [hperm.mem_iff]

/-- In permuted entries each name has the same rule. -/
theorem Coherent.resolvedRule?_perm (h : Coherent entries) (hperm : others.Perm entries)
    (name : String) :
    (ofEntries others).resolvedRule? name = (ofEntries entries).resolvedRule? name := by
  have h' := h.perm hperm
  by_cases hname : name ∈ entries.map Prod.fst
  · obtain ⟨entry, hentry, rfl⟩ := List.mem_map.1 hname
    rw [h'.resolvedRule?_of_mem (hperm.mem_iff.2 hentry), h.resolvedRule?_of_mem hentry]
  · have hname' : name ∉ others.map Prod.fst := mt (hperm.map _).mem_iff.1 hname
    rw [h'.resolvedRule?_of_not_mem hname', h.resolvedRule?_of_not_mem hname]

end Perm

end Grammar

/-- Definitions in another order are as good as before. -/
theorem Derivation.Admissible.perm {D D' : Derivation} (h : D.Admissible) (hperm : D'.Perm D) :
    D'.Admissible := by
  obtain ⟨hshallow, hcoherent⟩ := Derivation.admissible_iff.1 h
  refine Derivation.admissible_iff.2 ⟨fun d hd => hshallow d (hperm.mem_iff.1 hd), ?_⟩
  exact hcoherent.perm (hperm.map _)

/-! ### Undefined nodes -/

namespace Stepwise

/-- No node is found to be undefined before all definitions are read. -/
theorem ne_undefined_of_verdict {stop : Nat} {tokens : List Token} {e : SyntaxError}
    (h : verdict (ReadM.definitions stop ⟨tokens, {}⟩) = .error e) (name : String) (span : Span) :
    e ≠ .undefinedNode name span := by
  rw [verdict_definitions, except_bind_eq_error_iff] at h
  rintro rfl
  rcases h with hrun | ⟨c, -, hfinish⟩
  · -- No step refuses a name for want of a definition.
    obtain ⟨before, t, behind, c, -, -, hstep⟩ := exists_refused_of_run hrun
    cases (refuses_of_step hstep).isRefusal
  · rcases missing_of_finish hfinish with ⟨expected, heq⟩ | ⟨node, place, heq⟩ <;> cases heq

end Stepwise

namespace Grammar

open Stepwise

variable {tokens : List Token} {D : Derivation}

/-- Definitions are refused for an undefined node exactly if they are not nested too deeply and no
    name is defined twice, but some name is not defined. -/
theorem ofTokens_undefined_iff (hsymbols : D.symbols = symbolsOf tokens) :
    (∃ name span, ofTokens tokens = .error (.undefinedNode name span)) ↔
      (∀ d ∈ D, d.body.nesting ≤ maxNesting) ∧ (D.entries.map Prod.fst).Nodup ∧
        ¬ Coherent D.entries := by
  rw [ofTokens_eq_verdict]
  constructor
  · rintro ⟨name, span, h⟩
    rw [except_bind_eq_error_iff] at h
    rcases h with hverdict | ⟨d, hverdict, hcomplete⟩
    · exact absurd rfl (ne_undefined_of_verdict hverdict name span)
    cases hread : ReadM.definitions (stopOf tokens) ⟨tokens, {}⟩ with
    | error e s =>
      rw [hread] at hverdict
      cases hverdict
    | ok item s =>
      rw [hread] at hverdict
      obtain rfl := Except.ok.inj hverdict
      obtain ⟨hshallow, hdistinct, hholds⟩ := ReadM.holds_of_definitions hsymbols hread
      refine ⟨hshallow, hdistinct, fun hcoherent => ?_⟩
      rw [(hholds.complete_eq_ok_iff hdistinct).2 ⟨hcoherent, rfl⟩] at hcomplete
      cases hcomplete
  · rintro ⟨hshallow, hdistinct, hincoherent⟩
    obtain ⟨s, hread⟩ := ReadM.definitions_complete (stopOf tokens) Draft.holds_empty
      hsymbols.symm hshallow hdistinct
    obtain ⟨-, -, hholds⟩ := ReadM.holds_of_definitions hsymbols hread
    rw [hread]
    show ∃ name span, s.draft.complete = .error (.undefinedNode name span)
    cases hcomplete : s.draft.complete with
    | ok g => exact absurd ((hholds.complete_eq_ok_iff hdistinct).1 hcomplete).1 hincoherent
    | error e =>
      obtain ⟨name, span, rfl⟩ := Draft.undefined_of_complete hcomplete
      exact ⟨name, span, rfl⟩

/-! ### Permuted tokens -/

section Perm

variable {pieces others : List (List Token)}

/-- Definitions that are accepted are accepted in any other order, with the same names, tokens
    and rules. -/
theorem ofTokens_flatten_perm {g : Grammar} (hcut : CutInto tokens pieces)
    (h : ofTokens tokens = .ok g) (hperm : others.Perm pieces) :
    ∃ g', ofTokens others.flatten = .ok g' ∧
      (g'.nodes.map Node.name).Perm (g.nodes.map Node.name) ∧ g'.tokens.Perm g.tokens ∧
      ∀ name, g'.resolvedRule? name = g.resolvedRule? name := by
  obtain ⟨D, hpieces, hsymbols⟩ := hcut.exists_derivation
  obtain ⟨D', hsymbols', hadmissible, rfl⟩ := ofTokens_eq_ok_iff.1 h
  obtain rfl : D' = D := Derivation.unambiguous (hsymbols'.trans hsymbols.symm)
  obtain ⟨E, hE, hothers⟩ := hpieces.exists_perm hperm
  have hcoherent := (Derivation.admissible_iff.1 hadmissible).2
  have hentries : E.entries.Perm D'.entries := hE.map _
  refine ⟨ofEntries E.entries,
    ofTokens_eq_ok_iff.2 ⟨E, hothers.symbols_eq, hadmissible.perm hE, rfl⟩, ?_⟩
  exact ⟨hcoherent.perm_names hentries, perm_tokens hentries, hcoherent.resolvedRule?_perm hentries⟩

/-- Definitions that are refused for an undefined node are refused for one in any other order. -/
theorem undefined_flatten_perm (hcut : CutInto tokens pieces) {name : String} {span : Span}
    (h : ofTokens tokens = .error (.undefinedNode name span)) (hperm : others.Perm pieces) :
    ∃ name' span', ofTokens others.flatten = .error (.undefinedNode name' span') := by
  obtain ⟨D, hpieces, hsymbols⟩ := hcut.exists_derivation
  obtain ⟨hshallow, hdistinct, hincoherent⟩ := (ofTokens_undefined_iff hsymbols).1 ⟨name, span, h⟩
  obtain ⟨E, hE, hothers⟩ := hpieces.exists_perm hperm
  have hentries : E.entries.Perm D.entries := hE.map _
  refine (ofTokens_undefined_iff hothers.symbols_eq).2 ⟨?_, ?_, ?_⟩
  · exact fun d hd => hshallow d (hE.mem_iff.1 hd)
  · exact (hentries.map _).nodup_iff.2 hdistinct
  · exact fun hcoherent => hincoherent (hcoherent.perm hentries.symm)

end Perm

/-- Tokens that are accepted are cut into definitions in exactly one way. Put together in any
    other order, the definitions are accepted, and the grammar has the same names, the same tokens
    and the same rule for each name, with names in place of handles. Definitions that are refused
    for an undefined node are refused for one in any other order. -/
theorem definitions_reordered (tokens : List Token) :
    (∀ g, ofTokens tokens = .ok g → ∃ pieces, CutInto tokens pieces ∧
      (∀ others, CutInto tokens others → others = pieces) ∧
      ∀ others : List (List Token), others.Perm pieces →
        ∃ g', ofTokens others.flatten = .ok g' ∧
          (g'.nodes.map Node.name).Perm (g.nodes.map Node.name) ∧ g'.tokens.Perm g.tokens ∧
          ∀ name, g'.resolvedRule? name = g.resolvedRule? name) ∧
    ∀ pieces, CutInto tokens pieces →
      ∀ name span, ofTokens tokens = .error (.undefinedNode name span) →
        ∀ others : List (List Token), others.Perm pieces →
          ∃ name' span', ofTokens others.flatten = .error (.undefinedNode name' span') := by
  refine ⟨fun g h => ?_, fun pieces hcut name span h others => undefined_flatten_perm hcut h⟩
  obtain ⟨D, hsymbols, -, -⟩ := ofTokens_eq_ok_iff.1 h
  obtain ⟨pieces, hpieces, rfl⟩ := Derivation.exists_pieces hsymbols
  have hcut := hpieces.cutInto
  exact ⟨pieces, hcut, fun others => hcut.unique, fun others => ofTokens_flatten_perm hcut h⟩

/-- A reference forward becomes one backward, and `B` is missing before and behind. -/
theorem definitions_reordered_forward :
    let a := (Scan.ofText "A = B 'x'").tokens
    let b := (Scan.ofText "B = 'y' A").tokens
    let c := (Scan.ofText "C = A").tokens
    let g : Grammar := ⟨[⟨"A", .seq [.node ⟨1⟩, .token ⟨0⟩]⟩, ⟨"B", .seq [.token ⟨1⟩, .node ⟨0⟩]⟩],
      ["x", "y"], [⟨0⟩, ⟨1⟩]⟩
    (CutInto (a ++ b) [a, b] ∧ ofTokens (a ++ b) = .ok g ∧
      ∃ g', ofTokens (b ++ a) = .ok g' ∧ (g'.nodes.map Node.name).Perm ["A", "B"] ∧
        g'.tokens.Perm ["x", "y"] ∧
        g'.resolvedRule? "A" = some (.seq [.node (some "B"), .token (some "x")])) ∧
    CutInto (a ++ c) [a, c] ∧
      ofTokens (a ++ c) = .error (.undefinedNode "B" (.ofLength 4 1)) ∧
      ∃ name span, ofTokens (c ++ a) = .error (.undefinedNode name span) := by
  intro a b c g
  have ha : ∃ d : Definition, d.symbols = symbolsOf a := by
    refine ⟨⟨"A", .last (.more (.bare (.node "B")) (.last (.bare (.token "x"))))⟩, ?_⟩
    simp only [a]
    cbv
  have hb : ∃ d : Definition, d.symbols = symbolsOf b := by
    refine ⟨⟨"B", .last (.more (.bare (.token "y")) (.last (.bare (.node "A"))))⟩, ?_⟩
    simp only [b]
    cbv
  have hc : ∃ d : Definition, d.symbols = symbolsOf c := by
    refine ⟨⟨"C", .last (.last (.bare (.node "A")))⟩, ?_⟩
    simp only [c]
    cbv
  have hab : CutInto (a ++ b) [a, b] :=
    ⟨by simp, List.forall_mem_cons.2 ⟨ha, List.forall_mem_singleton.2 hb⟩⟩
  have hac : CutInto (a ++ c) [a, c] :=
    ⟨by simp, List.forall_mem_cons.2 ⟨ha, List.forall_mem_singleton.2 hc⟩⟩
  have hread : ofTokens (a ++ b) = .ok g := by
    simp only [a, b]
    cbv
  have hundefined : ofTokens (a ++ c) = .error (.undefinedNode "B" (.ofLength 4 1)) := by
    simp only [a, c]
    cbv
  have hrule : g.resolvedRule? "A" = some (.seq [.node (some "B"), .token (some "x")]) := by cbv
  refine ⟨⟨hab, hread, ?_⟩, hac, hundefined, ?_⟩
  · obtain ⟨pieces, -, hunique, hperm⟩ := (definitions_reordered (a ++ b)).1 g hread
    obtain rfl := hunique _ hab
    obtain ⟨g', hread', hnames, htokens, hrules⟩ := hperm [b, a] (.swap a b [])
    rw [List.flatten_cons, List.flatten_singleton] at hread'
    exact ⟨g', hread', hnames, htokens, (hrules "A").trans hrule⟩
  · obtain ⟨name, span, herror⟩ :=
      (definitions_reordered (a ++ c)).2 [a, c] hac "B" _ hundefined [c, a] (.swap a c [])
    rw [List.flatten_cons, List.flatten_singleton] at herror
    exact ⟨name, span, herror⟩

end Grammar

end TreeGrammar
