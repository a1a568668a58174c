import TreeGrammar.Proofs.Completeness

/-! # What is accepted

    Tokens are accepted exactly if their symbols have an admissible
    derivation, and then the grammar is the one of the derivation.

    Key idea:
    - one definition prolongs what the draft holds by one entry
      (`definition_sound`), and a definition that may come next is read
      (`definition_complete`);
    - definitions in a row follow by induction, and the draft at the end
      decides about the names (`Draft.Holds.complete_eq_ok_iff`);
    - `Grammar.ofTokens_eq_ok_iff` is what later modules use.
-/

namespace TreeGrammar

/-- A derivation describes a grammar: it is not nested too deeply, and every name that is used
    has one definition. -/
structure Derivation.Admissible (D : Derivation) : Prop where
  /-- Never too many parentheses and labels are open. -/
  shallow : ∀ d ∈ D, d.body.nesting ≤ maxNesting
  /-- No name is defined twice. -/
  distinct : (D.map Definition.head).Nodup
  /-- Every name that is referred to is defined. -/
  closed : ∀ d ∈ D, ∀ name ∈ d.body.references, name ∈ D.map Definition.head

theorem Derivation.map_fst_entries (D : Derivation) :
    D.entries.map Prod.fst = D.map Definition.head := by
  rw [entries, List.map_map]
  rfl

theorem Derivation.admissible_iff {D : Derivation} :
    D.Admissible ↔ (∀ d ∈ D, d.body.nesting ≤ maxNesting) ∧ Grammar.Coherent D.entries := by
  constructor
  · intro h
    refine ⟨h.shallow, ?_, ?_⟩
    · rw [D.map_fst_entries]
      exact h.distinct
    · intro entry hentry name hname
      obtain ⟨d, hd, rfl⟩ := List.mem_map.1 hentry
      rw [d.body.nodeLeaves_tree] at hname
      rw [D.map_fst_entries]
      exact h.closed d hd name hname
  · intro h
    obtain ⟨hshallow, hdistinct, hclosed⟩ := h
    rw [D.map_fst_entries] at hdistinct hclosed
    refine ⟨hshallow, hdistinct, ?_⟩
    intro d hd name hname
    rw [← d.body.nodeLeaves_tree] at hname
    exact hclosed _ (List.mem_map_of_mem hd) name hname

namespace ReadM

/-! ### One definition -/

section Definition

variable {tokens : List Token} {d : Draft} {s' : ReadState}

/-- A definition is a name that has none yet, `=` and a rule. -/
theorem definition_eq_ok_iff {stop : Nat} :
    definition stop ⟨tokens, d⟩ = .ok () s' ↔
      ∃ t u rest, tokens = t :: u :: rest ∧ t.kind = .name ∧ u.kind = .equals ∧
        d.isDefined t.text = false ∧
        ∃ body s, rule ⟨t.text, stop⟩ (atom? ⟨t.text, stop⟩ maxNesting)
            ⟨rest, (d.internNode t.text t.span).2⟩ = .ok body s ∧
          s' = ⟨s.rest, s.draft.define (d.internNode t.text t.span).1 t.text body⟩ := by
  -- Entering the name does not define it, so it does not matter when this is looked at.
  have hdefined : ∀ t : Token, (d.internNode t.text t.span).2.isDefined t.text =
      d.isDefined t.text := fun t => (d.grows_internNode t.text t.span).isDefined_eq t.text
  rw [definition, bind_eq_ok_iff]
  constructor
  · intro h
    obtain ⟨t, s, hname, h⟩ := h
    obtain ⟨htokens, hkind, hdraft⟩ := expect_eq_ok_iff.1 hname
    obtain ⟨id, s₁, hintern, h⟩ := bind_eq_ok_iff.1 h
    obtain ⟨rfl, rfl⟩ := EStateM.Result.ok.inj hintern
    obtain ⟨u, s₂, hequals, h⟩ := bind_eq_ok_iff.1 h
    obtain ⟨hrest, hkind', hdraft'⟩ := expect_eq_ok_iff.1 hequals
    obtain ⟨_, s₃, hnew, h⟩ := bind_eq_ok_iff.1 h
    obtain ⟨body, s₄, hbody, hdefine⟩ := bind_eq_ok_iff.1 h
    obtain ⟨rest, draft⟩ := s
    obtain ⟨rest₂, draft₂⟩ := s₂
    obtain rfl : draft = d := hdraft
    obtain rfl : draft₂ = (draft.internNode t.text t.span).2 := hdraft'
    obtain rfl : rest = u :: rest₂ := hrest
    unfold checkNew at hnew
    split at hnew
    · simp at hnew
    · rename_i hnot
      obtain ⟨-, rfl⟩ := EStateM.Result.ok.inj hnew
      rw [hdefined, Bool.not_eq_true] at hnot
      exact ⟨t, u, rest₂, htokens, hkind, hkind', hnot, body, s₄, hbody,
        (EStateM.Result.ok.inj hdefine).2.symm⟩
  · intro h
    obtain ⟨t, u, rest, rfl, hkind, hkind', hnew, body, s, hbody, rfl⟩ := h
    refine ⟨t, ⟨u :: rest, d⟩, expect_eq_ok_iff.2 ⟨rfl, hkind, rfl⟩, ?_⟩
    refine bind_eq_ok_iff.2 ⟨_, ⟨u :: rest, (d.internNode t.text t.span).2⟩, rfl, ?_⟩
    refine bind_eq_ok_iff.2 ⟨u, ⟨rest, (d.internNode t.text t.span).2⟩,
      expect_eq_ok_iff.2 ⟨rfl, hkind', rfl⟩, ?_⟩
    refine bind_eq_ok_iff.2 ⟨(), ⟨rest, (d.internNode t.text t.span).2⟩, ?_, ?_⟩
    · rw [checkNew, hdefined, hnew]
      rfl
    · exact bind_eq_ok_iff.2 ⟨body, s, hbody, rfl⟩

/-- A definition takes tokens. -/
theorem length_lt_of_definition {stop : Nat} (h : definition stop ⟨tokens, d⟩ = .ok () s') :
    s'.rest.length < tokens.length := by
  obtain ⟨t, u, rest, rfl, -, -, -, body, s, hbody, rfl⟩ := definition_eq_ok_iff.1 h
  obtain ⟨c, -, hreads⟩ := rule_sound (atom?_sound _ _) hbody
  have hlength := congrArg List.length hreads.consumed
  simp only [symbolsOf, List.length_map, List.length_append] at hlength
  simp only [List.length_cons]
  omega

/-- What was read as a definition is one, and the draft holds one more entry. -/
theorem definition_sound {stop : Nat} {entries : List (String × NamedRule)}
    (hholds : d.Holds entries) (h : definition stop ⟨tokens, d⟩ = .ok () s') :
    ∃ D : Definition, D.body.nesting ≤ maxNesting ∧ D.head ∉ entries.map Prod.fst ∧
      symbolsOf tokens = D.symbols ++ symbolsOf s'.rest ∧
      s'.draft.Holds (entries ++ [(D.head, D.body.tree)]) := by
  obtain ⟨t, u, rest, rfl, hkind, hkind', hnew, body, s, hbody, rfl⟩ :=
    definition_eq_ok_iff.1 h
  obtain ⟨c, hc, hreads⟩ := rule_sound (atom?_sound _ _) hbody
  have hhead : t.text ∉ entries.map Prod.fst := by
    rw [← hholds.isDefined_iff, hnew]
    simp
  refine ⟨⟨t.text, c⟩, hc, hhead, ?_, hholds.define t.span hhead hreads.built⟩
  have ht : t.symbol = .name t.text := Token.symbol_eq_name_iff.2 ⟨hkind, rfl⟩
  have hu : u.symbol = .mark .equals :=
    (Token.symbol_eq_mark_iff (by decide) (by decide)).2 hkind'
  rw [symbolsOf_cons, symbolsOf_cons, ht, hu, hreads.consumed]
  rfl

/-- A definition of a new name is read. -/
theorem definition_complete (stop : Nat) {entries : List (String × NamedRule)}
    (hholds : d.Holds entries) {D : Definition} (hshallow : D.body.nesting ≤ maxNesting)
    (hnew : D.head ∉ entries.map Prod.fst) {behind : List Symbol} (hend : EndsChoice behind)
    (htokens : symbolsOf tokens = D.symbols ++ behind) :
    ∃ s', definition stop ⟨tokens, d⟩ = .ok () s' ∧ symbolsOf s'.rest = behind ∧
      s'.draft.Holds (entries ++ [(D.head, D.body.tree)]) := by
  obtain ⟨t, rest, rfl, ht, hrest⟩ := symbolsOf_eq_cons_iff.1 htokens
  obtain ⟨u, rest, rfl, hu, hrest⟩ := symbolsOf_eq_cons_iff.1 hrest
  obtain ⟨hkind, htext⟩ := Token.symbol_eq_name_iff.1 ht
  rw [Token.symbol_eq_mark_iff (by decide) (by decide)] at hu
  obtain ⟨body, rest', d', hbody, hbehind⟩ :=
    takes_choice ⟨t.text, stop⟩ D.body hshallow hend rest (d.internNode t.text t.span).2 hrest
  have hundefined : d.isDefined t.text = false := by
    rw [← Bool.not_eq_true, hholds.isDefined_iff, htext]
    exact hnew
  have hread : definition stop ⟨t :: u :: rest, d⟩ =
      .ok () ⟨rest', d'.define (d.internNode t.text t.span).1 t.text body⟩ :=
    definition_eq_ok_iff.2 ⟨t, u, rest, rfl, hkind, hu, hundefined, body, ⟨rest', d'⟩, hbody, rfl⟩
  refine ⟨_, hread, hbehind, ?_⟩
  -- Soundness knows what was built, and it can have been built of this body only.
  obtain ⟨D', -, -, hsymbols, hholds'⟩ := definition_sound hholds hread
  rw [htokens, hbehind] at hsymbols
  obtain ⟨head, choice⟩ := D
  obtain ⟨head', choice'⟩ := D'
  simp only [Definition.symbols, List.cons_append, List.cons.injEq, Symbol.name.injEq,
    true_and] at hsymbols
  obtain ⟨rfl, hchoice⟩ := hsymbols
  obtain ⟨rfl, -⟩ := Choice.unambiguous hend hend hchoice
  exact hholds'

end Definition

/-! ### Definitions in a row -/

theorem definitionsWithin_eq (stop : Nat) {bound bound' : List Token} {s : ReadState}
    (hbound : s.rest.length ≤ bound.length) (hbound' : s.rest.length ≤ bound'.length) :
    definitionsWithin stop bound s = definitionsWithin stop bound' s := by
  induction bound generalizing bound' s with
  | nil =>
    obtain ⟨rest, draft⟩ := s
    obtain rfl : rest = [] := List.length_eq_zero_iff.1 (Nat.le_zero.1 hbound)
    cases bound' <;> simp [definitionsWithin]
  | cons t bound ih =>
    cases bound' with
    | nil =>
      obtain ⟨rest, draft⟩ := s
      obtain rfl : rest = [] := List.length_eq_zero_iff.1 (Nat.le_zero.1 hbound')
      simp [definitionsWithin]
    | cons t' bound' =>
      simp only [definitionsWithin, bind, EStateM.bind]
      cases hdefinition : definition stop s with
      | error e s' => rfl
      | ok item s' =>
        have hlt := length_lt_of_definition hdefinition
        simp only [List.length_cons] at hbound hbound'
        split
        · rfl
        · exact ih (by omega) (by omega)

/-- What the reader of definitions does: it reads one, unless there are no more tokens, and goes
    on. -/
theorem definitions_cons (stop : Nat) (t : Token) (tokens : List Token) (d : Draft) :
    definitions stop ⟨t :: tokens, d⟩ =
      (definition stop >>= fun _ => definitions stop : ReadM Unit) ⟨t :: tokens, d⟩ := by
  rw [definitions, definitionsWithin]
  simp only [List.isEmpty_cons, Bool.false_eq_true, if_false, bind, EStateM.bind]
  cases hdefinition : definition stop ⟨t :: tokens, d⟩ with
  | error e s' => rfl
  | ok item s' =>
    have hlt := length_lt_of_definition hdefinition
    simp only [List.length_cons] at hlt
    exact definitionsWithin_eq stop (Nat.le_of_lt_succ hlt) (Nat.le_refl _)

/-- What was read as definitions is a derivation, and the draft holds its entries. -/
theorem definitions_sound {stop : Nat} {tokens : List Token} {d : Draft} {s' : ReadState}
    {entries : List (String × NamedRule)} (hholds : d.Holds entries)
    (hdistinct : (entries.map Prod.fst).Nodup)
    (h : definitions stop ⟨tokens, d⟩ = .ok () s') :
    ∃ D : Derivation, D.symbols = symbolsOf tokens ∧
      (∀ definition ∈ D, definition.body.nesting ≤ maxNesting) ∧
      ((entries ++ D.entries).map Prod.fst).Nodup ∧ s'.draft.Holds (entries ++ D.entries) := by
  -- By induction on the number of tokens, since a definition takes some of them.
  induction hlength : tokens.length using Nat.strongRecOn generalizing tokens d entries with
  | ind length ih =>
    cases tokens with
    | nil =>
      obtain ⟨-, rfl⟩ := EStateM.Result.ok.inj h
      refine ⟨[], rfl, by simp, ?_, ?_⟩
      · simpa [Derivation.entries] using hdistinct
      · simpa [Derivation.entries] using hholds
    | cons t tokens =>
      rw [definitions_cons, bind_eq_ok_iff] at h
      obtain ⟨_, s, hfirst, h⟩ := h
      have hlt := length_lt_of_definition hfirst
      obtain ⟨first, hshallow, hnew, hsymbols, hholds'⟩ := definition_sound hholds hfirst
      have hdistinct' : ((entries ++ [(first.head, first.body.tree)]).map Prod.fst).Nodup := by
        rw [List.map_append, List.nodup_append]
        refine ⟨hdistinct, by simp, ?_⟩
        rintro name hname name' hname' rfl
        obtain rfl : name = first.head := by simpa using hname'
        exact hnew hname
      obtain ⟨D, hD, hshallows, hnodup, hall⟩ :=
        ih s.rest.length (hlength ▸ hlt) hholds' hdistinct' h rfl
      refine ⟨first :: D, ?_, List.forall_mem_cons.2 ⟨hshallow, hshallows⟩, ?_, ?_⟩
      · rw [Derivation.symbols_cons, hD, hsymbols]
      · simpa [Derivation.entries] using hnodup
      · simpa [Derivation.entries] using hall

/-- A derivation is read if its names are new. -/
theorem definitions_complete (stop : Nat) {tokens : List Token} {d : Draft}
    {entries : List (String × NamedRule)} (hholds : d.Holds entries) {D : Derivation}
    (htokens : symbolsOf tokens = D.symbols)
    (hshallow : ∀ definition ∈ D, definition.body.nesting ≤ maxNesting)
    (hdistinct : ((entries ++ D.entries).map Prod.fst).Nodup) :
    ∃ s', definitions stop ⟨tokens, d⟩ = .ok () s' := by
  induction D generalizing tokens d entries with
  | nil =>
    obtain rfl : tokens = [] := List.map_eq_nil_iff.1 htokens
    exact ⟨⟨[], d⟩, rfl⟩
  | cons first D ih =>
    rw [List.forall_mem_cons] at hshallow
    -- The first definition moves from the derivation to what the draft holds.
    have hentries : entries ++ Derivation.entries (first :: D) =
        entries ++ [(first.head, first.body.tree)] ++ Derivation.entries D := by
      simp [Derivation.entries]
    rw [hentries] at hdistinct
    have hnew : first.head ∉ entries.map Prod.fst := by
      rw [List.map_append, List.map_append] at hdistinct
      have := (List.nodup_append.1 hdistinct).1
      intro hmem
      exact (List.nodup_append.1 this).2.2 _ hmem first.head (by simp) rfl
    obtain ⟨s, hread, hrest, hholds'⟩ :=
      definition_complete stop hholds hshallow.1 hnew (endsChoice_symbols D) htokens
    obtain ⟨s', hread'⟩ := ih hholds' hrest hshallow.2 hdistinct
    cases tokens with
    | nil => simp [Definition.symbols] at htokens
    | cons t tokens =>
      exact ⟨s', by rw [definitions_cons]; exact bind_eq_ok_iff.2 ⟨(), s, hread, hread'⟩⟩

/-- The draft that was read from the tokens of a derivation holds the entries of this derivation,
    since the tokens have no other one. -/
theorem holds_of_definitions {stop : Nat} {tokens : List Token} {s : ReadState} {D : Derivation}
    (hsymbols : D.symbols = symbolsOf tokens) (h : definitions stop ⟨tokens, {}⟩ = .ok () s) :
    (∀ d ∈ D, d.body.nesting ≤ maxNesting) ∧ (D.entries.map Prod.fst).Nodup ∧
      s.draft.Holds D.entries := by
  obtain ⟨D', hsymbols', hshallow, hdistinct, hholds⟩ :=
    definitions_sound Draft.holds_empty List.nodup_nil h
  obtain rfl : D = D' := Derivation.unambiguous (hsymbols.trans hsymbols'.symm)
  exact ⟨hshallow, hdistinct, hholds⟩

end ReadM

/-! ### Grammars -/

namespace Grammar

theorem ofTokens_eq_ok_iff_definitions {tokens : List Token} {g : Grammar} :
    ofTokens tokens = .ok g ↔
      ∃ s, ReadM.definitions (stopOf tokens) ⟨tokens, {}⟩ = .ok () s ∧ s.draft.complete = .ok g := by
  have hrun : ofTokens tokens = .ok g ↔
      ∃ s, ReadM.grammar (stopOf tokens) ⟨tokens, {}⟩ = .ok g s := by
    unfold ofTokens readTokens EStateM.run
    cases ReadM.grammar (stopOf tokens) ⟨tokens, {}⟩ with
    | ok g' s => simp
    | error e s => simp
  rw [hrun]
  constructor
  · intro h
    obtain ⟨s', h⟩ := h
    obtain ⟨_, s, hread, hfinish⟩ := ReadM.bind_eq_ok_iff.1 h
    refine ⟨s, hread, ?_⟩
    unfold ReadM.finish at hfinish
    split at hfinish
    · simp at hfinish
    · rename_i g' hcomplete
      obtain ⟨rfl, -⟩ := EStateM.Result.ok.inj hfinish
      exact hcomplete
  · intro h
    obtain ⟨s, hread, hcomplete⟩ := h
    have hfinish : ReadM.finish s = .ok g { s with
        draft.log := s.draft.log.push (.completed g.nodes.length g.tokens.length) } := by
      rw [ReadM.finish, hcomplete]
    exact ⟨_, ReadM.bind_eq_ok_iff.2 ⟨(), s, hread, hfinish⟩⟩

/-- Tokens are read as a grammar exactly if their symbols have an admissible derivation, and it is
    the grammar of the entries of this derivation. -/
theorem ofTokens_eq_ok_iff {tokens : List Token} {g : Grammar} :
    ofTokens tokens = .ok g ↔
      ∃ D : Derivation, D.symbols = symbolsOf tokens ∧ D.Admissible ∧ g = ofEntries D.entries := by
  rw [ofTokens_eq_ok_iff_definitions]
  constructor
  · intro h
    obtain ⟨s, hread, hcomplete⟩ := h
    obtain ⟨D, hsymbols, hshallow, hdistinct, hholds⟩ :=
      ReadM.definitions_sound Draft.holds_empty List.nodup_nil hread
    rw [List.nil_append] at hdistinct hholds
    obtain ⟨hcoherent, rfl⟩ := (hholds.complete_eq_ok_iff hdistinct).1 hcomplete
    exact ⟨D, hsymbols, Derivation.admissible_iff.2 ⟨hshallow, hcoherent⟩, rfl⟩
  · intro h
    obtain ⟨D, hsymbols, hadmissible, rfl⟩ := h
    obtain ⟨hshallow, hcoherent⟩ := Derivation.admissible_iff.1 hadmissible
    obtain ⟨s, hread⟩ := ReadM.definitions_complete (stopOf tokens) Draft.holds_empty
      hsymbols.symm hshallow hcoherent.distinct
    -- What the draft holds is known from soundness.
    obtain ⟨-, hdistinct, hholds⟩ := ReadM.holds_of_definitions hsymbols hread
    exact ⟨s, hread, (hholds.complete_eq_ok_iff hdistinct).2 ⟨hcoherent, rfl⟩⟩

/-- Tokens are accepted exactly if they have an admissible derivation. Then they have no other
    derivation, the nodes of the grammar are the defined names, and the rule of each is the tree
    of its derivation, with handles in place of names that all are in range. -/
theorem accepts_exactly_derivable (tokens : List Token) :
    ((∃ g, ofTokens tokens = .ok g) ↔
      ∃ D : Derivation, D.symbols = symbolsOf tokens ∧ D.Admissible) ∧
    ∀ g, ofTokens tokens = .ok g →
      ∃ D : Derivation, D.symbols = symbolsOf tokens ∧
        (∀ D' : Derivation, D'.symbols = symbolsOf tokens → D' = D) ∧
        (g.nodes.map Node.name).Perm (D.map Definition.head) ∧
        ∀ d ∈ D, ∃ node ∈ g.nodes, node.name = d.head ∧
          g.named node.rule = d.body.tree ∧ g.resolved node.rule = d.body.tree.map some some := by
  constructor
  · constructor
    · intro h
      obtain ⟨g, h⟩ := h
      obtain ⟨D, hsymbols, hadmissible, -⟩ := ofTokens_eq_ok_iff.1 h
      exact ⟨D, hsymbols, hadmissible⟩
    · intro h
      obtain ⟨D, hsymbols, hadmissible⟩ := h
      exact ⟨ofEntries D.entries, ofTokens_eq_ok_iff.2 ⟨D, hsymbols, hadmissible, rfl⟩⟩
  · intro g h
    obtain ⟨D, hsymbols, hadmissible, rfl⟩ := ofTokens_eq_ok_iff.1 h
    have hcoherent := (Derivation.admissible_iff.1 hadmissible).2
    refine ⟨D, hsymbols, ?_, ?_, ?_⟩
    · intro D' hsymbols'
      exact Derivation.unambiguous (hsymbols'.trans hsymbols.symm)
    · rw [← D.map_fst_entries]
      exact hcoherent.perm_names_ofEntries
    · intro d hd
      have hentry : (d.head, d.body.tree) ∈ D.entries := List.mem_map_of_mem hd
      exact ⟨_, List.mem_of_getElem? (hcoherent.node?_ofEntries hentry), rfl,
        hcoherent.named_handled hentry, hcoherent.resolved_handled hentry⟩

end Grammar

end TreeGrammar
