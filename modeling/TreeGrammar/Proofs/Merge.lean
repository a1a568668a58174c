import TreeGrammar.Proofs.Heads
import TreeGrammar.Proofs.Loadable
import TreeGrammar.Proofs.Seam

/-! # Grammars one after the other

    The texts of two grammars, one after the other, are a text of the merged
    grammar, if no node has a definition in both.

    Key idea:
    - the nodes of the second grammar come behind those of the first, and its
      tokens are looked up by name, since both may have the same
      (`Grammar.merge`);
    - the merged grammar is the one of both lists of entries
      (`Coherent.ofEntries_append`), and the tokens of both texts derive these;
    - if a node has two definitions, the first head in the second text that
      the first grammar knows is to blame.
-/

namespace TreeGrammar

/-! ### Tables one after the other -/

/-- Names that are not in a table come behind it as they would come to an empty one. -/
theorem seeAll_of_disjoint {table names : List String} (h : ∀ name ∈ names, name ∉ table) :
    seeAll table names = table ++ seeAll [] names := by
  rw [seeAll_eq_append, seeAll_nil_left]
  congr 2
  apply List.filter_eq_self.2
  intro name hname
  simpa using h name hname

/-- First occurrences of the names that are left are what is left of the first occurrences. -/
theorem eraseDups_filter {names : List String} (p : String → Bool) :
    (names.filter p).eraseDups = names.eraseDups.filter p := by
  -- On the length, since erasing a name takes more than the head off.
  induction hlength : names.length using Nat.strongRecOn generalizing names with
  | ind length ih =>
    cases names with
    | nil => rfl
    | cons name names =>
      have hle := List.length_filter_le (fun other => !other == name) names
      rw [List.length_cons] at hlength
      have hrest : ((names.filter fun other => !other == name).filter p).eraseDups =
          (names.filter fun other => !other == name).eraseDups.filter p :=
        ih _ (by omega) rfl
      rw [List.filter_filter] at hrest
      rw [List.eraseDups_cons]
      by_cases hname : p name = true
      · rw [List.filter_cons_of_pos hname, List.filter_cons_of_pos hname, List.eraseDups_cons,
          List.filter_filter, ← hrest]
        congr 3
        funext other
        exact Bool.and_comm _ _
      · -- The name itself is not left, so nothing more of it has to go.
        rw [List.filter_cons_of_neg hname, List.filter_cons_of_neg hname, ← hrest]
        congr 1
        apply List.filter_congr
        intro other _
        by_cases hother : other = name
        · simp [hother, hname]
        · simp [hother]

/-- A table with several more names, of which those that it has are left out. -/
theorem seeAll_eq_append_filter (table names : List String) :
    seeAll table names = table ++ (seeAll [] names).filter (· ∉ table) := by
  rw [seeAll_eq_append, seeAll_nil_left, ← eraseDups_filter]
  congr 2
  apply List.filter_congr
  intro name _
  simp

/-! ### Merged grammars -/

/-- The handle of a node with so many more nodes in front of it. -/
def NodeId.shift (distance : Nat) (id : NodeId) : NodeId :=
  ⟨id.index + distance⟩

namespace Grammar

/-- The tokens of two grammars, those of the second behind the first unless it has them. -/
def mergedTokens (g h : Grammar) : List String :=
  g.tokens ++ h.tokens.filter (· ∉ g.tokens)

/-- A rule of the second grammar, with the handles that its nodes and tokens have when they come
    behind those of the first. -/
def moved (g h : Grammar) (rule : HandleRule) : HandleRule :=
  rule.map (NodeId.shift g.nodes.length) fun id =>
    tokenHandle (mergedTokens g h) (h.tokenName id)

/-- Two grammars, one behind the other. -/
def merge (g h : Grammar) : Grammar where
  nodes := g.nodes ++ h.nodes.map fun node => ⟨node.name, g.moved h node.rule⟩
  tokens := mergedTokens g h
  definitions := g.definitions ++ h.definitions.map (NodeId.shift g.nodes.length)

section Entries

variable {entries others : List (String × NamedRule)}

theorem Coherent.append (h : Coherent entries) (h' : Coherent others)
    (hdisjoint : ∀ name ∈ others.map Prod.fst, name ∉ entries.map Prod.fst) :
    Coherent (entries ++ others) where
  distinct := by
    rw [List.map_append, List.nodup_append]
    refine ⟨h.distinct, h'.distinct, ?_⟩
    rintro name hname _ hname' rfl
    exact hdisjoint name hname' hname
  closed := by
    intro entry hentry name hname
    rw [List.map_append, List.mem_append]
    rcases List.mem_append.1 hentry with hmem | hmem
    · exact .inl (h.closed entry hmem name hname)
    · exact .inr (h'.closed entry hmem name hname)

theorem entryNames_append (h : Coherent entries) (h' : Coherent others)
    (hdisjoint : ∀ name ∈ others.map Prod.fst, name ∉ entries.map Prod.fst) :
    entryNames (entries ++ others) = entryNames entries ++ entryNames others := by
  rw [entryNames, List.flatMap_append, seeAll_append]
  -- Closed entries mention no name that only the others define.
  apply seeAll_of_disjoint
  intro name hname hknown
  have hother : name ∈ entryNames others := mem_seeAll_iff.2 (.inr hname)
  exact hdisjoint name (h'.mem_entryNames_iff.1 hother) (h.mem_entryNames_iff.1 hknown)

theorem entryTokens_append (entries others : List (String × NamedRule)) :
    entryTokens (entries ++ others) = mergedTokens (ofEntries entries) (ofEntries others) := by
  rw [entryTokens, List.flatMap_append, seeAll_append, seeAll_eq_append_filter]
  rfl

/-- Rules of the first entries keep their handles. -/
theorem handled_append_left {entry : String × NamedRule} (hentry : entry ∈ entries)
    (others : List (String × NamedRule)) :
    handled (entries ++ others) entry.2 = handled entries entry.2 := by
  have hnames : entryNames entries <+: entryNames (entries ++ others) := by
    rw [entryNames, entryNames, List.flatMap_append, seeAll_append]
    exact prefix_seeAll _ _
  have htokens : entryTokens entries <+: entryTokens (entries ++ others) := by
    rw [entryTokens, entryTokens, List.flatMap_append, seeAll_append]
    exact prefix_seeAll _ _
  apply Rule.map_congr
  intro leaf hleaf
  cases leaf with
  | inl name =>
    have hname : name ∈ entryNames entries :=
      mem_entryNames_iff.2 ⟨entry, hentry, .inr (Rule.mem_nodeLeaves_iff.2 hleaf)⟩
    exact congrArg Sum.inl (nodeHandle_eq_of_isPrefix hnames hname)
  | inr text =>
    have htext : text ∈ entryTokens entries :=
      mem_entryTokens_iff.2 ⟨entry, hentry, Rule.mem_tokenLeaves_iff.2 hleaf⟩
    exact congrArg Sum.inr (tokenHandle_eq_of_isPrefix htokens htext)

/-- Rules of the other entries get the handles behind those of the first. -/
theorem handled_append_right (h : Coherent entries) (h' : Coherent others)
    (hdisjoint : ∀ name ∈ others.map Prod.fst, name ∉ entries.map Prod.fst)
    {entry : String × NamedRule} (hentry : entry ∈ others) :
    handled (entries ++ others) entry.2 =
      (ofEntries entries).moved (ofEntries others) (handled others entry.2) := by
  have hlength := h.length_nodes_ofEntries
  rw [moved, handled, handled, Rule.map_map, entryNames_append h h' hdisjoint,
    entryTokens_append, hlength]
  apply Rule.map_congr
  intro leaf hleaf
  cases leaf with
  | inl name =>
    have hname : name ∉ entryNames entries := fun hknown =>
      hdisjoint name (h'.closed entry hentry name (Rule.mem_nodeLeaves_iff.2 hleaf))
        (h.mem_entryNames_iff.1 hknown)
    simp [nodeHandle, NodeId.shift, List.idxOf_append_of_notMem hname, Nat.add_comm]
  | inr text =>
    -- A token may be one of the first grammar too, so its handle is found by its name.
    have htext : text ∈ entryTokens others :=
      mem_entryTokens_iff.2 ⟨entry, hentry, Rule.mem_tokenLeaves_iff.2 hleaf⟩
    simp [tokenName, token?_ofEntries htext]

/-- The grammar of both lists of entries is the merged grammar. -/
theorem Coherent.ofEntries_append (h : Coherent entries) (h' : Coherent others)
    (hdisjoint : ∀ name ∈ others.map Prod.fst, name ∉ entries.map Prod.fst) :
    ofEntries (entries ++ others) = (ofEntries entries).merge (ofEntries others) := by
  have hboth := h.append h' hdisjoint
  have hnames := entryNames_append h h' hdisjoint
  have hlength := h.length_nodes_ofEntries
  -- A node of either grammar has an entry, and the rule of the entry has the right handles.
  have hrule : ∀ {entries' : List (String × NamedRule)}, Coherent entries' →
      entries' ⊆ entries ++ others → ∀ name ∈ entryNames entries', ∃ entry ∈ entries',
        (entries ++ others).lookup name = some entry.2 ∧ entries'.lookup name = some entry.2 := by
    intro entries' hcoherent hsub name hname
    obtain ⟨entry, hentry, rfl⟩ := List.mem_map.1 (hcoherent.mem_entryNames_iff.1 hname)
    exact ⟨entry, hentry, lookup_eq_some_of_mem hboth.distinct (hsub hentry),
      lookup_eq_some_of_mem hcoherent.distinct hentry⟩
  have hnodes : (ofEntries (entries ++ others)).nodes =
      ((ofEntries entries).merge (ofEntries others)).nodes := by
    rw [hboth.nodes_ofEntries, hnames, List.map_append]
    show _ = (ofEntries entries).nodes ++ (ofEntries others).nodes.map _
    congr 1
    · rw [h.nodes_ofEntries]
      apply List.map_congr_left
      intro name hname
      obtain ⟨entry, hentry, hlookup, hlookup'⟩ :=
        hrule h (List.subset_append_left _ _) name hname
      rw [hlookup, hlookup', Option.getD_some, handled_append_left hentry]
    · rw [h'.nodes_ofEntries, List.map_map]
      apply List.map_congr_left
      intro name hname
      obtain ⟨entry, hentry, hlookup, hlookup'⟩ :=
        hrule h' (List.subset_append_right _ _) name hname
      rw [hlookup, Function.comp, hlookup', Option.getD_some,
        handled_append_right h h' hdisjoint hentry]
  have hdefinitions : (ofEntries (entries ++ others)).definitions =
      ((ofEntries entries).merge (ofEntries others)).definitions := by
    show (entries ++ others).map _ = entries.map _ ++ (others.map _).map _
    rw [List.map_append, hnames, List.map_map]
    congr 1
    · apply List.map_congr_left
      intro entry hentry
      have hname : entry.1 ∈ entryNames entries :=
        h.mem_entryNames_iff.2 (List.mem_map_of_mem hentry)
      exact nodeHandle_eq_of_isPrefix (List.prefix_append _ _) hname
    · apply List.map_congr_left
      intro entry hentry
      have hname : entry.1 ∉ entryNames entries := fun hknown =>
        hdisjoint entry.1 (List.mem_map_of_mem hentry) (h.mem_entryNames_iff.1 hknown)
      simp [nodeHandle, NodeId.shift, List.idxOf_append_of_notMem hname, hlength, Nat.add_comm]
  exact congr (congr (congrArg Grammar.mk hnodes) (entryTokens_append entries others)) hdefinitions

end Entries

/-! ### Tokens one after the other -/

section Tokens

variable {tokens others : List Token} {g h : Grammar}

/-- The nodes of a grammar are the heads of the definitions. -/
theorem Coherent.mem_names_iff {D : Derivation} (hcoherent : Coherent D.entries) {name : String} :
    name ∈ (ofEntries D.entries).nodes.map Node.name ↔ name ∈ D.map Definition.head := by
  rw [hcoherent.names_ofEntries, hcoherent.mem_entryNames_iff, D.map_fst_entries]

/-- Definitions of different nodes, one after the other, define them all. -/
theorem ofTokens_append_of_disjoint (hread : ofTokens tokens = .ok g)
    (hread' : ofTokens others = .ok h)
    (hdisjoint : ∀ node ∈ h.nodes, node.name ∉ g.nodes.map Node.name) :
    ofTokens (tokens ++ others) = .ok (g.merge h) := by
  obtain ⟨D, hsymbols, hadmissible, rfl⟩ := ofTokens_eq_ok_iff.1 hread
  obtain ⟨E, hsymbols', hadmissible', rfl⟩ := ofTokens_eq_ok_iff.1 hread'
  obtain ⟨hshallow, hcoherent⟩ := Derivation.admissible_iff.1 hadmissible
  obtain ⟨hshallow', hcoherent'⟩ := Derivation.admissible_iff.1 hadmissible'
  have hnames : ∀ name ∈ E.entries.map Prod.fst, name ∉ D.entries.map Prod.fst := by
    intro name hname
    rw [E.map_fst_entries, ← hcoherent'.mem_names_iff] at hname
    obtain ⟨node, hnode, rfl⟩ := List.mem_map.1 hname
    rw [D.map_fst_entries, ← hcoherent.mem_names_iff]
    exact hdisjoint node hnode
  have hentries : Derivation.entries (D ++ E) = D.entries ++ E.entries := List.map_append
  refine ofTokens_eq_ok_iff.2 ⟨D ++ E, ?_, Derivation.admissible_iff.2 ⟨?_, ?_⟩, ?_⟩
  · rw [symbolsOf_append, ← hsymbols, ← hsymbols']
    exact List.flatMap_append
  · intro d hd
    rcases List.mem_append.1 hd with hmem | hmem
    · exact hshallow d hmem
    · exact hshallow' d hmem
  · rw [hentries]
    exact hcoherent.append hcoherent' hnames
  · rw [hentries, hcoherent.ofEntries_append hcoherent' hnames]

/-- The heads among the tokens of a grammar are its nodes in the order of their definitions. -/
theorem map_text_headsOf (hread : ofTokens tokens = .ok g) :
    (headsOf tokens).map Token.text = g.definitions.map g.nodeName := by
  obtain ⟨D, hsymbols, hadmissible, rfl⟩ := ofTokens_eq_ok_iff.1 hread
  have hcoherent := (Derivation.admissible_iff.1 hadmissible).2
  have hnames : (ofEntries D.entries).definitions.map (ofEntries D.entries).nodeName =
      D.entries.map Prod.fst := by
    show (D.entries.map _).map _ = _
    rw [List.map_map]
    apply List.map_congr_left
    intro entry hentry
    exact nodeName_of_node? (hcoherent.node?_ofEntries hentry)
  rw [Derivation.map_text_headsOf hsymbols.symm, hnames, D.map_fst_entries]

/-- Some head of the second tokens is a node of the first grammar if both have a node of the same
    name. -/
theorem exists_shared_head (hread' : ofTokens others = .ok h)
    (hshared : ∃ node ∈ h.nodes, node.name ∈ g.nodes.map Node.name) :
    ∃ head, (headsOf others).find? (fun t => t.text ∈ g.nodes.map Node.name) = some head := by
  obtain ⟨E, hsymbols', hadmissible', rfl⟩ := ofTokens_eq_ok_iff.1 hread'
  have hcoherent' := (Derivation.admissible_iff.1 hadmissible').2
  obtain ⟨node, hnode, hknown⟩ := hshared
  have hname := hcoherent'.mem_names_iff.1 (List.mem_map_of_mem hnode)
  rw [← Derivation.map_text_headsOf hsymbols'.symm] at hname
  obtain ⟨t, ht, htext⟩ := List.mem_map.1 hname
  apply Option.isSome_iff_exists.1
  exact List.find?_isSome.2 ⟨t, ht, by simpa [htext] using hknown⟩

/-- The first head of the second tokens that is a node of the first grammar is refused. -/
theorem ofTokens_append_of_shared (hread : ofTokens tokens = .ok g)
    (hread' : ofTokens others = .ok h) {head : Token}
    (hhead : (headsOf others).find? (fun t => t.text ∈ g.nodes.map Node.name) = some head) :
    ofTokens (tokens ++ others) = .error (.duplicateNode head.text head.span) := by
  have hknown : head.text ∈ g.nodes.map Node.name := by
    simpa using List.find?_some hhead
  obtain ⟨D, hsymbols, hadmissible, rfl⟩ := ofTokens_eq_ok_iff.1 hread
  obtain ⟨E, hsymbols', hadmissible', rfl⟩ := ofTokens_eq_ok_iff.1 hread'
  have hcoherent := (Derivation.admissible_iff.1 hadmissible).2
  rw [hcoherent.mem_names_iff] at hknown
  obtain ⟨E₁, E₂, before, equals, behind, rfl, rfl, hbefore, hkind, hequals, hnone⟩ :=
    Derivation.exists_before_head (p := fun name =>
      name ∈ (ofEntries D.entries).nodes.map Node.name) hsymbols'.symm hhead
  -- Up to this head, no name is defined twice.
  have hdistinct : ((D ++ E₁).map Definition.head).Nodup := by
    have hall := hadmissible'.distinct
    rw [List.map_append] at hall
    rw [List.map_append, List.nodup_append]
    refine ⟨hadmissible.distinct, (List.nodup_append.1 hall).1, ?_⟩
    rintro name hname _ hname' rfl
    obtain ⟨d, hd, rfl⟩ := List.mem_map.1 hname'
    have hnot := hnone d hd
    rw [decide_eq_false_iff_not, hcoherent.mem_names_iff] at hnot
    exact hnot hname
  have hsymbols₁ : symbolsOf (tokens ++ before) = Derivation.symbols (D ++ E₁) := by
    rw [symbolsOf_append, ← hsymbols, hbefore]
    exact List.flatMap_append.symm
  rw [← List.append_assoc]
  refine Stepwise.ofTokens_second_definition hsymbols₁ ?_ hdistinct hkind hequals ?_ behind
  · intro d hd
    rcases List.mem_append.1 hd with hmem | hmem
    · exact hadmissible.shallow d hmem
    · exact hadmissible'.shallow d (List.mem_append_left _ hmem)
  · rw [List.map_append]
    exact List.mem_append_left _ hknown

end Tokens

/-! ### Texts -/

/-- The same tokens at another place are read as the same grammar. -/
theorem ofTokens_shiftAll {tokens : List Token} {g : Grammar} (h : ofTokens tokens = .ok g)
    (distance : Nat) : ofTokens (shiftAll distance tokens) = .ok g := by
  rw [ofTokens_eq_ok_iff, symbolsOf_shiftAll]
  exact ofTokens_eq_ok_iff.1 h

/-- The text of a grammar, a line end and the text of another grammar are a text of the merged
    grammar, unless both have a node of the same name. Otherwise the error is at the first head in
    the second text that is a node of the first grammar. -/
theorem ofText_append {a b : String} {g h : Grammar} (ha : ofText a = .ok g)
    (hb : ofText b = .ok h) :
    ((∀ node ∈ h.nodes, node.name ∉ g.nodes.map Node.name) →
      ofText (a ++ "\n" ++ b) = .ok (g.merge h)) ∧
    ((∃ node ∈ h.nodes, node.name ∈ g.nodes.map Node.name) →
      ∃ tokens head, tokensOf .strict b = .ok tokens ∧
        (headsOf tokens).map Token.text = h.definitions.map h.nodeName ∧
        (headsOf tokens).find? (fun t => t.text ∈ g.nodes.map Node.name) = some head ∧
        ofText (a ++ "\n" ++ b) = .error (.structural
          (.duplicateNode head.text (head.span.shift (byteLength a.toList + 1))))) := by
  obtain ⟨tokens, htokens, hread⟩ := load_eq_ok_iff.1 ha
  obtain ⟨others, hothers, hread'⟩ := load_eq_ok_iff.1 hb
  have hmoved := ofTokens_shiftAll hread' (byteLength a.toList + 1)
  have hload : ofText (a ++ "\n" ++ b) = _ := load_of_tokensOf (tokensOf_append htokens hothers)
  constructor
  · intro hdisjoint
    rw [hload, ofTokens_append_of_disjoint hread hmoved hdisjoint]
    rfl
  · intro hshared
    obtain ⟨head, hhead⟩ := exists_shared_head hread' hshared
    refine ⟨others, head, hothers, map_text_headsOf hread', hhead, ?_⟩
    have hheadMoved : (headsOf (shiftAll (byteLength a.toList + 1) others)).find?
        (fun t => t.text ∈ g.nodes.map Node.name) =
          some (head.shift (byteLength a.toList + 1)) := by
      rw [headsOf_shiftAll, shiftAll, List.find?_map]
      exact congrArg (Option.map _) hhead
    rw [hload, ofTokens_append_of_shared hread hmoved hheadMoved]
    rfl

/-- A text that ends inside a comment, with a text that uses a token of it, and with itself. -/
theorem ofText_append_comment :
    let a := "A = 'x' A? // no rule follows"
    let b := "B = 'y' ('x' | B)"
    ofText (a ++ "\n" ++ b) = .ok
      ⟨[⟨"A", .seq [.token ⟨0⟩, .opt (.node ⟨0⟩)]⟩,
        ⟨"B", .seq [.token ⟨1⟩, .alt [.token ⟨0⟩, .node ⟨1⟩]]⟩], ["x", "y"], [⟨0⟩, ⟨1⟩]⟩ ∧
    ∃ head : Token, ofText (a ++ "\n" ++ a) = .error (.structural
      (.duplicateNode head.text (head.span.shift 30))) := by
  have ha : ofText "A = 'x' A? // no rule follows" =
      .ok ⟨[⟨"A", .seq [.token ⟨0⟩, .opt (.node ⟨0⟩)]⟩], ["x"], [⟨0⟩]⟩ := by cbv
  have hb : ofText "B = 'y' ('x' | B)" =
      .ok ⟨[⟨"B", .seq [.token ⟨0⟩, .alt [.token ⟨1⟩, .node ⟨0⟩]]⟩], ["y", "x"], [⟨0⟩]⟩ := by cbv
  refine ⟨?_, ?_⟩
  · rw [(ofText_append ha hb).1 (by decide)]
    decide
  · obtain ⟨_, head, -, -, -, herror⟩ := (ofText_append ha ha).2 (by decide)
    exact ⟨head, herror⟩

end Grammar

end TreeGrammar
