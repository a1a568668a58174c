import TreeGrammar.Proofs.RoundTrip

/-! # Loadable grammars

    Not every value of the type of grammars is the grammar of a text. Those
    that are obey some conditions on their tables, on their rules and on the
    order of handles, and these conditions are enough.

    Key idea:
    - `Grammar.Canonical` lists the conditions, without the reader and
      without the canonical text;
    - `Rule.depth` counts labels and needed parentheses on the rule itself,
      and is the nesting of the canonical form (`Rule.nesting_forms`);
    - a grammar is canonical exactly if its entries are coherent and legible
      and it is the grammar of its entries (`Grammar.Canonical.eq_ofEntries`,
      `Grammar.Coherent.canonical_ofEntries`).
-/

namespace TreeGrammar

/-! ### Conditions on rules -/

namespace Rule

variable {ν τ ν' τ' : Type}

mutual

/-- The labels of a rule are names, and its sequences and choices have at least two parts. -/
def Proper : Rule ν τ → Prop
  | .node _ | .token _ => True
  | .labeled label body => IsName label ∧ Proper body
  | .seq parts => 2 ≤ parts.length ∧ ProperAll parts
  | .alt choices => 2 ≤ choices.length ∧ ProperAll choices
  | .opt body | .rep body => Proper body

/-- Several rules are proper. -/
def ProperAll : List (Rule ν τ) → Prop
  | [] => True
  | rule :: rules => Proper rule ∧ ProperAll rules

end

theorem properAll_iff {rules : List (Rule ν τ)} : ProperAll rules ↔ ∀ rule ∈ rules, Proper rule := by
  induction rules with
  | nil => simp [ProperAll]
  | cons rule rules ih => simp [ProperAll, ih]

/-- How many parentheses a rule needs around it at a place: a choice inside any other rule, a
    sequence inside a sequence, a label or a quantified rule, and a labeled or quantified rule
    inside a quantified one. -/
def parensAt (place : Place) : Rule ν τ → Nat
  | .node _ | .token _ => 0
  | .labeled _ _ | .opt _ | .rep _ => if place = .quantified then 1 else 0
  | .seq _ => if place = .part ∨ place = .labeled ∨ place = .quantified then 1 else 0
  | .alt _ => if place = .top then 0 else 1

mutual

/-- How many labels and needed parentheses are open at the deepest place inside a rule. -/
def depth : Rule ν τ → Nat
  | .node _ | .token _ => 0
  | .labeled _ body => body.parensAt .labeled + depth body + 1
  | .seq parts => depthOfAll .part parts
  | .alt choices => depthOfAll .choice choices
  | .opt body | .rep body => body.parensAt .quantified + depth body

/-- How many are open at the deepest place of several rules at places of one kind. -/
def depthOfAll (place : Place) : List (Rule ν τ) → Nat
  | [] => 0
  | rule :: rules => max (rule.parensAt place + depth rule) (depthOfAll place rules)

end

/-! ### References do not count -/

@[simp] theorem parensAt_map (f : ν → ν') (g : τ → τ') (place : Place) (rule : Rule ν τ) :
    (rule.map f g).parensAt place = rule.parensAt place := by
  cases rule <;> rfl

mutual

theorem leaves_map (f : ν → ν') (g : τ → τ') : ∀ rule : Rule ν τ,
    (rule.map f g).leaves = rule.leaves.map (Sum.map f g)
  | .node _ => rfl
  | .token _ => rfl
  | .labeled _ body => leaves_map f g body
  | .seq parts => leavesOfAll_mapList f g parts
  | .alt choices => leavesOfAll_mapList f g choices
  | .opt body => leaves_map f g body
  | .rep body => leaves_map f g body

theorem leavesOfAll_mapList (f : ν → ν') (g : τ → τ') : ∀ rules : List (Rule ν τ),
    leavesOfAll (mapList f g rules) = (leavesOfAll rules).map (Sum.map f g)
  | [] => rfl
  | rule :: rules => by
    rw [mapList, leavesOfAll, leavesOfAll, leaves_map f g rule, leavesOfAll_mapList f g rules,
      List.map_append]

end

theorem nodeLeaves_map (f : ν → ν') (g : τ → τ') (rule : Rule ν τ) :
    (rule.map f g).nodeLeaves = rule.nodeLeaves.map f := by
  rw [nodeLeaves, nodeLeaves, leaves_map, List.filterMap_map, List.map_filterMap]
  apply List.filterMap_congr
  intro leaf _
  cases leaf <;> rfl

theorem tokenLeaves_map (f : ν → ν') (g : τ → τ') (rule : Rule ν τ) :
    (rule.map f g).tokenLeaves = rule.tokenLeaves.map g := by
  rw [tokenLeaves, tokenLeaves, leaves_map, List.filterMap_map, List.map_filterMap]
  apply List.filterMap_congr
  intro leaf _
  cases leaf <;> rfl

mutual

theorem proper_map (f : ν → ν') (g : τ → τ') : ∀ rule : Rule ν τ,
    (rule.map f g).Proper ↔ rule.Proper
  | .node _ => Iff.rfl
  | .token _ => Iff.rfl
  | .labeled _ body => and_congr_right' (proper_map f g body)
  | .seq parts => by
    rw [map, Proper, Proper, properAll_mapList f g parts, mapList_eq_map, List.length_map]
  | .alt choices => by
    rw [map, Proper, Proper, properAll_mapList f g choices, mapList_eq_map, List.length_map]
  | .opt body => proper_map f g body
  | .rep body => proper_map f g body

theorem properAll_mapList (f : ν → ν') (g : τ → τ') : ∀ rules : List (Rule ν τ),
    ProperAll (mapList f g rules) ↔ ProperAll rules
  | [] => Iff.rfl
  | rule :: rules => and_congr (proper_map f g rule) (properAll_mapList f g rules)

end

mutual

theorem depth_map (f : ν → ν') (g : τ → τ') : ∀ rule : Rule ν τ,
    (rule.map f g).depth = rule.depth
  | .node _ => rfl
  | .token _ => rfl
  | .labeled _ body => by rw [map, depth, depth, depth_map f g body, parensAt_map]
  | .seq parts => depthOfAll_mapList f g .part parts
  | .alt choices => depthOfAll_mapList f g .choice choices
  | .opt body => by rw [map, depth, depth, depth_map f g body, parensAt_map]
  | .rep body => by rw [map, depth, depth, depth_map f g body, parensAt_map]

theorem depthOfAll_mapList (f : ν → ν') (g : τ → τ') (place : Place) :
    ∀ rules : List (Rule ν τ), depthOfAll place (mapList f g rules) = depthOfAll place rules
  | [] => rfl
  | rule :: rules => by
    rw [mapList, depthOfAll, depthOfAll, depth_map f g rule, parensAt_map,
      depthOfAll_mapList f g place rules]

end

/-! ### Legible rules and canonical forms -/

/-- What the parts of a rule refer to, the rule refers to. -/
theorem nodeLeaves_subset_of_mem {part rule : Rule ν τ} {parts : List (Rule ν τ)}
    (hrule : rule.leaves = leavesOfAll parts) (hpart : part ∈ parts) :
    part.nodeLeaves ⊆ rule.nodeLeaves := by
  intro id hid
  rw [mem_nodeLeaves_iff] at hid ⊢
  rw [hrule, leavesOfAll_eq_flatMap]
  exact List.mem_flatMap.2 ⟨part, hpart, hid⟩

mutual

/-- A rule can be written down if it is proper and refers to names only. -/
theorem legible_of_proper : ∀ rule : NamedRule, rule.Proper →
    (∀ name ∈ rule.nodeLeaves, IsName name) → Legible rule
  | .node name, _, hnames => .node (hnames name (by simp [leaves]))
  | .token text, _, _ => .token text
  | .labeled _ body, h, hnames => .labeled h.1 (legible_of_proper body h.2 hnames)
  | .seq parts, h, hnames => .seq h.1 (legible_of_properAll parts h.2 fun _ hpart name hname =>
      hnames name (nodeLeaves_subset_of_mem rfl hpart hname))
  | .alt choices, h, hnames => .alt h.1 (legible_of_properAll choices h.2 fun _ hpart name hname =>
      hnames name (nodeLeaves_subset_of_mem rfl hpart hname))
  | .opt body, h, hnames => .opt (legible_of_proper body h hnames)
  | .rep body, h, hnames => .rep (legible_of_proper body h hnames)

theorem legible_of_properAll : ∀ rules : List NamedRule, ProperAll rules →
    (∀ rule ∈ rules, ∀ name ∈ rule.nodeLeaves, IsName name) → ∀ rule ∈ rules, Legible rule
  | [], _, _ => by simp
  | rule :: rules, h, hnames => by
    rw [List.forall_mem_cons] at hnames ⊢
    exact ⟨legible_of_proper rule h.1 hnames.1, legible_of_properAll rules h.2 hnames.2⟩

end

theorem Legible.proper {rule : NamedRule} (h : Legible rule) : rule.Proper := by
  induction h with
  | node _ => trivial
  | token _ => trivial
  | labeled hlabel _ ih => exact ⟨hlabel, ih⟩
  | seq hlength _ ih => exact ⟨hlength, properAll_iff.2 ih⟩
  | alt hlength _ ih => exact ⟨hlength, properAll_iff.2 ih⟩
  | opt _ ih => exact ih
  | rep _ ih => exact ih

/-- The forms of a rule for the other places are nested as the whole rule is, with the parentheses
    that the rule needs there. -/
theorem nesting_forms_at (rule : NamedRule) :
    rule.forms.sequence.nesting = rule.parensAt .choice + rule.forms.choice.nesting ∧
      rule.forms.atom.nesting = rule.parensAt .part + rule.forms.choice.nesting ∧
      rule.forms.atom.nesting = rule.parensAt .labeled + rule.forms.choice.nesting ∧
      rule.forms.primary.nesting = rule.parensAt .quantified + rule.forms.choice.nesting := by
  cases rule <;>
    simp [parensAt, forms, Forms.ofPrimary, Forms.ofAtom, Forms.ofSequence, Forms.ofChoice,
      Primary.nesting, Atom.nesting, Sequence.nesting, Choice.nesting, Nat.add_comm]

theorem nesting_ofList_atoms {parts : List NamedRule}
    (h : ∀ part ∈ parts, part.forms.choice.nesting = part.depth) :
    (Sequence.ofList ((formsOfAll parts).map Forms.atom)).nesting = depthOfAll .part parts := by
  have hatom : ∀ part ∈ parts, part.forms.atom.nesting = part.parensAt .part + part.depth := by
    intro part hpart
    rw [(nesting_forms_at part).2.1, h part hpart]
  clear h
  induction parts with
  | nil => rfl
  | cons part parts ih =>
    rw [List.forall_mem_cons] at hatom
    rw [depthOfAll, ← ih hatom.2, ← hatom.1]
    cases parts with
    | nil => exact (Nat.max_zero _).symm
    | cons part' parts => rfl

theorem nesting_ofList_sequences {choices : List NamedRule}
    (h : ∀ choice ∈ choices, choice.forms.choice.nesting = choice.depth) :
    (Choice.ofList ((formsOfAll choices).map Forms.sequence)).nesting =
      depthOfAll .choice choices := by
  have hsequence : ∀ choice ∈ choices,
      choice.forms.sequence.nesting = choice.parensAt .choice + choice.depth := by
    intro choice hchoice
    rw [(nesting_forms_at choice).1, h choice hchoice]
  clear h
  induction choices with
  | nil => rfl
  | cons choice choices ih =>
    rw [List.forall_mem_cons] at hsequence
    rw [depthOfAll, ← ih hsequence.2, ← hsequence.1]
    cases choices with
    | nil => exact (Nat.max_zero _).symm
    | cons choice' choices => rfl

mutual

/-- The canonical form of a rule is nested as deeply as the rule says. -/
theorem nesting_forms : ∀ rule : NamedRule, rule.forms.choice.nesting = rule.depth
  | .node _ => rfl
  | .token _ => rfl
  | .labeled _ body => by
    have hbody := (nesting_forms_at body).2.2.1
    rw [nesting_forms body] at hbody
    exact congrArg Nat.succ hbody
  | .seq parts => nesting_ofList_atoms (nesting_formsOfAll parts)
  | .alt choices => nesting_ofList_sequences (nesting_formsOfAll choices)
  | .opt body => by
    have hbody := (nesting_forms_at body).2.2.2
    rwa [nesting_forms body] at hbody
  | .rep body => by
    have hbody := (nesting_forms_at body).2.2.2
    rwa [nesting_forms body] at hbody

theorem nesting_formsOfAll : ∀ rules : List NamedRule,
    ∀ rule ∈ rules, rule.forms.choice.nesting = rule.depth
  | [] => by simp
  | rule :: rules => by
    rw [List.forall_mem_cons]
    exact ⟨nesting_forms rule, nesting_formsOfAll rules⟩

end

end Rule

namespace Grammar

/-! ### Canonical grammars -/

/-- What the definitions mention, in their order: each node and then the references of its
    rule. -/
def walk (g : Grammar) : List (NodeId ⊕ TokenId) :=
  g.definedNodes.flatMap fun definition => .inl definition.1 :: definition.2.rule.leaves

/-- The nodes that the definitions mention. -/
def nodeWalk (g : Grammar) : List NodeId :=
  g.walk.filterMap Sum.getLeft?

/-- The tokens that the definitions mention. -/
def tokenWalk (g : Grammar) : List TokenId :=
  g.walk.filterMap Sum.getRight?

/-- What a grammar has to be like to be the grammar of a text. -/
structure Canonical (g : Grammar) : Prop where
  /-- No two nodes have the same name. -/
  distinctNodes : (g.nodes.map Node.name).Nodup
  /-- Nodes have names that can be written down. -/
  names : ∀ node ∈ g.nodes, IsName node.name
  /-- No token is in the table twice. -/
  distinctTokens : g.tokens.Nodup
  /-- Labels are names, and sequences and choices have two parts at least. -/
  proper : ∀ node ∈ g.nodes, node.rule.Proper
  /-- Rules refer to nodes that are there. -/
  nodesInRange : ∀ node ∈ g.nodes, ∀ id ∈ node.rule.nodeLeaves, id.index < g.nodes.length
  /-- Rules refer to tokens that are there. -/
  tokensInRange : ∀ node ∈ g.nodes, ∀ id ∈ node.rule.tokenLeaves, id.index < g.tokens.length
  /-- Every node is defined once. -/
  defined : g.definitions.Perm g.nodeIds
  /-- Nodes are numbered as the definitions first mention them. -/
  nodesFirstSeen : g.nodeWalk.eraseDups = g.nodeIds
  /-- Tokens are numbered as the definitions first mention them. -/
  tokensFirstSeen : g.tokenWalk.eraseDups = g.tokenIds
  /-- No rule needs too many labels and parentheses at one place. -/
  shallow : ∀ node ∈ g.nodes, node.rule.depth ≤ maxNesting

/-- The defined names with their rules, in the order of their definitions. -/
def entries (g : Grammar) : List (String × NamedRule) :=
  g.definedNodes.map fun definition => (definition.2.name, g.named definition.2.rule)

/-- The canonical text shows the entries, whatever their handles are. -/
theorem canonicalText_eq (g : Grammar) :
    g.canonicalText =
      "\n".intercalate (g.entries.map fun entry => definitionText entry.1 entry.2) := by
  rw [canonicalText, entries, List.map_map]
  rfl

theorem nodeWalk_eq (g : Grammar) :
    g.nodeWalk =
      g.definedNodes.flatMap fun definition => definition.1 :: definition.2.rule.nodeLeaves := by
  rw [nodeWalk, walk, List.filterMap_flatMap]
  rfl

theorem tokenWalk_eq (g : Grammar) :
    g.tokenWalk = g.definedNodes.flatMap fun definition => definition.2.rule.tokenLeaves := by
  rw [tokenWalk, walk, List.filterMap_flatMap]
  rfl

/-! ### Handles of tables without repetition -/

/-- The places of the names of a table, in order. -/
theorem map_idxOf {table : List String} (h : table.Nodup) :
    table.map (table.idxOf ·) = List.range table.length := by
  apply List.ext_getElem
  · simp
  · intro i hi _
    rw [List.getElem_map, List.getElem_range, h.idxOf_getElem]

/-- Different names of a table have different handles. -/
theorem idxOf_injOn {table : List String} {name name' : String} (hname : name ∈ table)
    (h : table.idxOf name = table.idxOf name') : name = name' :=
  (List.idxOf_inj hname).1 h

/-! ### The grammar of legible entries -/

section Coherent

variable {entries : List (String × NamedRule)}

/-- The handles of the nodes are the places of the names. -/
theorem Coherent.nodeIds_ofEntries (h : Coherent entries) :
    (ofEntries entries).nodeIds = (entryNames entries).map (nodeHandle (entryNames entries)) := by
  rw [nodeIds, h.length_nodes_ofEntries, ← map_idxOf (nodup_entryNames entries), List.map_map]
  rfl

theorem nodup_entryTokens (entries : List (String × NamedRule)) : (entryTokens entries).Nodup :=
  nodup_seeAll List.nodup_nil _

theorem tokenIds_ofEntries (entries : List (String × NamedRule)) :
    (ofEntries entries).tokenIds =
      (entryTokens entries).map (tokenHandle (entryTokens entries)) := by
  show (List.range (entryTokens entries).length).map TokenId.mk = _
  rw [← map_idxOf (nodup_entryTokens entries), List.map_map]
  rfl

/-- The nodes are mentioned as the entries mention their names. -/
theorem Coherent.nodeWalk_ofEntries (h : Coherent entries) :
    (ofEntries entries).nodeWalk =
      (entries.flatMap fun entry => entry.1 :: entry.2.nodeLeaves).map
        (nodeHandle (entryNames entries)) := by
  rw [nodeWalk_eq, h.definedNodes_ofEntries, List.flatMap_map, List.map_flatMap]
  congr 1
  funext entry
  rw [List.map_cons, handled, Rule.nodeLeaves_map]

theorem Coherent.tokenWalk_ofEntries (h : Coherent entries) :
    (ofEntries entries).tokenWalk =
      (entries.flatMap fun entry => entry.2.tokenLeaves).map
        (tokenHandle (entryTokens entries)) := by
  rw [tokenWalk_eq, h.definedNodes_ofEntries, List.flatMap_map, List.map_flatMap]
  congr 1
  funext entry
  rw [handled, Rule.tokenLeaves_map]

/-- The nodes of a grammar of coherent entries are those of the entries. -/
theorem Coherent.exists_entry (h : Coherent entries) {node : Node}
    (hnode : node ∈ (ofEntries entries).nodes) :
    ∃ entry ∈ entries, node = ⟨entry.1, handled entries entry.2⟩ := by
  rw [h.nodes_ofEntries] at hnode
  obtain ⟨name, hname, rfl⟩ := List.mem_map.1 hnode
  obtain ⟨entry, hentry, rfl⟩ := List.mem_map.1 (h.mem_entryNames_iff.1 hname)
  exact ⟨entry, hentry, by rw [lookup_eq_some_of_mem h.distinct hentry, Option.getD_some]⟩

/-- The grammar of coherent entries that can be written down, without too much nesting, is
    canonical. -/
theorem Coherent.canonical_ofEntries (h : Coherent entries)
    (hlegible : ∀ entry ∈ entries, IsName entry.1 ∧ Rule.Legible entry.2)
    (hshallow : ∀ entry ∈ entries, entry.2.depth ≤ maxNesting) : (ofEntries entries).Canonical where
  distinctNodes := by
    rw [h.names_ofEntries]
    exact nodup_entryNames entries
  names node hnode := by
    obtain ⟨entry, hentry, rfl⟩ := h.exists_entry hnode
    exact (hlegible entry hentry).1
  distinctTokens := nodup_entryTokens entries
  proper node hnode := by
    obtain ⟨entry, hentry, rfl⟩ := h.exists_entry hnode
    exact (Rule.proper_map _ _ entry.2).2 (hlegible entry hentry).2.proper
  nodesInRange node hnode id hid := by
    obtain ⟨entry, hentry, rfl⟩ := h.exists_entry hnode
    rw [handled, Rule.nodeLeaves_map] at hid
    obtain ⟨name, hname, rfl⟩ := List.mem_map.1 hid
    have hmem : name ∈ entryNames entries :=
      Grammar.mem_entryNames_iff.2 ⟨entry, hentry, .inr hname⟩
    rw [h.length_nodes_ofEntries]
    exact List.idxOf_lt_length_of_mem hmem
  tokensInRange node hnode id hid := by
    obtain ⟨entry, hentry, rfl⟩ := h.exists_entry hnode
    rw [handled, Rule.tokenLeaves_map] at hid
    obtain ⟨name, hname, rfl⟩ := List.mem_map.1 hid
    exact List.idxOf_lt_length_of_mem (mem_entryTokens_iff.2 ⟨entry, hentry, hname⟩)
  defined := by
    have hperm := h.perm_names_ofEntries
    rw [h.names_ofEntries] at hperm
    rw [h.nodeIds_ofEntries]
    have hdefinitions : (ofEntries entries).definitions =
        (entries.map Prod.fst).map (nodeHandle (entryNames entries)) := by
      rw [List.map_map]
      rfl
    rw [hdefinitions]
    exact (hperm.map _).symm
  nodesFirstSeen := by
    rw [h.nodeWalk_ofEntries, h.nodeIds_ofEntries, eraseDups_map, ← seeAll_nil_left]
    · rfl
    · intro name hname name' _ heq
      have hmem : name ∈ entryNames entries := by simpa [entryNames] using hname
      exact idxOf_injOn hmem (NodeId.mk.inj heq)
  tokensFirstSeen := by
    rw [h.tokenWalk_ofEntries, tokenIds_ofEntries, eraseDups_map, ← seeAll_nil_left]
    · rfl
    · intro name hname name' _ heq
      have hmem : name ∈ entryTokens entries := by simpa [entryTokens] using hname
      exact idxOf_injOn hmem (TokenId.mk.inj heq)
  shallow node hnode := by
    obtain ⟨entry, hentry, rfl⟩ := h.exists_entry hnode
    rw [handled, Rule.depth_map]
    exact hshallow entry hentry

end Coherent

/-! ### The entries of a canonical grammar -/

section Canonical

variable {g : Grammar}

/-- A defined node is in the table, under its handle. -/
theorem mem_definedNodes_iff {definition : NodeId × Node} :
    definition ∈ g.definedNodes ↔
      definition.1 ∈ g.definitions ∧ g.node? definition.1 = some definition.2 := by
  obtain ⟨id, node⟩ := definition
  simp only [definedNodes, List.mem_filterMap, Option.map_eq_some_iff]
  constructor
  · intro h
    obtain ⟨id, hid, node, hnode, heq⟩ := h
    obtain ⟨rfl, rfl⟩ := Prod.mk.inj heq
    exact ⟨hid, hnode⟩
  · intro h
    exact ⟨id, h.1, node, h.2, rfl⟩

theorem mem_nodeIds_iff {id : NodeId} : id ∈ g.nodeIds ↔ id.index < g.nodes.length := by
  simp only [nodeIds, List.mem_map, List.mem_range]
  constructor
  · rintro ⟨i, hi, rfl⟩
    exact hi
  · intro h
    exact ⟨id.index, h, rfl⟩

theorem nodeName_of_node? {id : NodeId} {node : Node} (h : g.node? id = some node) :
    g.nodeName id = node.name := by
  rw [nodeName, h]
  rfl

/-- The names of the nodes, by handle. -/
theorem map_nodeName_nodeIds (g : Grammar) : g.nodeIds.map g.nodeName = g.nodes.map Node.name := by
  apply List.ext_getElem
  · simp [nodeIds]
  · intro i hi hi'
    have hi : i < g.nodes.length := by simpa using hi'
    simp [nodeIds, nodeName, node?, hi]

theorem map_tokenName_tokenIds (g : Grammar) : g.tokenIds.map g.tokenName = g.tokens := by
  apply List.ext_getElem
  · simp [tokenIds]
  · intro i hi hi'
    simp [tokenIds, tokenName, token?, hi']

/-- Without names that are there twice, the handle of a node is the place of its name. -/
theorem nodeHandle_nodeName (h : (g.nodes.map Node.name).Nodup) {id : NodeId}
    (hid : id.index < g.nodes.length) :
    nodeHandle (g.nodes.map Node.name) (g.nodeName id) = id := by
  have hlt : id.index < (g.nodes.map Node.name).length := by simpa using hid
  have hname : g.nodeName id = (g.nodes.map Node.name)[id.index] := by
    simp [nodeName, node?, hid]
  rw [nodeHandle, hname, h.idxOf_getElem]

theorem tokenHandle_tokenName (h : g.tokens.Nodup) {id : TokenId}
    (hid : id.index < g.tokens.length) : tokenHandle g.tokens (g.tokenName id) = id := by
  have hname : g.tokenName id = g.tokens[id.index] := by
    simp [tokenName, token?, hid]
  rw [tokenHandle, hname, h.idxOf_getElem]

namespace Canonical

variable (h : g.Canonical)

include h

/-- The definitions are in range, so each of them has its node. -/
theorem map_fst_definedNodes : g.definedNodes.map Prod.fst = g.definitions := by
  rw [definedNodes, List.map_filterMap]
  calc g.definitions.filterMap _ = g.definitions.filterMap some := by
        apply List.filterMap_congr
        intro id hid
        have hlt := mem_nodeIds_iff.1 (h.defined.mem_iff.1 hid)
        simp [node?, hlt]
    _ = g.definitions := List.filterMap_some

theorem map_fst_entries : g.entries.map Prod.fst = g.definitions.map g.nodeName := by
  rw [← h.map_fst_definedNodes, entries, List.map_map, List.map_map]
  apply List.map_congr_left
  intro definition hdefinition
  exact (nodeName_of_node? (mem_definedNodes_iff.1 hdefinition).2).symm

/-- The defined names are the names of the nodes. -/
theorem perm_map_fst_entries : (g.entries.map Prod.fst).Perm (g.nodes.map Node.name) := by
  rw [h.map_fst_entries, ← map_nodeName_nodeIds]
  exact h.defined.map g.nodeName

/-- Every node has its entry. -/
theorem mem_entries {node : Node} (hnode : node ∈ g.nodes) :
    (node.name, g.named node.rule) ∈ g.entries := by
  obtain ⟨i, hi⟩ := List.mem_iff_getElem?.1 hnode
  have hlt := (List.getElem?_eq_some_iff.1 hi).1
  have hdefined : (⟨i⟩ : NodeId) ∈ g.definitions := h.defined.mem_iff.2 (mem_nodeIds_iff.2 hlt)
  exact List.mem_map.2 ⟨(⟨i⟩, node), mem_definedNodes_iff.2 ⟨hdefined, hi⟩, rfl⟩

omit h in
/-- Every entry has its node. -/
theorem exists_node {entry : String × NamedRule} (hentry : entry ∈ g.entries) :
    ∃ node ∈ g.nodes, entry = (node.name, g.named node.rule) := by
  obtain ⟨definition, hdefinition, rfl⟩ := List.mem_map.1 hentry
  exact ⟨definition.2, List.mem_of_getElem? (mem_definedNodes_iff.1 hdefinition).2, rfl⟩

/-- The names that the entries mention are those of the nodes, in the order of handles. -/
theorem entryNames_entries : entryNames g.entries = g.nodes.map Node.name := by
  have hwalk : (g.entries.flatMap fun entry => entry.1 :: entry.2.nodeLeaves) =
      g.nodeWalk.map g.nodeName := by
    rw [nodeWalk_eq, entries, List.flatMap_map, List.map_flatMap]
    apply List.flatMap_congr
    intro definition hdefinition
    rw [named, Rule.nodeLeaves_map, List.map_cons,
      nodeName_of_node? (mem_definedNodes_iff.1 hdefinition).2]
  rw [entryNames, hwalk, seeAll_nil_left, eraseDups_map, h.nodesFirstSeen, map_nodeName_nodeIds]
  -- All that is mentioned is in the table, so different handles have different names.
  have hrange : ∀ id ∈ g.nodeWalk, id.index < g.nodes.length := by
    intro id hid
    rw [← List.mem_eraseDups, h.nodesFirstSeen, mem_nodeIds_iff] at hid
    exact hid
  intro id hid id' hid' heq
  rw [← nodeHandle_nodeName h.distinctNodes (hrange id hid), heq,
    nodeHandle_nodeName h.distinctNodes (hrange id' hid')]

theorem entryTokens_entries : entryTokens g.entries = g.tokens := by
  have hwalk : (g.entries.flatMap fun entry => entry.2.tokenLeaves) =
      g.tokenWalk.map g.tokenName := by
    rw [tokenWalk_eq, entries, List.flatMap_map, List.map_flatMap]
    apply List.flatMap_congr
    intro definition _
    rw [named, Rule.tokenLeaves_map]
  rw [entryTokens, hwalk, seeAll_nil_left, eraseDups_map, h.tokensFirstSeen,
    map_tokenName_tokenIds]
  have hrange : ∀ id ∈ g.tokenWalk, id.index < g.tokens.length := by
    intro id hid
    rw [← List.mem_eraseDups, h.tokensFirstSeen] at hid
    obtain ⟨i, hi, rfl⟩ := List.mem_map.1 hid
    exact List.mem_range.1 hi
  intro id hid id' hid' heq
  rw [← tokenHandle_tokenName h.distinctTokens (hrange id hid), heq,
    tokenHandle_tokenName h.distinctTokens (hrange id' hid')]

/-- Handles replaced by names and names replaced by handles again. -/
theorem handled_named {node : Node} (hnode : node ∈ g.nodes) :
    handled g.entries (g.named node.rule) = node.rule := by
  rw [handled, named, Rule.map_map, h.entryNames_entries, h.entryTokens_entries]
  refine (Rule.map_congr node.rule ?_).trans (Rule.map_id node.rule)
  intro leaf hleaf
  cases leaf with
  | inl id =>
    have hid := h.nodesInRange node hnode id (Rule.mem_nodeLeaves_iff.2 hleaf)
    exact congrArg Sum.inl (nodeHandle_nodeName h.distinctNodes hid)
  | inr id =>
    have hid := h.tokensInRange node hnode id (Rule.mem_tokenLeaves_iff.2 hleaf)
    exact congrArg Sum.inr (tokenHandle_tokenName h.distinctTokens hid)

/-- The entries define every name that they mention, and each name once. -/
theorem coherent_entries : Coherent g.entries where
  distinct := (h.perm_map_fst_entries.nodup_iff).2 h.distinctNodes
  closed entry hentry name hname := by
    rw [h.perm_map_fst_entries.mem_iff, ← h.entryNames_entries]
    exact mem_entryNames_iff.2 ⟨entry, hentry, .inr hname⟩

/-- The entries can be written down. -/
theorem legible_entries : ∀ entry ∈ g.entries, IsName entry.1 ∧ Rule.Legible entry.2 := by
  intro entry hentry
  obtain ⟨node, hnode, rfl⟩ := exists_node hentry
  refine ⟨h.names node hnode, Rule.legible_of_proper _ ?_ ?_⟩
  · exact (Rule.proper_map _ _ node.rule).2 (h.proper node hnode)
  · intro name hname
    -- The rule mentions names of nodes only.
    have hmem : name ∈ entryNames g.entries :=
      mem_entryNames_iff.2 ⟨_, hentry, .inr hname⟩
    rw [h.entryNames_entries] at hmem
    obtain ⟨node', hnode', rfl⟩ := List.mem_map.1 hmem
    exact h.names node' hnode'

theorem shallow_entries : ∀ entry ∈ g.entries, entry.2.depth ≤ maxNesting := by
  intro entry hentry
  obtain ⟨node, hnode, rfl⟩ := exists_node hentry
  show (g.named node.rule).depth ≤ maxNesting
  rw [named, Rule.depth_map]
  exact h.shallow node hnode

/-- A canonical grammar is the grammar of its entries. -/
theorem eq_ofEntries : g = ofEntries g.entries := by
  have hnodes : g.nodes = (ofEntries g.entries).nodes := by
    rw [h.coherent_entries.nodes_ofEntries, h.entryNames_entries, List.map_map]
    refine (List.map_id g.nodes).symm.trans (List.map_congr_left ?_)
    intro node hnode
    have hlookup := lookup_eq_some_of_mem h.coherent_entries.distinct (h.mem_entries hnode)
    simp [hlookup, h.handled_named hnode]
  have hdefinitions : g.definitions = (ofEntries g.entries).definitions := by
    have hmap : (ofEntries g.entries).definitions =
        (g.entries.map Prod.fst).map (nodeHandle (entryNames g.entries)) := by
      rw [List.map_map]
      rfl
    rw [hmap, h.map_fst_entries, h.entryNames_entries, List.map_map]
    refine (List.map_id g.definitions).symm.trans (List.map_congr_left ?_)
    intro id hid
    have hlt := mem_nodeIds_iff.1 (h.defined.mem_iff.1 hid)
    exact (nodeHandle_nodeName h.distinctNodes hlt).symm
  obtain ⟨nodes, tokens, definitions⟩ := g
  exact congr (congr (congrArg Grammar.mk hnodes) h.entryTokens_entries.symm) hdefinitions

/-- A canonical grammar is loaded from its canonical text. -/
theorem ofText_text : ofText g.canonicalText = .ok g := by
  have hlegible := h.legible_entries
  obtain ⟨tokens, hsymbols, htokens⟩ := tokensOf_definitionTexts hlegible
  have hrules : ∀ entry ∈ g.entries, Rule.Legible entry.2 := fun entry hentry =>
    (hlegible entry hentry).2
  refine load_eq_ok_iff.2 ⟨tokens, ?_, ofTokens_eq_ok_iff.2 ?_⟩
  · rw [canonicalText_eq]
    exact htokens
  · refine ⟨Derivation.ofEntries g.entries, hsymbols.symm, Derivation.admissible_iff.2 ⟨?_, ?_⟩, ?_⟩
    · intro d hd
      obtain ⟨entry, hentry, rfl⟩ := List.mem_map.1 hd
      show entry.2.forms.choice.nesting ≤ maxNesting
      rw [Rule.nesting_forms]
      exact h.shallow_entries entry hentry
    · rw [Derivation.entries_ofEntries hrules]
      exact h.coherent_entries
    · rw [Derivation.entries_ofEntries hrules]
      exact h.eq_ofEntries

end Canonical

end Canonical

/-- The tokens of a grammar have an admissible derivation of its entries. -/
theorem exists_derivation {tokens : List Token} {g : Grammar} (h : ofTokens tokens = .ok g) :
    ∃ D : Derivation, D.symbols = symbolsOf tokens ∧ D.Admissible ∧ D.entries = g.entries := by
  obtain ⟨D, hsymbols, hadmissible, rfl⟩ := ofTokens_eq_ok_iff.1 h
  have hcoherent := (Derivation.admissible_iff.1 hadmissible).2
  exact ⟨D, hsymbols, hadmissible, hcoherent.named_definedNodes_ofEntries.symm⟩

/-- The grammar of a text is canonical. -/
theorem canonical_of_load {strictness : Strictness} {source : String} {g : Grammar}
    (h : load strictness source = .ok g) : g.Canonical := by
  obtain ⟨tokens, htokens, hread⟩ := load_eq_ok_iff.1 h
  obtain ⟨D, hsymbols, hadmissible, rfl⟩ := ofTokens_eq_ok_iff.1 hread
  obtain ⟨hshallow, hcoherent⟩ := Derivation.admissible_iff.1 hadmissible
  have hnames : NamesIn D.symbols := by
    rw [hsymbols, ← tokens_of_tokensOf htokens]
    exact namesIn_scan _
  apply hcoherent.canonical_ofEntries (Derivation.legible hnames)
  intro entry hentry
  obtain ⟨d, hd, rfl⟩ := List.mem_map.1 hentry
  -- Source texts may have more parentheses than the rule needs, but never fewer.
  show d.body.tree.depth ≤ maxNesting
  rw [← Rule.nesting_forms]
  exact Nat.le_trans d.body.nesting_forms_le (hshallow d hd)

/-- The grammars of texts are the canonical ones, and the text of each can be its canonical
    text. -/
theorem loads_exactly_canonical (g : Grammar) :
    ((∃ source, ofText source = .ok g) ↔ g.Canonical) ∧
      (g.Canonical → ofText g.canonicalText = .ok g) := by
  refine ⟨⟨?_, ?_⟩, fun h => h.ofText_text⟩
  · intro h
    obtain ⟨source, h⟩ := h
    exact canonical_of_load h
  · intro h
    exact ⟨g.canonicalText, h.ofText_text⟩

end Grammar

end TreeGrammar
