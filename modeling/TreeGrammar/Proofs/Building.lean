import TreeGrammar.Grammar.Draft
import TreeGrammar.Proofs.FirstSeen

/-! # What drafts hold

    Reading fills a draft. This module says what is in the draft, in terms of
    the names that were read.

    Key idea:
    - `Draft.Grows` says which names a step has added and that it has left
      all else as it was;
    - `Draft.Builds` says in addition which rules the step has made of which
      trees. Their handles are good in every later table, so that later steps
      need not be looked at again;
    - `Draft.Holds` says that a draft holds a list of entries and nothing
      else. Each definition prolongs the list by one entry
      (`Draft.Holds.define`);
    - a draft that holds coherent entries becomes their grammar
      (`Draft.Holds.complete_eq_ok_iff`).
-/

namespace TreeGrammar

section Except

variable {ε α β : Type} {x : Except ε α} {f : α → Except ε β}

/-- Two steps succeed if the second succeeds with what the first has got. -/
theorem except_bind_eq_ok_iff {b : β} :
    (x >>= f) = .ok b ↔ ∃ a, x = .ok a ∧ f a = .ok b := by
  cases x with
  | ok a => simp [bind, Except.bind]
  | error e => simp [bind, Except.bind]

/-- Two steps fail where the first of them fails. -/
theorem except_bind_eq_error_iff {e : ε} :
    (x >>= f) = .error e ↔ x = .error e ∨ ∃ a, x = .ok a ∧ f a = .error e := by
  cases x with
  | ok a => simp [bind, Except.bind]
  | error e => simp [bind, Except.bind]

end Except

namespace Draft

/-- The names of the nodes of a draft, in the order of their handles. -/
def names (d : Draft) : List String :=
  d.nodes.map PendingNode.name

/-! ### Looking up and entering names -/

theorem findIdx?_eq_some_idxOf {table : List String} {name : String} (h : name ∈ table) :
    table.findIdx? (· = name) = some (table.idxOf name) := by
  induction table with
  | nil => simp at h
  | cons first table ih =>
    by_cases hfirst : first = name
    · simp [List.findIdx?_cons, hfirst]
    · have htail : name ∈ table := by
        rcases List.mem_cons.1 h with heq | htail
        · exact absurd heq.symm hfirst
        · exact htail
      rw [List.findIdx?_cons, if_neg (by simpa using hfirst), ih htail,
        List.idxOf_cons_ne _ hfirst]
      rfl

theorem findIdx?_eq_none {table : List String} {name : String} (h : name ∉ table) :
    table.findIdx? (· = name) = none := by
  rw [List.findIdx?_eq_none_iff]
  intro name' hname'
  simp only [decide_eq_false_iff_not]
  rintro rfl
  exact h hname'

/-- A name that a table has only once is found at its place. -/
theorem findIdx?_of_nodup {table : List String} (hnodup : table.Nodup) {i : Nat} {name : String}
    (h : table[i]? = some name) : table.findIdx? (· = name) = some i := by
  obtain ⟨hlt, hget⟩ := List.getElem?_eq_some_iff.1 h
  rw [findIdx?_eq_some_idxOf (List.mem_of_getElem? h), ← hget, hnodup.idxOf_getElem]

theorem findNode?_eq (d : Draft) (name : String) :
    d.findNode? name = (d.names.findIdx? (· = name)).map NodeId.mk := by
  rw [findNode?, names, List.findIdx?_map]
  rfl

theorem findNode?_of_mem {d : Draft} {name : String} (h : name ∈ d.names) :
    d.findNode? name = some (nodeHandle d.names name) := by
  rw [findNode?_eq, findIdx?_eq_some_idxOf h]
  rfl

theorem findNode?_of_not_mem {d : Draft} {name : String} (h : name ∉ d.names) :
    d.findNode? name = none := by
  rw [findNode?_eq, findIdx?_eq_none h]
  rfl

theorem findToken?_of_mem {d : Draft} {name : String} (h : name ∈ d.tokens) :
    d.findToken? name = some (tokenHandle d.tokens name) := by
  rw [findToken?, findIdx?_eq_some_idxOf h]
  rfl

theorem findToken?_of_not_mem {d : Draft} {name : String} (h : name ∉ d.tokens) :
    d.findToken? name = none := by
  rw [findToken?, findIdx?_eq_none h]
  rfl

/-! ### Growth -/

/-- A draft has become another one by entering nodes and tokens, and nothing else. -/
structure Grows (d d' : Draft) (nodes tokens : List String) : Prop where
  /-- The nodes are entered one after the other. -/
  names : d'.names = seeAll d.names nodes
  /-- The tokens are entered one after the other. -/
  tokens : d'.tokens = seeAll d.tokens tokens
  /-- Nodes that were there stay as they were, and new ones have no rule. -/
  kept : ∃ fresh, d'.nodes = d.nodes ++ fresh ∧ ∀ node ∈ fresh, node.rule? = none
  /-- No node is defined. -/
  definitions : d'.definitions = d.definitions

theorem Grows.refl (d : Draft) : d.Grows d [] [] :=
  ⟨rfl, rfl, ⟨[], by simp, by simp⟩, rfl⟩

theorem Grows.trans {d d' d'' : Draft} {nodes nodes' tokens tokens' : List String}
    (h : d.Grows d' nodes tokens) (h' : d'.Grows d'' nodes' tokens') :
    d.Grows d'' (nodes ++ nodes') (tokens ++ tokens') := by
  obtain ⟨fresh, hnodes, hfresh⟩ := h.kept
  obtain ⟨fresh', hnodes', hfresh'⟩ := h'.kept
  refine ⟨?_, ?_, ⟨fresh ++ fresh', ?_, ?_⟩, ?_⟩
  · rw [h'.names, h.names, seeAll_append]
  · rw [h'.tokens, h.tokens, seeAll_append]
  · rw [hnodes', hnodes, List.append_assoc]
  · intro node hnode
    rcases List.mem_append.1 hnode with hnode | hnode
    · exact hfresh node hnode
    · exact hfresh' node hnode
  · rw [h'.definitions, h.definitions]

theorem Grows.prefix_names {d d' : Draft} {nodes tokens : List String}
    (h : d.Grows d' nodes tokens) : d.names <+: d'.names := by
  rw [h.names]
  exact prefix_seeAll _ _

theorem Grows.prefix_tokens {d d' : Draft} {nodes tokens : List String}
    (h : d.Grows d' nodes tokens) : d.tokens <+: d'.tokens := by
  rw [h.tokens]
  exact prefix_seeAll _ _

/-- Growing defines no node. -/
theorem Grows.isDefined_eq {d d' : Draft} {nodes tokens : List String}
    (h : d.Grows d' nodes tokens) (name : String) : d'.isDefined name = d.isDefined name := by
  obtain ⟨fresh, hnodes, hfresh⟩ := h.kept
  -- The new nodes have no rule.
  have hnone : (fresh.any fun node => node.name = name && node.rule?.isSome) = false := by
    rw [List.any_eq_false]
    intro node hnode
    simp [hfresh node hnode]
  rw [isDefined, isDefined, hnodes, List.any_append, hnone, Bool.or_false]

theorem internNode_of_mem {d : Draft} {name : String} (h : name ∈ d.names) (span : Span) :
    d.internNode name span = (nodeHandle d.names name, d) := by
  rw [internNode, findNode?_of_mem h]

theorem internNode_of_not_mem {d : Draft} {name : String} (h : name ∉ d.names) (span : Span) :
    d.internNode name span =
      (⟨d.nodes.length⟩, { d with
        nodes := d.nodes ++ [⟨name, span, none⟩]
        log := d.log.push (.internedNode name ⟨d.nodes.length⟩) }) := by
  rw [internNode, findNode?_of_not_mem h]

/-- A node that is entered is the only one. -/
theorem grows_internNode (d : Draft) (name : String) (span : Span) :
    d.Grows (d.internNode name span).2 [name] [] := by
  by_cases h : name ∈ d.names
  · rw [internNode_of_mem h]
    exact ⟨by simp [see_of_mem h], rfl, ⟨[], by simp, by simp⟩, rfl⟩
  · rw [internNode_of_not_mem h]
    refine ⟨?_, rfl, ⟨[⟨name, span, none⟩], rfl, by simp⟩, rfl⟩
    rw [seeAll_cons, seeAll_nil, see_of_not_mem h]
    simp [names]

/-- The handle of a node that is entered is its place in the table. -/
theorem internNode_fst (d : Draft) (name : String) (span : Span) :
    (d.internNode name span).1 = nodeHandle (d.internNode name span).2.names name := by
  by_cases h : name ∈ d.names
  · rw [internNode_of_mem h]
  · -- A new name comes last, so its place is the length of the old table.
    have hidx : (d.names ++ [name]).idxOf name = d.nodes.length := by
      rw [List.idxOf_append_of_notMem h]
      simp [names]
    rw [internNode_of_not_mem h, nodeHandle]
    show (⟨d.nodes.length⟩ : NodeId) =
      ⟨((d.nodes ++ [(⟨name, span, none⟩ : PendingNode)]).map PendingNode.name).idxOf name⟩
    rw [List.map_append, ← hidx]
    rfl

/-- A token that is entered is the only one. -/
theorem grows_internToken (d : Draft) (name : String) :
    d.Grows (d.internToken name).2 [] [name] := by
  by_cases h : name ∈ d.tokens
  · rw [internToken, findToken?_of_mem h]
    exact ⟨rfl, by simp [see_of_mem h], ⟨[], by simp, by simp⟩, rfl⟩
  · rw [internToken, findToken?_of_not_mem h]
    exact ⟨rfl, by simp [see_of_not_mem h], ⟨[], by simp, by simp⟩, rfl⟩

/-- The handle of a token that is entered is its place in the table. -/
theorem internToken_fst (d : Draft) (name : String) :
    (d.internToken name).1 = tokenHandle (d.internToken name).2.tokens name := by
  by_cases h : name ∈ d.tokens
  · rw [internToken, findToken?_of_mem h]
  · have hidx : (d.tokens ++ [name]).idxOf name = d.tokens.length := by
      rw [List.idxOf_append_of_notMem h]
      simp
    rw [internToken, findToken?_of_not_mem h, tokenHandle]
    show (⟨d.tokens.length⟩ : TokenId) = ⟨(d.tokens ++ [name]).idxOf name⟩
    rw [hidx]

/-! ### Rules with handles -/

/-- A draft has become another one by entering the names of some trees, of which rules were
    made. -/
structure Builds (d : Draft) (trees : List NamedRule) (rules : List HandleRule) (d' : Draft) :
    Prop extends
      Grows d d' (trees.flatMap Rule.nodeLeaves) (trees.flatMap Rule.tokenLeaves) where
  /-- The rules are the trees with the handles of this table or of any later one. -/
  handles : ∀ names tokens, d'.names <+: names → d'.tokens <+: tokens →
    rules = trees.map (Rule.map (nodeHandle names) (tokenHandle tokens))

theorem Builds.nil (d : Draft) : d.Builds [] [] d :=
  { Grows.refl d with handles := fun _ _ _ _ => rfl }

theorem Builds.append {d d' d'' : Draft} {trees trees' : List NamedRule}
    {rules rules' : List HandleRule} (h : d.Builds trees rules d')
    (h' : d'.Builds trees' rules' d'') :
    d.Builds (trees ++ trees') (rules ++ rules') d'' := by
  refine { toGrows := ?_, handles := ?_ }
  · simpa using h.toGrows.trans h'.toGrows
  · intro names tokens hnames htokens
    rw [h.handles names tokens (h'.prefix_names.trans hnames) (h'.prefix_tokens.trans htokens),
      h'.handles names tokens hnames htokens, List.map_append]

theorem Builds.node (d : Draft) (name : String) (span : Span) :
    d.Builds [.node name] [.node (d.internNode name span).1] (d.internNode name span).2 := by
  refine { toGrows := d.grows_internNode name span, handles := ?_ }
  intro names tokens hnames _
  have hmem : name ∈ (d.internNode name span).2.names := by
    simp [(d.grows_internNode name span).names]
  rw [internNode_fst, ← nodeHandle_eq_of_isPrefix hnames hmem]
  rfl

theorem Builds.token (d : Draft) (name : String) :
    d.Builds [.token name] [.token (d.internToken name).1] (d.internToken name).2 := by
  refine { toGrows := d.grows_internToken name, handles := ?_ }
  intro names tokens _ htokens
  have hmem : name ∈ (d.internToken name).2.tokens := by
    simp [(d.grows_internToken name).tokens]
  rw [internToken_fst, ← tokenHandle_eq_of_isPrefix htokens hmem]
  rfl

/-- A step that makes a rule around others needs no further names. -/
theorem Builds.around {d d' : Draft} {trees : List NamedRule} {rules : List HandleRule}
    {tree : NamedRule} {rule : HandleRule} (h : d.Builds trees rules d')
    (hleaves : tree.leaves = trees.flatMap Rule.leaves)
    (hrule : ∀ (f : String → NodeId) (g : String → TokenId),
      rules = trees.map (Rule.map f g) → rule = tree.map f g) :
    d.Builds [tree] [rule] d' := by
  have hnodes : [tree].flatMap Rule.nodeLeaves = trees.flatMap Rule.nodeLeaves := by
    simp only [List.flatMap_singleton, Rule.nodeLeaves, hleaves, List.filterMap_flatMap]
    rfl
  have htokens : [tree].flatMap Rule.tokenLeaves = trees.flatMap Rule.tokenLeaves := by
    simp only [List.flatMap_singleton, Rule.tokenLeaves, hleaves, List.filterMap_flatMap]
    rfl
  refine { toGrows := ?_, handles := ?_ }
  · rw [hnodes, htokens]
    exact h.toGrows
  · intro names tokens hprefix hprefix'
    rw [hrule _ _ (h.handles names tokens hprefix hprefix')]
    rfl

theorem Builds.labeled {d d' : Draft} {tree : NamedRule} {rule : HandleRule} (label : String)
    (h : d.Builds [tree] [rule] d') : d.Builds [.labeled label tree] [.labeled label rule] d' :=
  h.around (by simp [Rule.leaves]) fun f g hrule => by
    rw [Rule.map, List.singleton_injective hrule]

theorem Builds.opt {d d' : Draft} {tree : NamedRule} {rule : HandleRule}
    (h : d.Builds [tree] [rule] d') : d.Builds [.opt tree] [.opt rule] d' :=
  h.around (by simp [Rule.leaves]) fun f g hrule => by
    rw [Rule.map, List.singleton_injective hrule]

theorem Builds.rep {d d' : Draft} {tree : NamedRule} {rule : HandleRule}
    (h : d.Builds [tree] [rule] d') : d.Builds [.rep tree] [.rep rule] d' :=
  h.around (by simp [Rule.leaves]) fun f g hrule => by
    rw [Rule.map, List.singleton_injective hrule]

theorem Builds.ofSeq {d d' : Draft} {trees : List NamedRule} {rules : List HandleRule}
    (h : d.Builds trees rules d') : d.Builds [Rule.ofSeq trees] [Rule.ofSeq rules] d' :=
  h.around (Rule.leaves_ofSeq trees) fun f g hrules => by rw [Rule.map_ofSeq, hrules]

theorem Builds.ofAlt {d d' : Draft} {trees : List NamedRule} {rules : List HandleRule}
    (h : d.Builds trees rules d') : d.Builds [Rule.ofAlt trees] [Rule.ofAlt rules] d' :=
  h.around (Rule.leaves_ofAlt trees) fun f g hrules => by rw [Rule.map_ofAlt, hrules]

/-! ### What a draft holds -/

/-- A draft holds a list of entries in their order, and nothing else. -/
structure Holds (d : Draft) (entries : List (String × NamedRule)) : Prop where
  /-- The nodes are those that the entries mention. -/
  names : d.names = Grammar.entryNames entries
  /-- The tokens are those that the entries mention. -/
  tokens : d.tokens = Grammar.entryTokens entries
  /-- The nodes of the entries are defined, in this order. -/
  definitions : d.definitions = entries.map fun entry => nodeHandle d.names entry.1
  /-- A node has the rule of its entry, with handles that stay good, and none otherwise. -/
  rules : ∀ names tokens, d.names <+: names → d.tokens <+: tokens → ∀ node ∈ d.nodes,
    node.rule? = (entries.lookup node.name).map
      (Rule.map (nodeHandle names) (tokenHandle tokens))

theorem holds_empty : Holds {} [] :=
  ⟨rfl, rfl, rfl, fun _ _ _ _ _ h => by simp at h⟩

section Holds

variable {d : Draft} {entries : List (String × NamedRule)}

theorem Holds.nodup_names (h : d.Holds entries) : d.names.Nodup := by
  rw [h.names]
  exact Grammar.nodup_entryNames entries

/-- The defined names are in the table. -/
theorem Holds.mem_names (h : d.Holds entries) {name : String}
    (hname : name ∈ entries.map Prod.fst) : name ∈ d.names := by
  obtain ⟨entry, hmem, rfl⟩ := List.mem_map.1 hname
  rw [h.names, Grammar.mem_entryNames_iff]
  exact ⟨entry, hmem, .inl rfl⟩

theorem Holds.isSome_rule?_iff (h : d.Holds entries) {node : PendingNode} (hnode : node ∈ d.nodes) :
    node.rule?.isSome ↔ node.name ∈ entries.map Prod.fst := by
  rw [h.rules _ _ (List.prefix_refl _) (List.prefix_refl _) node hnode, Option.isSome_map,
    Grammar.lookup_isSome_iff]

/-- A name is defined in a draft exactly if it heads an entry. -/
theorem Holds.isDefined_iff (h : d.Holds entries) {name : String} :
    d.isDefined name = true ↔ name ∈ entries.map Prod.fst := by
  simp only [isDefined, List.any_eq_true, Bool.and_eq_true, decide_eq_true_eq]
  constructor
  · intro hdefined
    obtain ⟨node, hnode, rfl, hsome⟩ := hdefined
    exact (h.isSome_rule?_iff hnode).1 hsome
  · intro hname
    obtain ⟨node, hnode, rfl⟩ := List.mem_map.1 (h.mem_names hname)
    exact ⟨node, hnode, rfl, (h.isSome_rule?_iff hnode).2 hname⟩

/-- Entering names changes no rule. -/
theorem Holds.rules_of_grows (h : d.Holds entries) {d' : Draft} {nodes tokens : List String}
    (hgrows : d.Grows d' nodes tokens) {names' tokens' : List String}
    (hnames : d'.names <+: names') (htokens : d'.tokens <+: tokens') {node : PendingNode}
    (hnode : node ∈ d'.nodes) :
    node.rule? = (entries.lookup node.name).map
      (Rule.map (nodeHandle names') (tokenHandle tokens')) := by
  obtain ⟨fresh, hnodes, hfresh⟩ := hgrows.kept
  rw [hnodes, List.mem_append] at hnode
  rcases hnode with hold | hnew
  · exact h.rules _ _ (hgrows.prefix_names.trans hnames) (hgrows.prefix_tokens.trans htokens)
      node hold
  · -- A new name is none of the old ones, and only these have entries.
    have hnodup : (d.names ++ fresh.map PendingNode.name).Nodup := by
      have := nodup_seeAll h.nodup_names nodes
      rwa [← hgrows.names, Draft.names, hnodes, List.map_append] at this
    have hnone : entries.lookup node.name = none := by
      rw [← Option.not_isSome_iff_eq_none, Grammar.lookup_isSome_iff]
      intro hname
      exact (List.disjoint_of_nodup_append hnodup) (h.mem_names hname)
        (List.mem_map_of_mem hnew)
    rw [hfresh node hnew, hnone]
    rfl

end Holds

@[simp] theorem names_define (d : Draft) (id : NodeId) (name : String) (rule : HandleRule) :
    (d.define id name rule).names = d.names := by
  simp only [define, names]
  apply List.ext_getElem?
  intro i
  rw [List.getElem?_map, List.getElem?_modify, List.getElem?_map]
  split <;> cases d.nodes[i]? <;> rfl

/-- Of the nodes in a draft with a new rule, the one at the handle has got it, and the others are
    as they were. -/
theorem mem_nodes_define {d : Draft} (hnodup : d.names.Nodup) {name : String} {rule : HandleRule}
    {node : PendingNode} (h : node ∈ (d.define (nodeHandle d.names name) name rule).nodes) :
    (node.name = name ∧ node.rule? = some rule) ∨ (node.name ≠ name ∧ node ∈ d.nodes) := by
  obtain ⟨i, hi⟩ := List.mem_iff_getElem?.1 h
  simp only [define, nodeHandle, List.getElem?_modify, Option.map_eq_map,
    Option.map_eq_some_iff] at hi
  obtain ⟨old, hold, rfl⟩ := hi
  have hname : d.names[i]? = some old.name := by simp [names, hold]
  obtain ⟨hlt, hget⟩ := List.getElem?_eq_some_iff.1 hname
  -- As no name is there twice, the node at the handle is the only one of its name.
  by_cases hidx : d.names.idxOf name = i
  · refine .inl ⟨?_, by simp [hidx]⟩
    subst hidx
    rw [if_pos rfl]
    show old.name = name
    rw [← hget, List.getElem_idxOf hlt]
  · refine .inr ⟨?_, ?_⟩
    · rw [if_neg hidx]
      rintro rfl
      exact hidx (by rw [← hget, hnodup.idxOf_getElem])
    · rw [if_neg hidx]
      exact List.mem_of_getElem? hold

/-- Every node is still there in a draft with a new rule, and the one at the handle has it. -/
theorem exists_mem_nodes_define {d : Draft} (name : String) (rule : HandleRule)
    {node : PendingNode} {i : Nat} (h : d.nodes[i]? = some node) :
    ∃ node' ∈ (d.define (nodeHandle d.names name) name rule).nodes, node'.name = node.name ∧
      (node.rule?.isSome ∨ d.names.idxOf name = i → node'.rule?.isSome) := by
  refine ⟨if d.names.idxOf name = i then { node with rule? := some rule } else node, ?_, ?_, ?_⟩
  · apply List.mem_of_getElem? (i := i)
    simp only [define, nodeHandle, List.getElem?_modify, h]
    rfl
  · split <;> rfl
  · split
    · simp
    · rename_i hidx
      intro hsome
      exact hsome.resolve_right hidx

/-- A definition defines its own name and no other. -/
theorem isDefined_define_iff {d : Draft} (hnodup : d.names.Nodup) {name : String}
    (hname : name ∈ d.names) (rule : HandleRule) {other : String} :
    (d.define (nodeHandle d.names name) name rule).isDefined other = true ↔
      other = name ∨ d.isDefined other = true := by
  simp only [isDefined, List.any_eq_true, Bool.and_eq_true, decide_eq_true_eq]
  constructor
  · intro h
    obtain ⟨node, hnode, rfl, hsome⟩ := h
    rcases mem_nodes_define hnodup hnode with ⟨heq, -⟩ | ⟨-, hold⟩
    · exact .inl heq
    · exact .inr ⟨node, hold, rfl, hsome⟩
  · intro h
    rcases h with rfl | ⟨node, hnode, rfl, hsome⟩
    · have hget : d.names[d.names.idxOf other]? = some other := getElem?_idxOf hname
      rw [names, List.getElem?_map, Option.map_eq_some_iff] at hget
      obtain ⟨node, hnode, rfl⟩ := hget
      obtain ⟨node', hmem, hname', hrule⟩ := exists_mem_nodes_define node.name rule hnode
      exact ⟨node', hmem, hname', hrule (.inr rfl)⟩
    · obtain ⟨i, hi⟩ := List.mem_iff_getElem?.1 hnode
      obtain ⟨node', hmem, hname', hrule⟩ := exists_mem_nodes_define name rule hi
      exact ⟨node', hmem, hname', hrule (.inl hsome)⟩

/-- A definition adds one entry to what a draft holds: the name is entered, the rule is built, and
    the node gets it. -/
theorem Holds.define {d d' : Draft} {entries : List (String × NamedRule)} (h : d.Holds entries)
    {name : String} (span : Span) {tree : NamedRule} {rule : HandleRule}
    (hnew : name ∉ entries.map Prod.fst)
    (hbuilds : (d.internNode name span).2.Builds [tree] [rule] d') :
    (d'.define (d.internNode name span).1 name rule).Holds (entries ++ [(name, tree)]) := by
  have hgrows := (d.grows_internNode name span).trans hbuilds.toGrows
  simp only [List.flatMap_singleton, List.nil_append, List.singleton_append] at hgrows
  have hnames : d'.names = Grammar.entryNames (entries ++ [(name, tree)]) := by
    rw [hgrows.names, h.names, Grammar.entryNames, Grammar.entryNames, List.flatMap_append,
      seeAll_append]
    simp
  have htokens : d'.tokens = Grammar.entryTokens (entries ++ [(name, tree)]) := by
    rw [hgrows.tokens, h.tokens, Grammar.entryTokens, Grammar.entryTokens, List.flatMap_append,
      seeAll_append]
    simp
  have hid : (d.internNode name span).1 = nodeHandle d'.names name := by
    have hmem : name ∈ (d.internNode name span).2.names := by
      simp [(d.grows_internNode name span).names]
    rw [internNode_fst, nodeHandle_eq_of_isPrefix hbuilds.prefix_names hmem]
  have hnodup : d'.names.Nodup := by
    rw [hnames]
    exact Grammar.nodup_entryNames _
  rw [hid]
  refine ⟨by rw [names_define, hnames], htokens, ?_, ?_⟩
  · -- The handles of the earlier definitions stay good in the longer table.
    show d'.definitions ++ [_] = _
    rw [names_define, List.map_append, hgrows.definitions, h.definitions]
    congr 1
    apply List.map_congr_left
    intro entry hmem
    exact (nodeHandle_eq_of_isPrefix hgrows.prefix_names
      (h.mem_names (List.mem_map_of_mem hmem))).symm
  · intro names' tokens' hnames' htokens' node hnode
    rw [names_define] at hnames'
    rw [List.lookup_append]
    rcases mem_nodes_define hnodup hnode with ⟨rfl, hrule⟩ | ⟨hne, hold⟩
    · -- The new entry decides about its own node only.
      have hnone : entries.lookup node.name = none := by
        rw [← Option.not_isSome_iff_eq_none, Grammar.lookup_isSome_iff]
        exact hnew
      rw [hrule, hnone]
      simpa using hbuilds.handles names' tokens' hnames' htokens'
    · have hbeq : (node.name == name) = false := beq_eq_false_iff_ne.2 hne
      rw [h.rules_of_grows hgrows hnames' htokens' hold]
      simp [List.lookup_cons, hbeq]

/-! ### Completing a draft -/

/-- All nodes are finished exactly if all have their rule. -/
theorem mapM_finishNode_eq_ok_iff {nodes : List PendingNode} {finished : List Node} :
    nodes.mapM finishNode = .ok finished ↔
      (∀ node ∈ nodes, node.rule?.isSome) ∧
        finished = nodes.filterMap fun node => node.rule?.map fun rule => ⟨node.name, rule⟩ := by
  induction nodes generalizing finished with
  | nil =>
    show Except.ok [] = Except.ok finished ↔ _
    simp only [List.not_mem_nil, false_implies, implies_true, List.filterMap_nil, true_and,
      Except.ok.injEq]
    exact eq_comm
  | cons node nodes ih =>
    rw [List.mapM_cons, List.forall_mem_cons]
    cases hrule : node.rule? with
    | none => simp [finishNode, hrule, bind, Except.bind]
    | some rule =>
      rw [finishNode, hrule, List.filterMap_cons, hrule]
      cases hrest : nodes.mapM finishNode with
      | error e =>
        have hnot : ¬ ∀ node ∈ nodes, node.rule?.isSome := by
          intro hall
          have := ih.2 ⟨hall, rfl⟩
          simp [hrest] at this
        simp [bind, Except.bind, hnot]
      | ok others =>
        obtain ⟨hall, rfl⟩ := ih.1 hrest
        show Except.ok _ = Except.ok finished ↔ _
        rw [Except.ok.injEq]
        constructor
        · rintro rfl
          exact ⟨⟨rfl, hall⟩, rfl⟩
        · intro h
          obtain ⟨-, rfl⟩ := h
          rfl

/-- A draft becomes a grammar exactly if all nodes have their rule. -/
theorem complete_eq_ok_iff {d : Draft} {g : Grammar} :
    d.complete = .ok g ↔ (∀ node ∈ d.nodes, node.rule?.isSome) ∧
      g = ⟨d.nodes.filterMap fun node => node.rule?.map fun rule => ⟨node.name, rule⟩,
        d.tokens, d.definitions⟩ := by
  rw [complete, except_bind_eq_ok_iff]
  constructor
  · intro h
    obtain ⟨finished, hfinish, hg⟩ := h
    obtain ⟨hall, rfl⟩ := mapM_finishNode_eq_ok_iff.1 hfinish
    exact ⟨hall, (Except.ok.inj hg).symm⟩
  · intro h
    obtain ⟨hall, rfl⟩ := h
    exact ⟨_, mapM_finishNode_eq_ok_iff.2 ⟨hall, rfl⟩, rfl⟩

/-- The grammar has the nodes of the draft. -/
theorem names_of_complete {d : Draft} {g : Grammar} (h : d.complete = .ok g) :
    g.nodes.map Node.name = d.names := by
  obtain ⟨hall, rfl⟩ := complete_eq_ok_iff.1 h
  rw [List.map_filterMap, names, ← List.filterMap_eq_map]
  apply List.filterMap_congr
  intro node hnode
  obtain ⟨rule, hrule⟩ := Option.isSome_iff_exists.1 (hall node hnode)
  simp [hrule]

/-- A draft in which all names are defined becomes a grammar. -/
theorem exists_complete_eq_ok {d : Draft} (hnodup : d.names.Nodup)
    (h : ∀ name ∈ d.names, d.isDefined name = true) : ∃ g, d.complete = .ok g := by
  have hall : ∀ node ∈ d.nodes, node.rule?.isSome := by
    intro node hnode
    have hdefined := h node.name (List.mem_map_of_mem hnode)
    simp only [isDefined, List.any_eq_true, Bool.and_eq_true, decide_eq_true_eq] at hdefined
    obtain ⟨node', hnode', hname, hsome⟩ := hdefined
    obtain rfl : node' = node := List.inj_on_of_nodup_map hnodup hnode' hnode hname
    exact hsome
  exact ⟨_, complete_eq_ok_iff.2 ⟨hall, rfl⟩⟩

/-- What is missing in the end is the definition of the first node that has none. -/
theorem exists_undefined_of_complete {d : Draft} {e : SyntaxError} (h : d.complete = .error e) :
    ∃ defined node others, d.nodes = defined ++ node :: others ∧
      (∀ node ∈ defined, node.rule?.isSome) ∧ node.rule? = none ∧
      e = .undefinedNode node.name node.span := by
  have hnodes : ∀ nodes : List PendingNode, nodes.mapM finishNode = .error e →
      ∃ defined node others, nodes = defined ++ node :: others ∧
        (∀ node ∈ defined, node.rule?.isSome) ∧ node.rule? = none ∧
        e = .undefinedNode node.name node.span := by
    intro nodes hnodes
    induction nodes with
    | nil => cases hnodes
    | cons node nodes ih =>
      rw [List.mapM_cons, except_bind_eq_error_iff] at hnodes
      rcases hnodes with hnode | ⟨finished, hfinished, hrest⟩
      · -- Only a node without a rule is not finished.
        unfold finishNode at hnode
        split at hnode
        · cases hnode
        · rename_i hrule
          exact ⟨[], node, nodes, rfl, by simp, hrule, (Except.error.inj hnode).symm⟩
      · rw [except_bind_eq_error_iff] at hrest
        rcases hrest with hrest | ⟨others, -, hpure⟩
        · obtain ⟨defined, node', others, rfl, hdefined, hrule, he⟩ := ih hrest
          have hsome : node.rule?.isSome := by
            unfold finishNode at hfinished
            split at hfinished
            · rename_i hrule'
              simp [hrule']
            · cases hfinished
          exact ⟨node :: defined, node', others, rfl, List.forall_mem_cons.2 ⟨hsome, hdefined⟩,
            hrule, he⟩
        · cases hpure
  rw [complete, except_bind_eq_error_iff] at h
  rcases h with hfinish | ⟨finished, -, hpure⟩
  · exact hnodes d.nodes hfinish
  · cases hpure

theorem undefined_of_complete {d : Draft} {e : SyntaxError} (h : d.complete = .error e) :
    ∃ name span, e = .undefinedNode name span := by
  obtain ⟨-, node, -, -, -, -, he⟩ := exists_undefined_of_complete h
  exact ⟨node.name, node.span, he⟩

/-- A draft becomes a grammar exactly if its entries are coherent, and it is their grammar. -/
theorem Holds.complete_eq_ok_iff {d : Draft} {entries : List (String × NamedRule)}
    (h : d.Holds entries) (hdistinct : (entries.map Prod.fst).Nodup) {g : Grammar} :
    d.complete = .ok g ↔ Grammar.Coherent entries ∧ g = Grammar.ofEntries entries := by
  have hnodes : (d.nodes.filterMap fun node => node.rule?.map fun rule =>
      (⟨node.name, rule⟩ : Node)) = (Grammar.ofEntries entries).nodes := by
    rw [Grammar.ofEntries, ← h.names, Draft.names, List.filterMap_map]
    apply List.filterMap_congr
    intro node hnode
    rw [h.rules _ _ (List.prefix_refl _) (List.prefix_refl _) node hnode, h.names, h.tokens]
    simp [Grammar.handled, Option.map_map, Function.comp_def]
  have hall : (∀ node ∈ d.nodes, node.rule?.isSome) ↔ Grammar.Coherent entries := by
    constructor
    · intro hall
      refine ⟨hdistinct, ?_⟩
      intro entry hentry name hname
      have hmem : name ∈ d.names := by
        rw [h.names, Grammar.mem_entryNames_iff]
        exact ⟨entry, hentry, .inr hname⟩
      obtain ⟨node, hnode, rfl⟩ := List.mem_map.1 hmem
      exact (h.isSome_rule?_iff hnode).1 (hall node hnode)
    · intro hcoherent node hnode
      have hmem : node.name ∈ d.names := List.mem_map_of_mem hnode
      rw [h.names] at hmem
      exact (h.isSome_rule?_iff hnode).2 (hcoherent.mem_entryNames_iff.1 hmem)
  have hdefinitions : d.definitions = (Grammar.ofEntries entries).definitions := by
    rw [h.definitions, h.names]
    rfl
  have hgrammar : (⟨d.nodes.filterMap fun node => node.rule?.map fun rule => ⟨node.name, rule⟩,
      d.tokens, d.definitions⟩ : Grammar) = Grammar.ofEntries entries := by
    rw [hnodes, h.tokens, hdefinitions]
    rfl
  rw [Draft.complete_eq_ok_iff, hall, hgrammar]

end Draft

end TreeGrammar
