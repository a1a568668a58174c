import Mathlib.Data.List.Basic
import Mathlib.Data.List.Nodup
import TreeGrammar.Proofs.Leaves

/-! # Handles in the order of first sight

    Reading hands out a handle whenever a name is seen for the first time.
    This module says which handles these are, without following the reader.

    Key idea:
    - `seeAll` adds names to the end of a table, each one once, so an old
      table is a start of the new one and every handle stays good;
    - a handle is the place of a name in its table (`nodeHandle`,
      `tokenHandle`);
    - `Grammar.ofEntries` is the grammar of a list of names with their rules;
      its tables are filled in the order of first sight;
    - if every name has one rule, the grammar gives the list back
      (`Grammar.named_definedNodes_ofEntries`).
-/

namespace TreeGrammar

/-! ### Tables -/

/-- A table with one more name, at the end unless it is there already. -/
def see (table : List String) (name : String) : List String :=
  if name ∈ table then table else table ++ [name]

/-- A table with several more names. -/
def seeAll (table names : List String) : List String :=
  names.foldl see table

@[simp] theorem seeAll_nil (table : List String) : seeAll table [] = table := rfl

@[simp] theorem seeAll_cons (table : List String) (name : String) (names : List String) :
    seeAll table (name :: names) = seeAll (see table name) names := rfl

theorem seeAll_append (table names names' : List String) :
    seeAll table (names ++ names') = seeAll (seeAll table names) names' := by
  simp [seeAll]

theorem see_of_mem {table : List String} {name : String} (h : name ∈ table) :
    see table name = table := by
  simp [see, h]

theorem see_of_not_mem {table : List String} {name : String} (h : name ∉ table) :
    see table name = table ++ [name] := by
  simp [see, h]

@[simp] theorem mem_see_iff {table : List String} {name name' : String} :
    name' ∈ see table name ↔ name' ∈ table ∨ name' = name := by
  unfold see
  split
  · grind
  · simp

@[simp] theorem mem_seeAll_iff {table names : List String} {name : String} :
    name ∈ seeAll table names ↔ name ∈ table ∨ name ∈ names := by
  induction names generalizing table with
  | nil => simp
  | cons name' names ih => simp [ih, or_assoc]

theorem prefix_see (table : List String) (name : String) : table <+: see table name := by
  unfold see
  split
  · exact List.prefix_refl table
  · exact List.prefix_append table [name]

theorem prefix_seeAll (table names : List String) : table <+: seeAll table names := by
  induction names generalizing table with
  | nil => exact List.prefix_refl table
  | cons name names ih => exact (prefix_see table name).trans (ih (see table name))

theorem nodup_see {table : List String} (h : table.Nodup) (name : String) :
    (see table name).Nodup := by
  by_cases hmem : name ∈ table
  · rwa [see_of_mem hmem]
  · rw [see_of_not_mem hmem]
    exact List.Nodup.append h (List.nodup_singleton name) (by simpa using hmem)

theorem nodup_seeAll {table : List String} (h : table.Nodup) (names : List String) :
    (seeAll table names).Nodup := by
  induction names generalizing table with
  | nil => exact h
  | cons name names ih => exact ih (nodup_see h name)

theorem removeAll_append_singleton (names table : List String) (name : String) :
    names.removeAll (table ++ [name]) =
      (names.removeAll table).filter fun other => !other == name := by
  rw [List.removeAll, List.removeAll, List.filter_filter]
  apply List.filter_congr
  intro other _
  by_cases h : other ∈ table <;> by_cases h' : other = name <;> simp [h, h']

/-- New names come to the end of a table, each one where it is first seen. -/
theorem seeAll_eq_append (table names : List String) :
    seeAll table names = table ++ (names.removeAll table).eraseDups := by
  induction names generalizing table with
  | nil => simp
  | cons name names ih =>
    by_cases hmem : name ∈ table
    · have hcons : (name :: names).removeAll table = names.removeAll table := by
        simp [List.cons_removeAll, hmem]
      rw [seeAll_cons, see_of_mem hmem, ih, hcons]
    · -- From now on the name is in the table, so it is not entered again.
      have hcons : (name :: names).removeAll table = name :: names.removeAll table := by
        simp [List.cons_removeAll, hmem]
      rw [seeAll_cons, see_of_not_mem hmem, ih, hcons, List.eraseDups_cons,
        removeAll_append_singleton, List.append_assoc]
      rfl

theorem seeAll_nil_left (names : List String) : seeAll [] names = names.eraseDups := by
  rw [seeAll_eq_append, List.nil_append, List.removeAll_nil]

/-- First occurrences stay first occurrences if different things get different names. -/
theorem eraseDups_map {α β : Type} [BEq α] [LawfulBEq α] [BEq β] [LawfulBEq β] {f : α → β}
    {l : List α} (h : ∀ a ∈ l, ∀ b ∈ l, f a = f b → a = b) :
    (l.map f).eraseDups = l.eraseDups.map f := by
  induction hlength : l.length using Nat.strongRecOn generalizing l with
  | ind length ih =>
    cases l with
    | nil => simp
    | cons a l =>
      have hfilter : (l.map f).filter (fun b => !b == f a) =
          (l.filter fun b => !b == a).map f := by
        rw [List.filter_map]
        congr 1
        apply List.filter_congr
        intro b hb
        have hinj := h b (by simp [hb]) a (by simp)
        by_cases heq : b = a
        · simp [heq]
        · have hne : f b ≠ f a := fun hf => heq (hinj hf)
          simp [heq, hne]
      have hle := List.length_filter_le (fun b => !b == a) l
      rw [List.map_cons, List.eraseDups_cons, hfilter, List.eraseDups_cons, List.map_cons]
      congr 1
      refine ih _ ?_ ?_ rfl
      · simp only [List.length_cons] at hlength
        omega
      · intro b hb c hc
        exact h b (List.mem_cons_of_mem _ (List.mem_of_mem_filter hb)) c
          (List.mem_cons_of_mem _ (List.mem_of_mem_filter hc))

/-! ### Handles -/

/-- The handle of a node whose name is in a table. -/
def nodeHandle (table : List String) (name : String) : NodeId :=
  ⟨table.idxOf name⟩

/-- The handle of a token whose name is in a table. -/
def tokenHandle (table : List String) (name : String) : TokenId :=
  ⟨table.idxOf name⟩

/-- A handle is as good in a longer table. -/
theorem nodeHandle_eq_of_isPrefix {table table' : List String} (h : table <+: table')
    {name : String} (hmem : name ∈ table) : nodeHandle table' name = nodeHandle table name := by
  rw [nodeHandle, nodeHandle, h.idxOf_eq_of_mem hmem]

/-- A handle is as good in a longer table. -/
theorem tokenHandle_eq_of_isPrefix {table table' : List String} (h : table <+: table')
    {name : String} (hmem : name ∈ table) : tokenHandle table' name = tokenHandle table name := by
  rw [tokenHandle, tokenHandle, h.idxOf_eq_of_mem hmem]

theorem getElem?_idxOf {table : List String} {name : String} (h : name ∈ table) :
    table[table.idxOf name]? = some name := by
  have hlt := List.idxOf_lt_length_of_mem h
  rw [List.getElem?_eq_getElem hlt, List.getElem_idxOf hlt]

/-! ### Grammars of entries -/

namespace Grammar

/-- The names of a list of entries, each name before those of its rule. -/
def entryNames (entries : List (String × NamedRule)) : List String :=
  seeAll [] (entries.flatMap fun entry => entry.1 :: entry.2.nodeLeaves)

/-- The tokens of a list of entries. -/
def entryTokens (entries : List (String × NamedRule)) : List String :=
  seeAll [] (entries.flatMap fun entry => entry.2.tokenLeaves)

/-- A rule with the handles that a list of entries gives to its names. -/
def handled (entries : List (String × NamedRule)) (rule : NamedRule) : HandleRule :=
  rule.map (nodeHandle (entryNames entries)) (tokenHandle (entryTokens entries))

/-- The grammar of a list of names with their rules, in the order of their definitions. -/
def ofEntries (entries : List (String × NamedRule)) : Grammar where
  nodes := (entryNames entries).filterMap fun name =>
    (entries.lookup name).map fun rule => ⟨name, handled entries rule⟩
  tokens := entryTokens entries
  definitions := entries.map fun entry => nodeHandle (entryNames entries) entry.1

/-- Every name is defined once, and every name that a rule refers to is defined. -/
structure Coherent (entries : List (String × NamedRule)) : Prop where
  /-- No name is defined twice. -/
  distinct : (entries.map Prod.fst).Nodup
  /-- No rule refers to a name that is not defined. -/
  closed : ∀ entry ∈ entries, ∀ name ∈ entry.2.nodeLeaves, name ∈ entries.map Prod.fst

/-- A rule of a grammar with names in place of handles, where a handle out of range has none. -/
def resolved (g : Grammar) (rule : HandleRule) : Rule (Option String) (Option String) :=
  rule.map (fun id => (g.node? id).map Node.name) g.token?

theorem named_eq (g : Grammar) (rule : HandleRule) :
    g.named rule = (g.resolved rule).map (Option.getD · "") (Option.getD · "") := by
  rw [resolved, Rule.map_map]
  rfl

theorem mem_entryNames_iff {entries : List (String × NamedRule)} {name : String} :
    name ∈ entryNames entries ↔
      ∃ entry ∈ entries, name = entry.1 ∨ name ∈ entry.2.nodeLeaves := by
  simp [entryNames]

theorem mem_entryTokens_iff {entries : List (String × NamedRule)} {name : String} :
    name ∈ entryTokens entries ↔ ∃ entry ∈ entries, name ∈ entry.2.tokenLeaves := by
  simp [entryTokens]

theorem nodup_entryNames (entries : List (String × NamedRule)) : (entryNames entries).Nodup :=
  nodup_seeAll List.nodup_nil _

theorem lookup_isSome_iff {entries : List (String × NamedRule)} {name : String} :
    (entries.lookup name).isSome ↔ name ∈ entries.map Prod.fst := by
  induction entries with
  | nil => simp
  | cons entry entries ih =>
    obtain ⟨key, rule⟩ := entry
    by_cases h : name = key
    · simp [h]
    · have hbeq : (name == key) = false := beq_eq_false_iff_ne.2 h
      rw [List.lookup_cons, hbeq, List.map_cons, List.mem_cons, ih]
      simp [h]

theorem lookup_eq_some_of_mem {entries : List (String × NamedRule)}
    (h : (entries.map Prod.fst).Nodup) {name : String} {rule : NamedRule}
    (hmem : (name, rule) ∈ entries) : entries.lookup name = some rule := by
  induction entries with
  | nil => simp at hmem
  | cons entry entries ih =>
    obtain ⟨key, rule'⟩ := entry
    simp only [List.map_cons, List.nodup_cons] at h
    rcases List.mem_cons.1 hmem with heq | htail
    · obtain ⟨rfl, rfl⟩ := Prod.mk.inj heq
      simp
    · have hne : name ≠ key := by
        rintro rfl
        exact h.1 (List.mem_map.2 ⟨(name, rule), htail, rfl⟩)
      have hbeq : (name == key) = false := beq_eq_false_iff_ne.2 hne
      rw [List.lookup_cons, hbeq]
      exact ih h.2 htail

section Coherent

variable {entries : List (String × NamedRule)}

/-- In coherent entries every name that occurs is defined. -/
theorem Coherent.mem_entryNames_iff (h : Coherent entries) {name : String} :
    name ∈ entryNames entries ↔ name ∈ entries.map Prod.fst := by
  rw [Grammar.mem_entryNames_iff]
  constructor
  · intro hexists
    obtain ⟨entry, hmem, rfl | hname⟩ := hexists
    · exact List.mem_map_of_mem hmem
    · exact h.closed entry hmem name hname
  · intro hname
    obtain ⟨entry, hmem, rfl⟩ := List.mem_map.1 hname
    exact ⟨entry, hmem, .inl rfl⟩

/-- The node table of coherent entries has a node for each name. -/
theorem Coherent.nodes_ofEntries (h : Coherent entries) :
    (ofEntries entries).nodes = (entryNames entries).map fun name =>
      ⟨name, handled entries ((entries.lookup name).getD default)⟩ := by
  show (entryNames entries).filterMap _ = _
  rw [← List.filterMap_eq_map]
  apply List.filterMap_congr
  intro name hname
  -- Every name has a rule, so that none is dropped and handles are places in the node table.
  have hsome := lookup_isSome_iff.2 (h.mem_entryNames_iff.1 hname)
  obtain ⟨rule, hrule⟩ := Option.isSome_iff_exists.1 hsome
  simp [hrule]

theorem Coherent.names_ofEntries (h : Coherent entries) :
    (ofEntries entries).nodes.map Node.name = entryNames entries := by
  rw [h.nodes_ofEntries, List.map_map]
  exact List.map_id _

theorem Coherent.length_nodes_ofEntries (h : Coherent entries) :
    (ofEntries entries).nodes.length = (entryNames entries).length := by
  rw [← h.names_ofEntries, List.length_map]

theorem Coherent.node?_ofEntries (h : Coherent entries) {entry : String × NamedRule}
    (hmem : entry ∈ entries) :
    (ofEntries entries).node? (nodeHandle (entryNames entries) entry.1) =
      some ⟨entry.1, handled entries entry.2⟩ := by
  have hname : entry.1 ∈ entryNames entries := h.mem_entryNames_iff.2 (List.mem_map_of_mem hmem)
  rw [node?, h.nodes_ofEntries, nodeHandle, List.getElem?_map, getElem?_idxOf hname]
  simp [lookup_eq_some_of_mem h.distinct hmem]

theorem token?_ofEntries {name : String} (hname : name ∈ entryTokens entries) :
    (ofEntries entries).token? (tokenHandle (entryTokens entries) name) = some name :=
  getElem?_idxOf hname

/-- The handles that replace the names of an entry are in range and stand for these names. -/
theorem Coherent.resolved_handled (h : Coherent entries) {entry : String × NamedRule}
    (hmem : entry ∈ entries) :
    (ofEntries entries).resolved (handled entries entry.2) = entry.2.map some some := by
  rw [resolved, handled, Rule.map_map]
  apply Rule.map_congr
  intro leaf hleaf
  cases leaf with
  | inl name =>
    have hname : name ∈ entryNames entries :=
      Grammar.mem_entryNames_iff.2 ⟨entry, hmem, .inr (Rule.mem_nodeLeaves_iff.2 hleaf)⟩
    obtain ⟨definition, hdefinition, rfl⟩ := List.mem_map.1 (h.mem_entryNames_iff.1 hname)
    simp [h.node?_ofEntries hdefinition]
  | inr text =>
    have htext : text ∈ entryTokens entries :=
      mem_entryTokens_iff.2 ⟨entry, hmem, Rule.mem_tokenLeaves_iff.2 hleaf⟩
    simp [token?_ofEntries htext]

/-- Names replaced by handles and handles replaced by names again. -/
theorem Coherent.named_handled (h : Coherent entries) {entry : String × NamedRule}
    (hmem : entry ∈ entries) : (ofEntries entries).named (handled entries entry.2) = entry.2 := by
  rw [named_eq, h.resolved_handled hmem, Rule.map_map]
  exact Rule.map_id entry.2

/-- The definitions of a grammar of coherent entries are the nodes of these entries. -/
theorem Coherent.definedNodes_ofEntries (h : Coherent entries) :
    (ofEntries entries).definedNodes = entries.map fun entry =>
      (nodeHandle (entryNames entries) entry.1, ⟨entry.1, handled entries entry.2⟩) := by
  show (entries.map fun entry => nodeHandle (entryNames entries) entry.1).filterMap _ = _
  rw [List.filterMap_map, ← List.filterMap_eq_map]
  apply List.filterMap_congr
  intro entry hmem
  simp [h.node?_ofEntries hmem]

/-- The definitions of a grammar of coherent entries are these entries. -/
theorem Coherent.named_definedNodes_ofEntries (h : Coherent entries) :
    (ofEntries entries).definedNodes.map
      (fun definition => (definition.2.name, (ofEntries entries).named definition.2.rule)) =
        entries := by
  rw [h.definedNodes_ofEntries, List.map_map]
  calc entries.map _ = entries.map id := by
        apply List.map_congr_left
        intro entry hmem
        simp [h.named_handled hmem]
    _ = entries := List.map_id entries

/-- The nodes of a grammar of coherent entries are the defined names. -/
theorem Coherent.perm_names_ofEntries (h : Coherent entries) :
    ((ofEntries entries).nodes.map Node.name).Perm (entries.map Prod.fst) := by
  rw [h.names_ofEntries, List.perm_ext_iff_of_nodup (nodup_entryNames entries) h.distinct]
  intro name
  exact h.mem_entryNames_iff

end Coherent

end Grammar

end TreeGrammar
