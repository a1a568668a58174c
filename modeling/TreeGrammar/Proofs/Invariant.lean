import TreeGrammar.Proofs.Building
import TreeGrammar.Proofs.Watch

/-! # What holds at every moment

    The invariant of the reader: how the tables, their maps, the cursor, the
    counter and the active calls belong together.

    Key idea:
    - `Tables` is about the tables and the maps; entering a name and
      giving a node its rule preserve it;
    - `Level` is about the cursor, the counter and the active calls. A label
      or a parenthesis is open while the call that has read it is active, so
      that the counter is a number of active calls (`openCalls`);
    - of the open ones, the parentheses are those before the cursor that have
      no partner there (`Level.groups`);
    - `State.Sound` is both, and `Moment.Sound` adds what is handed back.
-/

namespace TreeGrammar

/-- Every handle of a rule is the place of a node or token that the draft has. -/
structure Draft.InRange (d : Draft) (rule : HandleRule) : Prop where
  /-- The nodes of the rule are there. -/
  nodes : ∀ id ∈ rule.nodeLeaves, id.index < d.nodes.length
  /-- The tokens of the rule are there. -/
  tokens : ∀ id ∈ rule.tokenLeaves, id.index < d.tokens.length

/-! ### Ranges -/

section Ranges

variable {d d' : Draft} {rule : HandleRule}

theorem Draft.InRange.mono (h : d.InRange rule) (hnodes : d.nodes.length ≤ d'.nodes.length)
    (htokens : d.tokens.length ≤ d'.tokens.length) : d'.InRange rule where
  nodes := fun id hid => Nat.lt_of_lt_of_le (h.nodes id hid) hnodes
  tokens := fun id hid => Nat.lt_of_lt_of_le (h.tokens id hid) htokens

/-- A rule is in range if all that its leaves come from are. -/
theorem Draft.InRange.of_leaves {rules : List HandleRule}
    (hleaves : rule.leaves = rules.flatMap Rule.leaves) (h : ∀ part ∈ rules, d.InRange part) :
    d.InRange rule := by
  refine ⟨fun id hid => ?_, fun id hid => ?_⟩
  · rw [Rule.mem_nodeLeaves_iff, hleaves, List.mem_flatMap] at hid
    obtain ⟨part, hpart, hid⟩ := hid
    exact (h part hpart).nodes id (Rule.mem_nodeLeaves_iff.2 hid)
  · rw [Rule.mem_tokenLeaves_iff, hleaves, List.mem_flatMap] at hid
    obtain ⟨part, hpart, hid⟩ := hid
    exact (h part hpart).tokens id (Rule.mem_tokenLeaves_iff.2 hid)

theorem Draft.InRange.around {rule' : HandleRule} (h : d.InRange rule)
    (hleaves : rule'.leaves = rule.leaves) : d.InRange rule' :=
  .of_leaves (show rule'.leaves = [rule].flatMap Rule.leaves by simp [hleaves]) (by simpa using h)

theorem Draft.inRange_node_iff {id : NodeId} :
    d.InRange (.node id) ↔ id.index < d.nodes.length := by
  constructor
  · exact fun h => h.nodes id (by simp [Rule.leaves])
  · exact fun h => ⟨by simpa [Rule.leaves] using h, by simp [Rule.leaves]⟩

theorem Draft.inRange_token_iff {id : TokenId} :
    d.InRange (.token id) ↔ id.index < d.tokens.length := by
  constructor
  · exact fun h => h.tokens id (by simp [Rule.leaves])
  · exact fun h => ⟨by simp [Rule.leaves], by simpa [Rule.leaves] using h⟩

/-- Only the node that gets a rule changes. -/
theorem Draft.getElem?_nodes_define (d : Draft) (id : NodeId) (name : String) (rule : HandleRule)
    (other : NodeId) :
    (d.define id name rule).nodes[other.index]? = (d.nodes[other.index]?).map fun node =>
      if id = other then { node with rule? := some rule } else node := by
  show (d.nodes.modify id.index _)[other.index]? = _
  rw [List.getElem?_modify]
  cases d.nodes[other.index]? with
  | none => rfl
  | some node =>
    by_cases heq : id = other
    · simp [heq]
    · have hne : id.index ≠ other.index := fun hidx => heq (by cases id; cases other; simp_all)
      simp [heq, hne]

end Ranges

namespace Watch

/-! ### The invariant -/

/-- Whether a parenthesis or a label starts at a place. -/
def opensAt (tokens : List Token) (pos : Nat) : Bool :=
  kindAt? tokens pos = some .openParen ||
    (kindAt? tokens pos = some .name && kindAt? tokens (pos + 1) = some .colon)

/-- How many active calls have read a parenthesis or a label that is still open. -/
def openCalls (tokens : List Token) (callers : List Call) : Nat :=
  callers.countP fun call => call.site = .atom && opensAt tokens call.start

/-- How many active calls have read a parenthesis that is still open. -/
def openGroups (tokens : List Token) (callers : List Call) : Nat :=
  callers.countP fun call => call.site = .atom && kindAt? tokens call.start = some .openParen

/-- How many tokens of a kind are before a place. -/
def countBefore (tokens : List Token) (kind : TokenKind) (pos : Nat) : Nat :=
  (tokens.take pos).countP (·.kind = kind)

/-- How the cursor and the counter belong to the active calls. -/
structure Level (tokens : List Token) (pos depth : Nat) (callers : List Call) : Prop where
  /-- The cursor is not behind the end of the tokens. -/
  pos_le : pos ≤ tokens.length
  /-- The counter is the number of parentheses and labels that are open. -/
  depth_eq : depth = openCalls tokens callers
  /-- Not too many are open. -/
  depth_le : depth ≤ maxNesting
  /-- The open parentheses are those before the cursor that no parenthesis closes. -/
  groups : countBefore tokens .openParen pos =
    countBefore tokens .closeParen pos + openGroups tokens callers
  /-- An atom that is being read starts before the cursor. -/
  passed : ∀ call ∈ callers, call.site = .atom → call.start < pos

/-- How the tables, their maps and the rules that are held belong together. -/
structure Tables (d : Draft) (nodeNames : Std.HashMap String NodeId)
    (tokenNames : Std.HashMap String TokenId) (held : List HandleRule) : Prop where
  /-- The map has a name with a handle exactly if the node with this handle has this name. -/
  nodeNames : ∀ name (id : NodeId), nodeNames[name]? = some id ↔
    (d.nodes[id.index]?).map PendingNode.name = some name
  /-- The map has a name with a handle exactly if this is the token with this handle. -/
  tokenNames : ∀ name (id : TokenId), tokenNames[name]? = some id ↔ d.tokens[id.index]? = some name
  /-- The handles of every rule in the table are in range. -/
  stored : ∀ node ∈ d.nodes, ∀ rule ∈ node.rule?, d.InRange rule
  /-- The handles of every rule that is held are in range. -/
  held : ∀ rule ∈ held, d.InRange rule
  /-- No node is defined twice. -/
  nodup : d.definitions.Nodup
  /-- The defined nodes are those that have a rule. -/
  defined : ∀ id : NodeId, id ∈ d.definitions ↔
    ∃ node, d.nodes[id.index]? = some node ∧ node.rule?.isSome

/-- The invariant of a state. -/
structure State.Sound (tokens : List Token) (st : State) : Prop where
  /-- The tables are in order. -/
  tables : Tables st.draft st.nodeNames st.tokenNames st.held
  /-- The cursor and the counter are in order. -/
  level : Level tokens st.pos st.depth st.callers

/-- The rules that are handed back at a moment. -/
def Phase.rules : Phase → List HandleRule
  | .call => []
  | .back rules => rules

/-- The invariant of a moment: its state is sound, and the handles of what is handed back are in
    range. -/
structure Moment.Sound (tokens : List Token) (m : Moment) : Prop where
  /-- The state is sound. -/
  state : m.state.Sound tokens
  /-- What is handed back is in range. -/
  built : ∀ rule ∈ m.phase.rules, m.state.draft.InRange rule

/-! ### Levels -/

section Level

variable {tokens : List Token} {pos depth start : Nat} {callers : List Call} {t : Token}

theorem kindAt?_eq_some_iff {kind : TokenKind} :
    kindAt? tokens pos = some kind ↔ ∃ t, tokens[pos]? = some t ∧ t.kind = kind :=
  Option.map_eq_some_iff

theorem lt_length_of_getElem? (ht : tokens[pos]? = some t) : pos < tokens.length :=
  (List.getElem?_eq_some_iff.1 ht).1

theorem countBefore_succ (ht : tokens[pos]? = some t) (kind : TokenKind) :
    countBefore tokens kind (pos + 1) =
      countBefore tokens kind pos + if t.kind = kind then 1 else 0 := by
  rw [countBefore, List.take_add_one, ht, List.countP_append]
  by_cases h : t.kind = kind <;> simp [countBefore, h]

theorem openCalls_cons (call : Call) :
    openCalls tokens (call :: callers) = openCalls tokens callers +
      if call.site = .atom ∧ opensAt tokens call.start = true then 1 else 0 := by
  simp [openCalls, List.countP_cons]

theorem openGroups_cons (call : Call) :
    openGroups tokens (call :: callers) = openGroups tokens callers +
      if call.site = .atom ∧ kindAt? tokens call.start = some .openParen then 1 else 0 := by
  simp [openGroups, List.countP_cons]

/-- Nothing is open at the start. -/
theorem level_start (tokens : List Token) : Level tokens 0 0 [] where
  pos_le := Nat.zero_le _
  depth_eq := rfl
  depth_le := Nat.zero_le _
  groups := rfl
  passed := by simp

/-- Only parentheses and the colons of labels change what is open. -/
theorem Level.next (h : Level tokens pos depth callers) (ht : tokens[pos]? = some t)
    (hopen : t.kind ≠ .openParen) (hclose : t.kind ≠ .closeParen) :
    Level tokens (pos + 1) depth callers where
  pos_le := lt_length_of_getElem? ht
  depth_eq := h.depth_eq
  depth_le := h.depth_le
  groups := by
    rw [countBefore_succ ht, countBefore_succ ht, if_neg hopen, if_neg hclose]
    exact h.groups
  passed := fun call hcall hsite => Nat.lt_succ_of_lt (h.passed call hcall hsite)

/-- An active call does not count if it has read neither a parenthesis nor a label. -/
theorem openCalls_cons_of_not (callers : List Call) {call : Call}
    (hcall : call.site = .atom → opensAt tokens call.start = false) :
    openCalls tokens (call :: callers) = openCalls tokens callers ∧
      openGroups tokens (call :: callers) = openGroups tokens callers := by
  have hnot : ¬ (call.site = .atom ∧ opensAt tokens call.start = true) := by
    intro h
    have := hcall h.1
    rw [h.2] at this
    cases this
  have hnotGroup : ¬ (call.site = .atom ∧ kindAt? tokens call.start = some .openParen) := by
    intro h
    exact hnot ⟨h.1, by simp [opensAt, h.2]⟩
  rw [openCalls_cons, openGroups_cons, if_neg hnot, if_neg hnotGroup]
  exact ⟨rfl, rfl⟩

theorem Level.push {call : Call} (h : Level tokens pos depth callers)
    (hcall : call.site = .atom → opensAt tokens call.start = false)
    (hstart : call.site = .atom → call.start < pos) :
    Level tokens pos depth (call :: callers) := by
  obtain ⟨hcalls, hgroups⟩ := openCalls_cons_of_not callers hcall
  exact ⟨h.pos_le, hcalls ▸ h.depth_eq, h.depth_le, hgroups ▸ h.groups,
    List.forall_mem_cons.2 ⟨hstart, h.passed⟩⟩

theorem Level.pop {call : Call} (h : Level tokens pos depth (call :: callers))
    (hcall : call.site = .atom → opensAt tokens call.start = false) :
    Level tokens pos depth callers := by
  obtain ⟨hcalls, hgroups⟩ := openCalls_cons_of_not callers hcall
  exact ⟨h.pos_le, hcalls ▸ h.depth_eq, h.depth_le, hgroups ▸ h.groups,
    fun other hother => h.passed other (List.mem_cons_of_mem _ hother)⟩

/-- Behind a label, one more is open. -/
theorem Level.label (h : Level tokens pos depth callers) (ht : kindAt? tokens pos = some .name)
    (hu : kindAt? tokens (pos + 1) = some .colon) (hlt : depth < maxNesting) :
    Level tokens (pos + 2) (depth + 1) (⟨.atom, pos⟩ :: callers) := by
  obtain ⟨t, ht', hkind⟩ := kindAt?_eq_some_iff.1 ht
  obtain ⟨u, hu', hkind'⟩ := kindAt?_eq_some_iff.1 hu
  have hbehind := (h.next ht' (by simp [hkind]) (by simp [hkind])).next hu' (by simp [hkind'])
    (by simp [hkind'])
  refine ⟨hbehind.pos_le, ?_, hlt, ?_, ?_⟩
  · rw [openCalls_cons, if_pos ⟨rfl, by simp [opensAt, ht, hu]⟩, h.depth_eq]
  · -- A label is no parenthesis, and neither are its tokens.
    rw [openGroups_cons, if_neg (by simp [ht]), Nat.add_zero]
    exact hbehind.groups
  · exact List.forall_mem_cons.2 ⟨fun _ => Nat.lt_add_of_pos_right (by decide), hbehind.passed⟩

/-- When the atom behind a label has been read, the label is not open any more. -/
theorem Level.unlabel (h : Level tokens pos (depth + 1) (⟨.atom, start⟩ :: callers))
    (ht : kindAt? tokens start = some .name) (hu : kindAt? tokens (start + 1) = some .colon) :
    Level tokens pos depth callers := by
  have hdepth := h.depth_eq
  have hgroups := h.groups
  rw [openCalls_cons, if_pos ⟨rfl, by simp [opensAt, ht, hu]⟩] at hdepth
  rw [openGroups_cons, if_neg (by simp [ht]), Nat.add_zero] at hgroups
  exact ⟨h.pos_le, Nat.succ.inj hdepth, Nat.le_of_succ_le h.depth_le, hgroups,
    fun call hcall => h.passed call (List.mem_cons_of_mem _ hcall)⟩

/-- Behind an opening parenthesis, one more is open. -/
theorem Level.group (h : Level tokens pos depth callers)
    (ht : kindAt? tokens pos = some .openParen) (hlt : depth < maxNesting) :
    Level tokens (pos + 1) (depth + 1) (⟨.atom, pos⟩ :: callers) := by
  obtain ⟨t, ht', hkind⟩ := kindAt?_eq_some_iff.1 ht
  refine ⟨lt_length_of_getElem? ht', ?_, hlt, ?_, ?_⟩
  · rw [openCalls_cons, if_pos ⟨rfl, by simp [opensAt, ht]⟩, h.depth_eq]
  · have hgroups := h.groups
    rw [openGroups_cons, if_pos ⟨rfl, ht⟩, countBefore_succ ht', countBefore_succ ht',
      if_pos hkind, if_neg (by simp [hkind])]
    omega
  · exact List.forall_mem_cons.2 ⟨fun _ => Nat.lt_succ_self pos,
      fun call hcall hsite => Nat.lt_succ_of_lt (h.passed call hcall hsite)⟩

/-- Behind the closing parenthesis, it is not open any more. -/
theorem Level.ungroup (h : Level tokens pos (depth + 1) (⟨.atom, start⟩ :: callers))
    (ht : kindAt? tokens start = some .openParen) (hu : kindAt? tokens pos = some .closeParen) :
    Level tokens (pos + 1) depth callers := by
  obtain ⟨u, hu', hkind⟩ := kindAt?_eq_some_iff.1 hu
  have hdepth := h.depth_eq
  have hgroups := h.groups
  rw [openCalls_cons, if_pos ⟨rfl, by simp [opensAt, ht]⟩] at hdepth
  rw [openGroups_cons, if_pos ⟨rfl, ht⟩] at hgroups
  refine ⟨lt_length_of_getElem? hu', Nat.succ.inj hdepth, Nat.le_of_succ_le h.depth_le, ?_, ?_⟩
  · rw [countBefore_succ hu', countBefore_succ hu', if_neg (by simp [hkind]), if_pos hkind]
    omega
  · intro call hcall hsite
    exact Nat.lt_succ_of_lt (h.passed call (List.mem_cons_of_mem _ hcall) hsite)

end Level

/-! ### Maps of tables -/

section Indexes

variable {α : Type} {map : Std.HashMap String α} {index : α → Nat} {mk : Nat → α}
  {table : List String}

/-- A map gives the place of every name in a table, and has no other name. -/
def Indexes (map : Std.HashMap String α) (index : α → Nat) (table : List String) : Prop :=
  ∀ name id, map[name]? = some id ↔ table[index id]? = some name

/-- A name that the map does not have can be entered. -/
theorem Indexes.insert (h : Indexes map index table) {name : String} (hnone : map[name]? = none)
    (hindex : ∀ i, index (mk i) = i) (hmk : ∀ id, mk (index id) = id) :
    Indexes (map.insert name (mk table.length)) index (table ++ [name]) := by
  intro other id
  rw [Std.HashMap.getElem?_insert]
  rcases Nat.lt_trichotomy (index id) table.length with hlt | heq | hgt
  · rw [List.getElem?_append_left hlt, ← h other id]
    by_cases hname : name = other
    · -- The old table does not have the name.
      subst hname
      have hne : mk table.length ≠ id := by
        intro hid
        have := congrArg index hid
        rw [hindex] at this
        omega
      simp [hnone, hne]
    · simp [hname]
  · have hnot : ¬ map[other]? = some id := by
      rw [h other id, heq, List.getElem?_eq_none (Nat.le_refl _)]
      simp
    have hid : mk table.length = id := by rw [← heq, hmk]
    by_cases hname : name = other
    · simp [hname, heq, hid]
    · simp [hname, heq, hnot]
  · have hnot : ¬ map[other]? = some id := by
      rw [h other id, List.getElem?_eq_none (Nat.le_of_lt hgt)]
      simp
    have hnone' : (table ++ [name])[index id]? = none :=
      List.getElem?_eq_none (by simpa using Nat.succ_le_of_lt hgt)
    have hid : mk table.length ≠ id := by
      intro hid
      have := congrArg index hid
      rw [hindex] at this
      omega
    rw [hnone']
    by_cases hname : name = other
    · simp [hname, hid]
    · simp [hname, hnot]

/-- A table that a map indexes has no name twice. -/
theorem Indexes.nodup (h : Indexes map index table) (hindex : ∀ i, index (mk i) = i) :
    table.Nodup := by
  rw [List.nodup_iff_getElem?_ne_getElem?]
  intro i j hlt hj heq
  have hname := List.getElem?_eq_getElem hj
  have hi := (h table[j] (mk i)).2 (by rw [hindex, heq, hname])
  have hj := (h table[j] (mk j)).2 (by rw [hindex, hname])
  rw [hi] at hj
  have := congrArg index (Option.some.inj hj)
  rw [hindex, hindex] at this
  omega

/-- The map finds what a search of the table finds. -/
theorem Indexes.getElem?_eq (h : Indexes map index table) (hindex : ∀ i, index (mk i) = i)
    (hmk : ∀ id, mk (index id) = id) (name : String) :
    map[name]? = (table.findIdx? (· = name)).map mk := by
  cases hmap : map[name]? with
  | none =>
    have hnot : name ∉ table := by
      intro hmem
      obtain ⟨i, hi⟩ := List.mem_iff_getElem?.1 hmem
      have := (h name (mk i)).2 (by rw [hindex, hi])
      rw [hmap] at this
      cases this
    rw [Draft.findIdx?_eq_none hnot]
    rfl
  | some id =>
    rw [Draft.findIdx?_of_nodup (h.nodup hindex) ((h name id).1 hmap)]
    exact congrArg some (hmk id).symm

end Indexes

/-! ### Tables -/

namespace Tables

variable {d : Draft} {nodeNames : Std.HashMap String NodeId}
  {tokenNames : Std.HashMap String TokenId} {held rules : List HandleRule} {name : String}

/-- Nothing is entered at the start. -/
theorem empty : Tables {} {} {} [] where
  nodeNames := by simp
  tokenNames := by simp
  stored := by simp
  held := by simp
  nodup := List.nodup_nil
  defined := by simp

theorem indexes_nodes (h : Tables d nodeNames tokenNames held) :
    Indexes nodeNames NodeId.index d.names := by
  intro name id
  rw [h.nodeNames, Draft.names, List.getElem?_map]

theorem getElem?_nodeNames (h : Tables d nodeNames tokenNames held) (name : String) :
    nodeNames[name]? = d.findNode? name := by
  rw [Draft.findNode?_eq]
  exact h.indexes_nodes.getElem?_eq (fun _ => rfl) (fun _ => rfl) name

theorem getElem?_tokenNames (h : Tables d nodeNames tokenNames held) (name : String) :
    tokenNames[name]? = d.findToken? name :=
  Indexes.getElem?_eq h.tokenNames (fun _ => rfl) (fun _ => rfl) name

theorem nodup_names (h : Tables d nodeNames tokenNames held) : d.names.Nodup :=
  h.indexes_nodes.nodup fun i => (rfl : NodeId.index ⟨i⟩ = i)

theorem nodup_tokens (h : Tables d nodeNames tokenNames held) : d.tokens.Nodup :=
  Indexes.nodup h.tokenNames fun i => (rfl : TokenId.index ⟨i⟩ = i)

/-- A name is defined if the map has it with the handle of a node that has a rule. -/
theorem isDefined_iff (h : Tables d nodeNames tokenNames held) {id : NodeId} {node : PendingNode}
    (hname : nodeNames[name]? = some id) (hnode : d.nodes[id.index]? = some node) :
    d.isDefined name = true ↔ node.rule?.isSome = true := by
  simp only [Draft.isDefined, List.any_eq_true, Bool.and_eq_true, decide_eq_true_eq]
  constructor
  · intro hexists
    obtain ⟨other, hother, hothername, hsome⟩ := hexists
    obtain ⟨i, hi⟩ := List.mem_iff_getElem?.1 hother
    have hmap := (h.nodeNames name ⟨i⟩).2 (by simp [hi, hothername])
    rw [hname] at hmap
    obtain rfl := Option.some.inj hmap
    rw [hnode] at hi
    obtain rfl := Option.some.inj hi
    exact hsome
  · intro hsome
    have hnodename := (h.nodeNames name id).1 hname
    rw [hnode] at hnodename
    exact ⟨node, List.mem_of_getElem? hnode, Option.some.inj hnodename, hsome⟩

/-- A name that the map does not have is not defined. -/
theorem isDefined_eq_false (h : Tables d nodeNames tokenNames held)
    (hname : nodeNames[name]? = none) : d.isDefined name = false := by
  rw [Draft.isDefined, List.any_eq_false]
  intro node hnode
  obtain ⟨i, hi⟩ := List.mem_iff_getElem?.1 hnode
  have hne : node.name ≠ name := by
    rintro rfl
    have hmap := (h.nodeNames node.name ⟨i⟩).2 (by simp [hi])
    rw [hname] at hmap
    cases hmap
  simp [hne]

/-- More rules can be held. -/
theorem hold (h : Tables d nodeNames tokenNames held) (hrules : ∀ rule ∈ rules, d.InRange rule) :
    Tables d nodeNames tokenNames (rules ++ held) :=
  { h with
    held := fun rule hrule => (List.mem_append.1 hrule).elim (hrules rule) (h.held rule) }

/-- Rules that are in range can be held in place of others. -/
theorem release (h : Tables d nodeNames tokenNames rules) (hheld : ∀ rule ∈ held, d.InRange rule) :
    Tables d nodeNames tokenNames held :=
  { h with held := hheld }

/-- What is logged does not matter. -/
theorem withLog (h : Tables d nodeNames tokenNames held) (log : Array Event) :
    Tables { d with log } nodeNames tokenNames held where
  nodeNames := h.nodeNames
  tokenNames := h.tokenNames
  stored := fun node hnode rule hrule =>
    (h.stored node hnode rule hrule).mono (Nat.le_refl _) (Nat.le_refl _)
  held := fun rule hrule => (h.held rule hrule).mono (Nat.le_refl _) (Nat.le_refl _)
  nodup := h.nodup
  defined := h.defined

/-- A node with a new name can be entered. -/
theorem internNode (h : Tables d nodeNames tokenNames held) (hnone : nodeNames[name]? = none)
    (span : Span) (log : Array Event) :
    Tables { d with nodes := d.nodes ++ [⟨name, span, none⟩], log }
      (nodeNames.insert name ⟨d.nodes.length⟩) tokenNames held where
  nodeNames := by
    have hindexes := h.indexes_nodes.insert hnone (fun i => (rfl : NodeId.index ⟨i⟩ = i))
      fun _ => rfl
    intro other id
    have := hindexes other id
    rw [Draft.names, List.length_map] at this
    rw [this, ← List.getElem?_map, List.map_append]
    rfl
  tokenNames := h.tokenNames
  stored := by
    intro node hnode rule hrule
    rcases List.mem_append.1 hnode with hold | hnew
    · exact (h.stored node hold rule hrule).mono (by simp) (Nat.le_refl _)
    · obtain rfl := List.mem_singleton.1 hnew
      cases hrule
  held := fun rule hrule => (h.held rule hrule).mono (by simp) (Nat.le_refl _)
  nodup := h.nodup
  defined := by
    intro id
    rw [h.defined]
    constructor
    · intro hexists
      obtain ⟨node, hnode, hsome⟩ := hexists
      have hlt := (List.getElem?_eq_some_iff.1 hnode).1
      exact ⟨node, by rw [List.getElem?_append_left hlt, hnode], hsome⟩
    · intro hexists
      obtain ⟨node, hnode, hsome⟩ := hexists
      by_cases hlt : id.index < d.nodes.length
      · exact ⟨node, by rw [← hnode, List.getElem?_append_left hlt], hsome⟩
      · -- The new node has no rule.
        rw [List.getElem?_append_right (Nat.le_of_not_lt hlt)] at hnode
        obtain rfl := List.mem_singleton.1 (List.mem_of_getElem? hnode)
        cases hsome

/-- A token with a new name can be entered. -/
theorem internToken (h : Tables d nodeNames tokenNames held) (hnone : tokenNames[name]? = none)
    (log : Array Event) :
    Tables { d with tokens := d.tokens ++ [name], log } nodeNames
      (tokenNames.insert name ⟨d.tokens.length⟩) held where
  nodeNames := h.nodeNames
  tokenNames := Indexes.insert h.tokenNames hnone (fun i => (rfl : TokenId.index ⟨i⟩ = i))
    fun _ => rfl
  stored := fun node hnode rule hrule =>
    (h.stored node hnode rule hrule).mono (Nat.le_refl _) (by simp)
  held := fun rule hrule => (h.held rule hrule).mono (Nat.le_refl _) (by simp)
  nodup := h.nodup
  defined := h.defined

/-- A node without a rule is not defined. -/
theorem not_mem_definitions (h : Tables d nodeNames tokenNames held) {id : NodeId}
    {node : PendingNode} (hnode : d.nodes[id.index]? = some node) (hnone : node.rule? = none) :
    id ∉ d.definitions := by
  rw [h.defined]
  rintro ⟨node', hnode', hsome⟩
  rw [hnode] at hnode'
  obtain rfl := Option.some.inj hnode'
  rw [hnone] at hsome
  cases hsome

/-- A node without a rule can get one. -/
theorem define (h : Tables d nodeNames tokenNames held) {id : NodeId} {node : PendingNode}
    (hnode : d.nodes[id.index]? = some node) (hnone : node.rule? = none) {rule : HandleRule}
    (hrule : d.InRange rule) (name : String) :
    Tables (d.define id name rule) nodeNames tokenNames held := by
  have hlength : (d.define id name rule).nodes.length = d.nodes.length := List.length_modify _ _ _
  have hmono : ∀ other, d.InRange other → (d.define id name rule).InRange other :=
    fun other hother => hother.mono (Nat.le_of_eq hlength.symm) (Nat.le_refl _)
  -- It has not been defined before, so no node is defined twice.
  have hnot := h.not_mem_definitions hnode hnone
  refine ⟨?_, h.tokenNames, ?_, fun other hother => hmono other (h.held other hother), ?_, ?_⟩
  · intro other id'
    rw [h.nodeNames, Draft.getElem?_nodes_define, Option.map_map]
    cases d.nodes[id'.index]? with
    | none => rfl
    | some node' =>
      show _ ↔ some (if id = id' then _ else node').name = _
      split <;> rfl
  · intro node' hnode' rule' hrule'
    obtain ⟨i, hi⟩ := List.mem_iff_getElem?.1 hnode'
    have hi' := Draft.getElem?_nodes_define d id name rule ⟨i⟩
    rw [hi] at hi'
    obtain ⟨old, hold, heq⟩ := Option.map_eq_some_iff.1 hi'.symm
    by_cases hid : id = ⟨i⟩
    · rw [if_pos hid] at heq
      rw [← heq] at hrule'
      obtain rfl := Option.some.inj hrule'
      exact hmono _ hrule
    · rw [if_neg hid] at heq
      subst heq
      exact hmono _ (h.stored old (List.mem_of_getElem? hold) rule' hrule')
  · show (d.definitions ++ [id]).Nodup
    rw [List.nodup_append]
    refine ⟨h.nodup, List.nodup_singleton id, ?_⟩
    rintro other hother _ hid rfl
    obtain rfl := List.mem_singleton.1 hid
    exact hnot hother
  · intro other
    show other ∈ d.definitions ++ [id] ↔ _
    rw [List.mem_append, List.mem_singleton, h.defined, Draft.getElem?_nodes_define]
    by_cases heq : id = other
    · subst heq
      simp [hnode]
    · simp [heq, Ne.symm heq]

/-- If all nodes have a rule, there are as many definitions as nodes. -/
theorem length_definitions (h : Tables d nodeNames tokenNames held)
    (hall : ∀ node ∈ d.nodes, node.rule?.isSome) : d.nodes.length = d.definitions.length := by
  -- Both lists have the handles of all nodes, and none of them twice.
  have hperm : d.definitions.Perm ((List.range d.nodes.length).map NodeId.mk) := by
    rw [List.perm_ext_iff_of_nodup h.nodup
      (List.nodup_range.map fun i j hij => NodeId.mk.inj hij)]
    intro id
    rw [h.defined, List.mem_map]
    constructor
    · intro hexists
      obtain ⟨node, hnode, -⟩ := hexists
      exact ⟨id.index, List.mem_range.2 (List.getElem?_eq_some_iff.1 hnode).1, rfl⟩
    · intro hexists
      obtain ⟨i, hi, rfl⟩ := hexists
      have hget := List.getElem?_eq_getElem (List.mem_range.1 hi)
      exact ⟨_, hget, hall _ (List.mem_of_getElem? hget)⟩
  rw [hperm.length_eq, List.length_map, List.length_range]

end Tables

end Watch

end TreeGrammar
