import TreeGrammar.Proofs.Acceptance
import TreeGrammar.Proofs.Watched

/-! # No fault under watch

    Definitions and whole grammars under watch, and what follows for every
    list of tokens.

    Key idea:
    - a definition starts where nothing is open, and it gives a rule to a node
      that has none (`behindHead_agrees`), also if the node was entered long
      before;
    - the loop over the definitions ends by induction on its bound, since each
      definition takes a token;
    - when all nodes have their rule, the defined nodes are all nodes, each
      once, so that the lengths of the tables agree (`finish_agrees`).
-/

namespace TreeGrammar

namespace Watch

variable {tokens : List Token} {s : ReadState} {w : World}

/-! ### Definitions -/

/-- The node that was entered has the handle that is handed back. -/
theorem named_of_internNode {name : String} {span : Span} {id : NodeId} {s' : ReadState}
    (h : ReadM.internNode name span s = .ok id s') :
    (s'.draft.nodes[id.index]?).map PendingNode.name = some name := by
  have hmem : name ∈ (s.draft.internNode name span).2.names := by
    rw [(s.draft.grows_internNode name span).names]
    simp
  have hget := getElem?_idxOf hmem
  rw [Draft.names, List.getElem?_map] at hget
  have hhandle := Draft.internNode_fst s.draft name span
  obtain ⟨rfl, rfl⟩ := EStateM.Result.ok.inj h
  exact (congrArg (fun id : NodeId => ((s.draft.internNode name span).2.nodes[id.index]?).map
    PendingNode.name) hhandle).trans hget

/-- A rule is given to a node that has none. -/
theorem define_agrees (h : Along tokens s w) {id : NodeId} {pending : PendingNode}
    {rule : HandleRule} (hpending : w.state.draft.nodes[id.index]? = some pending)
    (hnone : pending.rule? = none) (hrule : w.state.draft.InRange rule) (name : String) :
    Agrees tokens (fun _ w' => w' = { w with state.draft := w.state.draft.define id name rule })
      (ReadM.define id name rule s) (define id name rule w) := by
  refine agrees_ok rfl (bind_of_ok (nodeAt_of_getElem? hpending) _) ⟨?_, h.rest, ?_, h.moments⟩ rfl
  · exact h.tables.define hpending hnone hrule name
  · exact congrArg (Draft.define · id name rule) h.draft

/-- The rule of a node that has none is read, and given to the node. -/
theorem body_agrees {scope : Scope} {id : NodeId} (hready : Ready tokens scope id maxNesting s w)
    {pending : PendingNode} (hpending : w.state.draft.nodes[id.index]? = some pending)
    (hnone : pending.rule? = none) :
    Agrees tokens (fun _ w' => Ends tokens w w.state.callers [] w')
      ((ReadM.rule scope (ReadM.atom? scope maxNesting) >>= ReadM.define id scope.node) s)
      ((rule tokens id (atom? tokens id maxNesting) >>= define id scope.node) w) := by
  refine (rule_follows (atom?_follows maxNesting) (ReadM.advances_atom? scope maxNesting)
    (ReadM.advances_alternative? scope maxNesting) s w hready).bind ?_
  intro body s' w' _ halong hmakes
  refine (define_agrees halong (hmakes.grows.getElem?_nodes hpending) hnone
    (hmakes.inRange body (by simp)) scope.node).mono ?_
  rintro _ _ rfl
  exact ⟨hmakes.callers, hmakes.held, hmakes.depth, hmakes.level, by simp⟩

/-- A second definition of a name is refused. Otherwise the rule of its node is read. -/
theorem behindHead_agrees {id : NodeId} {name : String} (span : Span)
    (hready : Ready tokens ⟨name, Grammar.stopOf tokens⟩ id maxNesting s w) :
    Agrees tokens (fun _ w' => Ends tokens w w.state.callers [] w')
      ((ReadM.checkNew name span >>= fun _ =>
        ReadM.rule ⟨name, Grammar.stopOf tokens⟩
          (ReadM.atom? ⟨name, Grammar.stopOf tokens⟩ maxNesting) >>= ReadM.define id name) s)
      ((do
        let node ← nodeAt id
        if node.rule?.isSome then refuse (.duplicateNode node.name span)
        let body ← rule tokens id (atom? tokens id maxNesting)
        define id name body : WatchM Unit) w) := by
  obtain ⟨pending, hpending, hname⟩ := Option.map_eq_some_iff.1 hready.named
  -- By the map, the node with the name is the one with the handle, so both see the same rule.
  have hdefined := hready.tables.isDefined_iff ((hready.tables.nodeNames _ _).2 hready.named) hpending
  rw [← hready.draft] at hdefined
  rw [bind_of_ok (nodeAt_of_getElem? hpending)]
  by_cases hsome : pending.rule?.isSome = true
  · have hcheck : ReadM.checkNew name span s = .error (.duplicateNode name span) s :=
      if_pos (hdefined.2 hsome)
    rw [if_pos hsome, hname]
    exact agrees_error (bind_of_error hcheck _) rfl hready.draft hready.moments
  · have hcheck : ReadM.checkNew name span s = .ok () s := if_neg (mt hdefined.1 hsome)
    rw [if_neg hsome, bind_of_ok hcheck]
    exact body_agrees hready hpending (Option.not_isSome_iff_eq_none.1 hsome)

/-- A definition is read where nothing is open. -/
theorem definition_agrees (h : Along tokens s w)
    (hlevel : Level tokens w.state.pos w.state.depth w.state.callers)
    (hdepth : w.state.depth = 0) :
    Agrees tokens (fun _ w' => Ends tokens w w.state.callers [] w')
      (ReadM.definition (Grammar.stopOf tokens) s) (definition tokens w) := by
  refine (agrees_calling (P := fun _ => True) ?_).mono fun _ w' hends => hends.1
  have hpushed := h.pushed hlevel .definition
  refine (expect_agrees hpushed .name).bind ?_
  rintro head s₁ _ _ halong₁ ⟨rfl, hhead, hkind⟩
  -- A call of this site opens nothing, so it does not count for the level.
  have hlevel₁ : Level tokens (w.state.pos + 1) w.state.depth
      (⟨.definition, w.state.pos⟩ :: w.state.callers) :=
    (hlevel.next hhead (by simp [hkind]) (by simp [hkind])).push (fun h => by cases h)
      fun h => by cases h
  refine (internNode_agrees halong₁ hlevel₁ head.text head.span).bind ?_
  intro id s₂ w₂ hintern halong₂ hmakes
  refine (expect_agrees halong₂ .equals).bind ?_
  rintro equals s₃ _ _ halong₃ ⟨rfl, hequals, hkind'⟩
  have hstarts : Makes tokens ((w.note .definition .call).push .definition) [] (w₂.move 1) :=
    ⟨⟨hmakes.callers, hmakes.held, hmakes.depth,
      hmakes.level.next hequals (by simp [hkind']) (by simp [hkind']), by simp⟩, hmakes.grows⟩
  have hnamed := named_of_internNode hintern
  rw [halong₂.draft] at hnamed
  have hready : Ready tokens ⟨head.text, Grammar.stopOf tokens⟩ id maxNesting s₃ (w₂.move 1) := by
    refine ⟨halong₃, ?_, ?_, hnamed, rfl⟩
    · rw [hstarts.depth, hstarts.callers]
      exact hstarts.level
    · rw [hstarts.depth]
      show w.state.depth + maxNesting = maxNesting
      rw [hdepth, Nat.zero_add]
  refine (behindHead_agrees head.span hready).mono ?_
  intro _ w' hends
  have hboth := hstarts.toEnds.trans hends
  exact ⟨⟨hboth.callers, hboth.held, hboth.depth, hboth.level.pop (fun h => by cases h),
    hboth.inRange⟩, trivial⟩

theorem definitions_of_lt (hlt : w.state.pos < tokens.length) (bound : Nat) :
    definitions tokens (bound + 1) w =
      (definition tokens >>= fun _ => definitions tokens bound : WatchM Unit) w :=
  if_pos hlt

theorem definitions_of_le (hle : tokens.length ≤ w.state.pos) (bound : Nat) :
    definitions tokens (bound + 1) w = .ok () w :=
  if_neg (Nat.not_lt_of_le hle)

/-- Definitions are read up to the last token, and the loop does not run into its bound if this is
    more than the tokens that are left. -/
theorem definitions_agrees {bound : Nat} (h : Along tokens s w)
    (hlevel : Level tokens w.state.pos w.state.depth w.state.callers) (hdepth : w.state.depth = 0)
    (hbound : s.rest.length < bound) :
    Agrees tokens (fun _ w' => Ends tokens w w.state.callers [] w')
      (ReadM.definitions (Grammar.stopOf tokens) s) (definitions tokens bound w) := by
  -- Each definition takes a token or more, so one less is enough of a bound behind it.
  induction bound generalizing s w with
  | zero => omega
  | succ bound ih =>
    obtain ⟨rest, d⟩ := s
    obtain rfl : rest = _ := h.rest
    replace hbound : (tokens.drop w.state.pos).length < bound + 1 := hbound
    rcases Nat.lt_or_ge w.state.pos tokens.length with hlt | hle
    · rw [definitions_of_lt hlt, List.drop_eq_getElem_cons hlt, ReadM.definitions_cons,
        ← List.drop_eq_getElem_cons hlt]
      refine (definition_agrees h hlevel hdepth).bind ?_
      intro _ s' w' hread halong hends
      have hshorter := ReadM.length_lt_of_definition hread
      have hlevel' : Level tokens w'.state.pos w'.state.depth w'.state.callers := by
        rw [hends.depth, hends.callers]
        exact hends.level
      exact (ih halong hlevel' (hends.depth.trans hdepth) (by omega)).mono
        fun _ w'' hends' => hends.trans hends'
    · have hnil : tokens.drop w.state.pos = [] := List.drop_eq_nil_of_le hle
      refine agrees_ok ?_ (definitions_of_le hle bound) h ⟨rfl, rfl, rfl, hlevel, by simp⟩
      rw [hnil]
      rfl

/-! ### Whole grammars -/

/-- What holds of the tables of a grammar. -/
structure Closed (g : Grammar) : Prop where
  /-- There are as many definitions as nodes. -/
  lengths : g.nodes.length = g.definitions.length
  /-- No two nodes have the same name. -/
  nodes : (g.nodes.map Node.name).Nodup
  /-- No two tokens have the same name. -/
  tokens : g.tokens.Nodup

section Closed

variable {g : Grammar}

theorem Closed.findNode?_of_node? (h : Closed g) (id : NodeId) (node : Node)
    (hnode : g.node? id = some node) : g.findNode? node.name = some id := by
  have hname : (g.nodes.map Node.name)[id.index]? = some node.name := by
    rw [List.getElem?_map]
    exact congrArg (Option.map Node.name) hnode
  have hfind := Draft.findIdx?_of_nodup h.nodes hname
  rw [List.findIdx?_map] at hfind
  exact congrArg (Option.map NodeId.mk) hfind

theorem Closed.findToken?_of_token? (h : Closed g) (id : TokenId) (name : String)
    (hname : g.token? id = some name) : g.findToken? name = some id :=
  congrArg (Option.map TokenId.mk) (Draft.findIdx?_of_nodup h.tokens hname)

end Closed

/-- If all nodes have their rule, the tables become a grammar, and otherwise both name the same
    node. -/
theorem finish_agrees (h : Along tokens s w) :
    Agrees tokens (fun g _ => Closed g) (ReadM.finish s) (finish w) := by
  rw [ReadM.finish, finish, h.draft]
  cases hcomplete : w.state.draft.complete with
  | error e => exact agrees_error rfl rfl h.draft h.moments
  | ok g =>
    obtain ⟨hall, hg⟩ := Draft.complete_eq_ok_iff.1 hcomplete
    have hnames := Draft.names_of_complete hcomplete
    -- No node is left without a rule, so the definitions are all the nodes.
    have hlength : g.nodes.length = g.definitions.length := by
      calc g.nodes.length = (g.nodes.map Node.name).length := List.length_map _ |>.symm
        _ = w.state.draft.nodes.length := by rw [hnames, Draft.names, List.length_map]
        _ = w.state.draft.definitions.length := h.tables.length_definitions hall
        _ = g.definitions.length := by rw [hg]
    refine agrees_ok rfl (if_pos hlength) ⟨h.tables.withLog _, h.rest, rfl, h.moments⟩
      ⟨hlength, ?_, ?_⟩
    · rw [hnames]
      exact h.tables.nodup_names
    · rw [hg]
      exact h.tables.nodup_tokens

/-- Both read the same grammar, or refuse the tokens for the same reason. -/
theorem grammar_agrees (tokens : List Token) :
    Agrees tokens (fun g _ => Closed g)
      (ReadM.grammar (Grammar.stopOf tokens) ⟨tokens, {}⟩) (grammar tokens {}) := by
  have hstart : Along tokens ⟨tokens, {}⟩ {} := ⟨Tables.empty, rfl, rfl, by simp⟩
  refine (definitions_agrees hstart (level_start tokens) rfl (Nat.lt_succ_self _)).bind ?_
  intro _ s w _ halong _
  exact finish_agrees halong

theorem Moment.Sound.nodup {m : Moment} (h : m.Sound tokens) :
    m.state.draft.names.Nodup ∧ m.state.draft.tokens.Nodup :=
  ⟨h.state.tables.nodup_names, h.state.tables.nodup_tokens⟩

/-- Whatever the tokens are, the reader under watch gives the result and the log of the reader, and
    not a fault. At every call and at every return the invariant holds, and no name is in a table
    twice. A grammar that is read has as many definitions as nodes, and every handle in range is
    found by the name that it stands for. -/
theorem sound_throughout (tokens : List Token) :
    ∃ w,
      ((∃ g, Grammar.ofTokens tokens = .ok g ∧ grammar tokens {} = .ok g w) ∨
        ∃ e, Grammar.ofTokens tokens = .error e ∧ grammar tokens {} = .error (.refused e) w) ∧
      w.state.draft.log.toList = (Grammar.readTokens tokens).2 ∧
      (∀ m ∈ w.moments, m.Sound tokens ∧ m.state.draft.names.Nodup ∧
        m.state.draft.tokens.Nodup) ∧
      ∀ g, Grammar.ofTokens tokens = .ok g →
        g.nodes.length = g.definitions.length ∧
        (∀ id node, g.node? id = some node → g.findNode? node.name = some id) ∧
        ∀ id name, g.token? id = some name → g.findToken? name = some id := by
  rcases (grammar_agrees tokens).cases with
    ⟨g, s, w, hread, hwatch, halong, hclosed⟩ | ⟨e, s, w, hread, hwatch, hlog, hmoments⟩
  · have hresult : Grammar.readTokens tokens = (.ok g, s.draft.log.toList) := by
      rw [Grammar.readTokens, EStateM.run, hread]
    have hg : Grammar.ofTokens tokens = .ok g := congrArg Prod.fst hresult
    refine ⟨w, .inl ⟨g, hg, hwatch⟩, ?_, ?_, ?_⟩
    · rw [hresult, halong.draft]
    · intro m hm
      have hsound := halong.moments m hm
      exact ⟨hsound, hsound.nodup⟩
    · intro g' hg'
      obtain rfl := Except.ok.inj (hg.symm.trans hg')
      exact ⟨hclosed.lengths, hclosed.findNode?_of_node?, hclosed.findToken?_of_token?⟩
  · have hresult : Grammar.readTokens tokens = (.error e, s.draft.log.toList) := by
      rw [Grammar.readTokens, EStateM.run, hread]
    have he : Grammar.ofTokens tokens = .error e := congrArg Prod.fst hresult
    refine ⟨w, .inr ⟨e, he, hwatch⟩, ?_, ?_, ?_⟩
    · rw [hresult, hlog]
    · intro m hm
      have hsound := hmoments m hm
      exact ⟨hsound, hsound.nodup⟩
    · intro g' hg'
      rw [he] at hg'
      cases hg'

end Watch

end TreeGrammar
