import TreeGrammar.Proofs.Invariant
import TreeGrammar.Proofs.Soundness

/-! # No reader fails under watch

    The reader under watch does what the reader of grammars does, no fault
    ever happens, and the invariant holds at every moment that is noted.

    Key idea:
    - `Along` ties a state under watch to a state of the reader, and
      `Agrees` says that two outcomes belong together;
    - a reader that is called where all is in order (`Ready`) leaves all in
      order, with the calls, the counter and what is held as before (`Makes`);
      readers with this property can be put one after the other
      (`Follows.bind`), called (`Follows.calling`) and repeated
      (`collect_follows`);
    - inside an atom the counter and the calls are out of step for a while, so
      an atom is followed case by case (`atomFrom_ends`).
-/

namespace TreeGrammar

namespace Watch

/-- A draft has become another one by entering nodes and tokens. -/
def Extends (d d' : Draft) : Prop :=
  ∃ nodes tokens, d.Grows d' nodes tokens

namespace Extends

variable {d d' d'' : Draft} {rule : HandleRule}

theorem refl (d : Draft) : Extends d d :=
  ⟨[], [], .refl d⟩

theorem trans (h : Extends d d') (h' : Extends d' d'') : Extends d d'' := by
  obtain ⟨nodes, tokens, hgrows⟩ := h
  obtain ⟨nodes', tokens', hgrows'⟩ := h'
  exact ⟨_, _, hgrows.trans hgrows'⟩

/-- Handles that are in range stay in range. -/
theorem inRange (h : Extends d d') (hrule : d.InRange rule) : d'.InRange rule := by
  obtain ⟨nodes, tokens, hgrows⟩ := h
  obtain ⟨fresh, hnodes, -⟩ := hgrows.kept
  exact hrule.mono (by simp [hnodes]) hgrows.prefix_tokens.length_le

/-- Nodes stay where and as they are. -/
theorem getElem?_nodes (h : Extends d d') {i : Nat} {node : PendingNode}
    (hnode : d.nodes[i]? = some node) : d'.nodes[i]? = some node := by
  obtain ⟨nodes, tokens, hgrows⟩ := h
  obtain ⟨fresh, hnodes, -⟩ := hgrows.kept
  rw [hnodes, List.getElem?_append_left (List.getElem?_eq_some_iff.1 hnode).1, hnode]

end Extends

/-! ### States that belong together -/

/-- A state under watch goes with a state of the reader. -/
structure Along (tokens : List Token) (s : ReadState) (w : World) : Prop where
  /-- The tables are in order. -/
  tables : Tables w.state.draft w.state.nodeNames w.state.tokenNames w.state.held
  /-- The cursor is in front of the tokens that are left. -/
  rest : s.rest = tokens.drop w.state.pos
  /-- The drafts are the same. -/
  draft : s.draft = w.state.draft
  /-- The invariant held at every moment before. -/
  moments : ∀ m ∈ w.moments, m.Sound tokens

/-- Two outcomes belong together: both readers succeed with the same result, in states that belong
    together, or both refuse the tokens for the same reason. -/
def Agrees {α : Type} (tokens : List Token) (post : α → World → Prop) :
    EStateM.Result SyntaxError ReadState α → EStateM.Result Stop World α → Prop
  | .ok a s, .ok b w => a = b ∧ Along tokens s w ∧ post b w
  | .error e s, .error stop w =>
    stop = .refused e ∧ s.draft.log = w.state.draft.log ∧ ∀ m ∈ w.moments, m.Sound tokens
  | _, _ => False

/-- What a reader leaves behind, with the calls that are active then: the counter and what is held
    are as before, and the cursor is at a good place for the caller. -/
structure Ends (tokens : List Token) (w : World) (callers : List Call) (rules : List HandleRule)
    (w' : World) : Prop where
  /-- These calls are active. -/
  callers : w'.state.callers = callers
  /-- The same rules are held. -/
  held : w'.state.held = w.state.held
  /-- As many parentheses and labels are open. -/
  depth : w'.state.depth = w.state.depth
  /-- For the caller, cursor and counter are in order. -/
  level : Level tokens w'.state.pos w.state.depth w.state.callers
  /-- What was built is in range. -/
  inRange : ∀ rule ∈ rules, w'.state.draft.InRange rule

/-- What a reader leaves behind that defines no node. -/
structure Makes (tokens : List Token) (w : World) (rules : List HandleRule) (w' : World) : Prop
    extends Ends tokens w w.state.callers rules w' where
  /-- Nodes and tokens have been entered. -/
  grows : Extends w.state.draft w'.state.draft

/-- All is in order for a reader of a part of a rule. -/
structure Ready (tokens : List Token) (scope : Scope) (node : NodeId) (room : Nat)
    (s : ReadState) (w : World) : Prop extends Along tokens s w where
  /-- Cursor and counter are in order. -/
  level : Level tokens w.state.pos w.state.depth w.state.callers
  /-- So many more parentheses and labels may be opened. -/
  room : w.state.depth + room = maxNesting
  /-- The node whose rule is read is in the table. -/
  named : (w.state.draft.nodes[node.index]?).map PendingNode.name = some scope.node
  /-- The end of the tokens is known. -/
  stop : scope.stop = Grammar.stopOf tokens

/-- A reader under watch does the same as a reader, wherever all is in order. -/
def Follows {α : Type} (tokens : List Token) (scope : Scope) (node : NodeId) (room : Nat)
    (rules : α → List HandleRule) (x : ReadM α) (f : WatchM α) : Prop :=
  ∀ s w, Ready tokens scope node room s w →
    Agrees tokens (fun a w' => Makes tokens w (rules a) w') (x s) (f w)

section Combine

variable {α β : Type} {tokens : List Token} {post : α → World → Prop} {post' : β → World → Prop}
  {x : ReadM α} {f : WatchM α} {x' : α → ReadM β} {f' : α → WatchM β} {s s' : ReadState}
  {w w' w'' : World} {scope : Scope} {node : NodeId} {room : Nat} {rules : α → List HandleRule}
  {rules' : β → List HandleRule} {built built' : List HandleRule}

theorem agrees_ok {r : EStateM.Result SyntaxError ReadState α} {r' : EStateM.Result Stop World α}
    {a : α} (hr : r = .ok a s) (hr' : r' = .ok a w) (halong : Along tokens s w)
    (hpost : post a w) : Agrees tokens post r r' := by
  rw [hr, hr']
  exact ⟨rfl, halong, hpost⟩

theorem agrees_error {r : EStateM.Result SyntaxError ReadState α}
    {r' : EStateM.Result Stop World α} {e : SyntaxError} (hr : r = .error e s)
    (hr' : r' = .error (.refused e) w) (hdraft : s.draft = w.state.draft)
    (hmoments : ∀ m ∈ w.moments, m.Sound tokens) : Agrees tokens post r r' := by
  rw [hr, hr']
  exact ⟨rfl, congrArg Draft.log hdraft, hmoments⟩

/-- Outcomes belong together in two ways. -/
theorem Agrees.cases {r : EStateM.Result SyntaxError ReadState α}
    {r' : EStateM.Result Stop World α} (h : Agrees tokens post r r') :
    (∃ a s w, r = .ok a s ∧ r' = .ok a w ∧ Along tokens s w ∧ post a w) ∨
      ∃ e s w, r = .error e s ∧ r' = .error (.refused e) w ∧
        s.draft.log = w.state.draft.log ∧ ∀ m ∈ w.moments, m.Sound tokens := by
  cases r with
  | ok a s =>
    cases r' with
    | ok b w =>
      obtain ⟨rfl, halong, hpost⟩ := h
      exact .inl ⟨a, s, w, rfl, rfl, halong, hpost⟩
    | error stop w => exact h.elim
  | error e s =>
    cases r' with
    | ok b w => exact h.elim
    | error stop w =>
      obtain ⟨rfl, hlog, hmoments⟩ := h
      exact .inr ⟨e, s, w, rfl, rfl, hlog, hmoments⟩

theorem Agrees.bind (h : Agrees tokens post (x s) (f w))
    (hnext : ∀ a s' w', x s = .ok a s' → Along tokens s' w' → post a w' →
      Agrees tokens post' (x' a s') (f' a w')) :
    Agrees tokens post' ((x >>= x') s) ((f >>= f') w) := by
  rcases h.cases with ⟨a, s', w', hx, hf, halong, hpost⟩ | ⟨e, s', w', hx, hf, hlog, hmoments⟩
  · rw [bind_of_ok hx, bind_of_ok hf]
    exact hnext a s' w' hx halong hpost
  · rw [bind_of_error hx, bind_of_error hf]
    exact ⟨rfl, hlog, hmoments⟩

theorem Agrees.mono {post₁ post₂ : α → World → Prop} {r : EStateM.Result SyntaxError ReadState α}
    {r' : EStateM.Result Stop World α} (h : Agrees tokens post₁ r r')
    (himp : ∀ a w, post₁ a w → post₂ a w) : Agrees tokens post₂ r r' := by
  rcases h.cases with ⟨a, s', w', rfl, rfl, halong, hpost⟩ | ⟨e, s', w', rfl, rfl, hlog, hmoments⟩
  · exact ⟨rfl, halong, himp a w' hpost⟩
  · exact ⟨rfl, hlog, hmoments⟩

theorem Agrees.map (h : Agrees tokens post (x s) (f w)) (g : α → β)
    (himp : ∀ a w, post a w → post' (g a) w) :
    Agrees tokens post' ((g <$> x) s) ((g <$> f) w) := by
  rw [map_eq_pure_bind, map_eq_pure_bind]
  refine h.bind ?_
  intro a s' w' _ halong hpost
  exact ⟨rfl, halong, himp a w' hpost⟩

/-- What is left behind after two readers. -/
theorem Ends.trans (h : Ends tokens w w.state.callers built w')
    (h' : Ends tokens w' w'.state.callers built' w'') :
    Ends tokens w w.state.callers built' w'' where
  callers := h'.callers.trans h.callers
  held := h'.held.trans h.held
  depth := h'.depth.trans h.depth
  level := h.callers ▸ h.depth ▸ h'.level
  inRange := h'.inRange

theorem Makes.trans (h : Makes tokens w built w') (h' : Makes tokens w' built' w'') :
    Makes tokens w built' w'' where
  toEnds := h.toEnds.trans h'.toEnds
  grows := h.grows.trans h'.grows

/-- What a reader leaves behind is in order for the next one. -/
theorem Ready.next (h : Ready tokens scope node room s w) (halong : Along tokens s' w')
    (hmakes : Makes tokens w built w') : Ready tokens scope node room s' w' where
  toAlong := halong
  level := by
    rw [hmakes.depth, hmakes.callers]
    exact hmakes.level
  room := by rw [hmakes.depth, h.room]
  named := by
    obtain ⟨pending, hpending, hname⟩ := Option.map_eq_some_iff.1 h.named
    rw [hmakes.grows.getElem?_nodes hpending]
    exact congrArg some hname
  stop := h.stop

/-- Readers one after the other. -/
theorem Follows.bind (h : Follows tokens scope node room rules x f)
    (hnext : ∀ a s w, Ready tokens scope node room s w →
      (∀ rule ∈ rules a, w.state.draft.InRange rule) →
        Agrees tokens (fun b w' => Makes tokens w (rules' b) w') (x' a s) (f' a w)) :
    Follows tokens scope node room rules' (x >>= x') (f >>= f') := by
  intro s w hready
  refine (h s w hready).bind ?_
  intro a s' w' _ halong hmakes
  exact (hnext a s' w' (hready.next halong hmakes) hmakes.inRange).mono
    fun b w'' hmakes' => hmakes.trans hmakes'

/-- A reader that does nothing more. -/
theorem Ready.pure (h : Ready tokens scope node room s w) (rules : α → List HandleRule) {a : α}
    (hrules : ∀ rule ∈ rules a, w.state.draft.InRange rule) :
    Agrees tokens (fun b w' => Makes tokens w (rules b) w') ((pure a : ReadM α) s)
      ((pure a : WatchM α) w) :=
  ⟨rfl, h.toAlong, ⟨rfl, rfl, rfl, h.level, hrules⟩, .refl _⟩

/-- At a call, the invariant holds for the caller. -/
theorem Along.pushed (h : Along tokens s w)
    (hlevel : Level tokens w.state.pos w.state.depth w.state.callers) (site : Site) :
    Along tokens s ((w.note site .call).push site) where
  tables := h.tables
  rest := h.rest
  draft := h.draft
  moments := List.forall_mem_cons.2 ⟨⟨⟨h.tables, hlevel⟩, by simp [Phase.rules]⟩, h.moments⟩

/-- A call whose body leaves all in order for the caller. -/
theorem agrees_calling {site : Site} {P : Draft → Prop}
    (h : Agrees tokens (fun a w' =>
      Ends tokens w (⟨site, w.state.pos⟩ :: w.state.callers) (rules a) w' ∧ P w'.state.draft)
        (x s) (f ((w.note site .call).push site))) :
    Agrees tokens (fun a w' => Ends tokens w w.state.callers (rules a) w' ∧ P w'.state.draft)
      (x s) (calling site rules f w) := by
  rcases h.cases with ⟨a, s', w', hx, hf, halong, hends, hP⟩ | ⟨e, s', w', hx, hf, hlog, hmoments⟩
  · have hcallers : w'.pop.state.callers = w.state.callers := by
      show w'.state.callers.tail = _
      rw [hends.callers, List.tail_cons]
    have hlevel : Level tokens w'.pop.state.pos w'.pop.state.depth w'.pop.state.callers := by
      rw [hcallers]
      show Level tokens w'.state.pos w'.state.depth _
      rw [hends.depth]
      exact hends.level
    -- The return is noted with the calls of the caller, and with the counter as it was.
    have hcall : calling site rules f w = .ok a (w'.pop.note site (.back (rules a))) := by
      rw [calling, hf]
    refine agrees_ok hx hcall ⟨halong.tables, halong.rest, halong.draft, ?_⟩
      ⟨⟨hcallers, hends.held, hends.depth, hends.level, hends.inRange⟩, hP⟩
    exact List.forall_mem_cons.2 ⟨⟨⟨halong.tables, hlevel⟩, hends.inRange⟩, halong.moments⟩
  · have hcall : calling site rules f w = .error (.refused e) w' := by
      rw [calling, hf]
    rw [hx, hcall]
    exact ⟨rfl, hlog, hmoments⟩

/-- A call of a reader that is not the one of atoms: its body finds all in order. -/
theorem makes_calling {site : Site} (hsite : site ≠ .atom)
    (h : Agrees tokens (fun a w' => Makes tokens ((w.note site .call).push site) (rules a) w')
      (x s) (f ((w.note site .call).push site))) :
    Agrees tokens (fun a w' => Makes tokens w (rules a) w') (x s) (calling site rules f w) := by
  refine (agrees_calling (P := Extends w.state.draft) (h.mono ?_)).mono ?_
  · intro a w' hmakes
    exact ⟨⟨hmakes.callers, hmakes.held, hmakes.depth,
      hmakes.level.pop fun h => absurd h hsite, hmakes.inRange⟩, hmakes.grows⟩
  · intro a w' hboth
    exact ⟨hboth.1, hboth.2⟩

theorem Follows.calling {site : Site} (hsite : site ≠ .atom)
    (h : Follows tokens scope node room rules x f) :
    Follows tokens scope node room rules x (calling site rules f) := by
  intro s w hready
  have hpushed : Level tokens w.state.pos w.state.depth
      (⟨site, w.state.pos⟩ :: w.state.callers) :=
    hready.level.push (fun h => absurd h hsite) fun h => absurd h hsite
  exact makes_calling hsite (h s _
    ⟨hready.toAlong.pushed hready.level site, hpushed, hready.room, hready.named, hready.stop⟩)

end Combine

/-! ### Names, tokens and loops -/

section Parts

variable {tokens : List Token} {scope : Scope} {node : NodeId} {room : Nat} {s : ReadState}
  {w : World}

theorem drop_of_getElem? {pos : Nat} {t : Token} (ht : tokens[pos]? = some t) :
    tokens.drop pos = t :: tokens.drop (pos + 1) := by
  obtain ⟨hlt, rfl⟩ := List.getElem?_eq_some_iff.1 ht
  exact List.drop_eq_getElem_cons hlt

theorem headKind?_drop (tokens : List Token) (pos : Nat) :
    headKind? (tokens.drop pos) = kindAt? tokens pos := by
  rw [headKind?, kindAt?, List.head?_drop]

/-- The map finds the handle that a search finds, and both enter the same node otherwise. -/
theorem enterNode_agrees (h : Along tokens s w)
    (hlevel : Level tokens w.state.pos w.state.depth w.state.callers) (name : String)
    (span : Span) :
    Agrees tokens (fun id w' => Makes tokens w [.node id] w') (ReadM.internNode name span s)
      (enterNode name span w) := by
  have hfind := h.tables.getElem?_nodeNames name
  have hread : ReadM.internNode name span s = .ok (w.state.draft.internNode name span).1
      { s with draft := (w.state.draft.internNode name span).2 } := by
    rw [← h.draft]
    rfl
  have hgrows := w.state.draft.grows_internNode name span
  rw [Draft.internNode, ← hfind] at hread hgrows
  cases hmap : w.state.nodeNames[name]? with
  | some id =>
    have henter : enterNode name span w = .ok id w := by
      rw [enterNode, hmap]
    obtain ⟨pending, hpending, -⟩ :=
      Option.map_eq_some_iff.1 ((h.tables.nodeNames name id).1 hmap)
    have hrange : w.state.draft.InRange (.node id) :=
      Draft.inRange_node_iff.2 (List.getElem?_eq_some_iff.1 hpending).1
    rw [hmap] at hread
    refine agrees_ok hread henter ⟨h.tables, h.rest, rfl, h.moments⟩ ?_
    exact ⟨⟨rfl, rfl, rfl, hlevel, by simpa using hrange⟩, .refl _⟩
  | none =>
    -- The new handle is the length of the old table.
    have htables := h.tables.internNode hmap span
      (w.state.draft.log.push (.internedNode name ⟨w.state.draft.nodes.length⟩))
    have henter := show enterNode name span w = _ by rw [enterNode, hmap]
    rw [hmap] at hread hgrows
    refine agrees_ok hread henter ⟨htables, h.rest, rfl, h.moments⟩ ?_
    refine ⟨⟨rfl, rfl, rfl, hlevel, ?_⟩, ⟨_, _, hgrows⟩⟩
    simp [Draft.inRange_node_iff]

theorem internNode_agrees (h : Along tokens s w)
    (hlevel : Level tokens w.state.pos w.state.depth w.state.callers) (name : String)
    (span : Span) :
    Agrees tokens (fun id w' => Makes tokens w [.node id] w') (ReadM.internNode name span s)
      (internNode name span w) := by
  apply makes_calling (by decide)
  exact enterNode_agrees (h.pushed hlevel .internNode)
    (hlevel.push (fun h => by cases h) fun h => by cases h) name span

theorem internNode_follows (name : String) (span : Span) :
    Follows tokens scope node room (fun id => [.node id]) (ReadM.internNode name span)
      (internNode name span) :=
  fun _ _ hready => internNode_agrees hready.toAlong hready.level name span

theorem internToken_follows (name : String) :
    Follows tokens scope node room (fun id => [.token id]) (ReadM.internToken name)
      (internToken name) := by
  refine Follows.calling (by decide) ?_
  intro s w hready
  have hfind := hready.tables.getElem?_tokenNames name
  have hread : ReadM.internToken name s = .ok (w.state.draft.internToken name).1
      { s with draft := (w.state.draft.internToken name).2 } := by
    rw [← hready.draft]
    rfl
  have hgrows := w.state.draft.grows_internToken name
  rw [Draft.internToken, ← hfind] at hread hgrows
  cases hmap : w.state.tokenNames[name]? with
  | some id =>
    have henter : enterToken name w = .ok id w := by
      rw [enterToken, hmap]
    have hrange : w.state.draft.InRange (.token id) :=
      Draft.inRange_token_iff.2
        (List.getElem?_eq_some_iff.1 ((hready.tables.tokenNames name id).1 hmap)).1
    rw [hmap] at hread
    refine agrees_ok hread henter ⟨hready.tables, hready.rest, rfl, hready.moments⟩ ?_
    exact ⟨⟨rfl, rfl, rfl, hready.level, by simpa using hrange⟩, .refl _⟩
  | none =>
    have htables := hready.tables.internToken hmap
      (w.state.draft.log.push (.internedToken name ⟨w.state.draft.tokens.length⟩))
    have henter := show enterToken name w = _ by rw [enterToken, hmap]
    rw [hmap] at hread hgrows
    refine agrees_ok hread henter ⟨htables, hready.rest, rfl, hready.moments⟩ ?_
    refine ⟨⟨rfl, rfl, rfl, hready.level, ?_⟩, ⟨_, _, hgrows⟩⟩
    simp [Draft.inRange_token_iff]

/-- A token of the right kind is passed, and otherwise both refuse it. -/
theorem expect_agrees (h : Along tokens s w) (kind : TokenKind) :
    Agrees tokens (fun t w' => w' = w.move 1 ∧ tokens[w.state.pos]? = some t ∧ t.kind = kind)
      (ReadM.expect kind s) (expect tokens kind w) := by
  obtain ⟨rest, d⟩ := s
  obtain rfl : rest = _ := h.rest
  rw [expect]
  cases ht : tokens[w.state.pos]? with
  | none =>
    have hnil : tokens.drop w.state.pos = [] :=
      List.drop_eq_nil_of_le (List.getElem?_eq_none_iff.1 ht)
    rw [hnil]
    exact agrees_error rfl rfl h.draft h.moments
  | some t =>
    rw [drop_of_getElem? ht]
    by_cases hkind : t.kind = kind
    · exact agrees_ok (if_pos hkind) (if_pos hkind) ⟨h.tables, rfl, h.draft, h.moments⟩
        ⟨rfl, rfl, hkind⟩
    · exact agrees_error (if_neg hkind) (if_neg hkind) h.draft h.moments

theorem quantified_other {rule : HandleRule} (hquestion : kindAt? tokens w.state.pos ≠ some .question)
    (hstar : kindAt? tokens w.state.pos ≠ some .star) : quantified tokens rule w = .ok rule w := by
  unfold quantified
  split
  · contradiction
  · contradiction
  · rfl

/-- A `?` or `*` behind a rule is passed. -/
theorem quantified_agrees (h : Along tokens s w) (rule : HandleRule) :
    Agrees tokens (fun rule' w' => rule'.leaves = rule.leaves ∧ ∃ count, w' = w.move count ∧
        ∀ depth callers, Level tokens w.state.pos depth callers →
          Level tokens (w.state.pos + count) depth callers)
      (ReadM.quantified rule s) (quantified tokens rule w) := by
  obtain ⟨rest, d⟩ := s
  obtain rfl : rest = _ := h.rest
  have hone : ∀ kind, kind ≠ .openParen → kind ≠ .closeParen →
      kindAt? tokens w.state.pos = some kind → ∀ depth callers,
        Level tokens w.state.pos depth callers → Level tokens (w.state.pos + 1) depth callers := by
    intro kind hopen hclose hkind depth callers hlevel
    obtain ⟨t, ht, rfl⟩ := kindAt?_eq_some_iff.1 hkind
    exact hlevel.next ht hopen hclose
  have hmoved : Along tokens ⟨(tokens.drop w.state.pos).tail, d⟩ (w.move 1) :=
    ⟨h.tables, List.tail_drop, h.draft, h.moments⟩
  by_cases hquestion : kindAt? tokens w.state.pos = some .question
  · refine agrees_ok (a := .opt rule) ?_ ?_ hmoved
      ⟨rfl, 1, rfl, hone _ (by decide) (by decide) hquestion⟩
    · rw [ReadM.quantified, quantify, headKind?_drop, hquestion]
    · rw [quantified, hquestion]
  by_cases hstar : kindAt? tokens w.state.pos = some .star
  · refine agrees_ok (a := .rep rule) ?_ ?_ hmoved
      ⟨rfl, 1, rfl, hone _ (by decide) (by decide) hstar⟩
    · rw [ReadM.quantified, quantify, headKind?_drop, hstar]
    · rw [quantified, hstar]
  · refine agrees_ok ?_ (quantified_other hquestion hstar) h ⟨rfl, 0, rfl, fun _ _ hl => hl⟩
    rw [← headKind?_drop] at hquestion hstar
    rw [ReadM.quantified, ReadM.quantify_other rule hquestion hstar]

/-! ### Rules -/

theorem nodeAt_of_getElem? {id : NodeId} {pending : PendingNode}
    (h : w.state.draft.nodes[id.index]? = some pending) : nodeAt id w = .ok pending w := by
  rw [nodeAt, h]

theorem Ready.refuseEmpty_eq (h : Ready tokens scope node room s w) {α : Type} (span : Span) :
    (refuseEmpty node span : WatchM α) w = .error (.refused (.emptyRule scope.node span)) w := by
  obtain ⟨pending, hpending, hname⟩ := Option.map_eq_some_iff.1 h.named
  rw [refuseEmpty]
  simp only [bind, EStateM.bind, nodeAt_of_getElem? hpending, hname]
  rfl

/-- In front of the next definition an atom is missing. The name of this definition decides what is
    wrong, and its node is looked at only if it has one. -/
theorem Ready.refuseMissing_definition (h : Ready tokens scope node room s w) {α : Type} {t : Token}
    (ht : tokens[w.state.pos]? = some t)
    (hstarts : t.kind = .name ∧ kindAt? tokens (w.state.pos + 1) = some .equals) :
    (refuseMissing tokens node : WatchM α) w =
      .error (.refused (if t.text = scope.node || w.state.draft.isDefined t.text then
        .duplicateNode t.text t.span else .emptyRule scope.node (.point t.span.start))) w := by
  have hnode := (h.tables.nodeNames scope.node node).2 h.named
  rw [refuseMissing]
  simp only [ht]
  rw [if_pos hstarts]
  cases hmap : w.state.nodeNames[t.text]? with
  | none =>
    -- A name without a node has no definition, and is not the one of this node.
    have hne : t.text ≠ scope.node := by
      intro heq
      rw [heq, hnode] at hmap
      cases hmap
    simp only [h.refuseEmpty_eq, hne, h.tables.isDefined_eq_false hmap]
    rfl
  | some next =>
    by_cases heq : next = node
    · -- The map has one name for each handle.
      subst heq
      have htext := (h.tables.nodeNames t.text next).1 hmap
      rw [h.named] at htext
      obtain htext := Option.some.inj htext
      simp only [htext, decide_true, Bool.true_or, if_true]
      rfl
    · have hne : t.text ≠ scope.node := by
        intro htext
        rw [htext, hnode] at hmap
        exact heq (Option.some.inj hmap).symm
      obtain ⟨pending, hpending, -⟩ :=
        Option.map_eq_some_iff.1 ((h.tables.nodeNames t.text next).1 hmap)
      have hdefined := h.tables.isDefined_iff hmap hpending
      simp only [if_neg heq, bind, EStateM.bind, nodeAt_of_getElem? hpending, hne, decide_false,
        Bool.false_or]
      by_cases hsome : pending.rule?.isSome = true
      · rw [if_pos hsome, if_pos (hdefined.2 hsome)]
        rfl
      · rw [if_neg hsome, if_neg (mt hdefined.1 hsome), h.refuseEmpty_eq]

/-- Where an atom is missing, both give the same reason, and no place is looked at in vain. -/
theorem Ready.refuseMissing_eq (h : Ready tokens scope node room s w) {α : Type} :
    (refuseMissing tokens node : WatchM α) w = .error (.refused (missingAtom scope s)) w := by
  obtain ⟨rest, d⟩ := s
  obtain rfl : rest = _ := h.rest
  obtain rfl : d = _ := h.draft
  rw [missingAtom]
  cases ht : tokens[w.state.pos]? with
  | none =>
    have hnil : tokens.drop w.state.pos = [] :=
      List.drop_eq_nil_of_le (List.getElem?_eq_none_iff.1 ht)
    simp only [refuseMissing, ht, hnil]
    rw [h.refuseEmpty_eq, h.stop]
  | some t =>
    have hstarts : startsDefinition (t :: tokens.drop (w.state.pos + 1)) = true ↔
        t.kind = .name ∧ kindAt? tokens (w.state.pos + 1) = some .equals := by
      simp [startsDefinition, ← headKind?_drop, headKind?]
    simp only [drop_of_getElem? ht]
    by_cases hdefinition : t.kind = .name ∧ kindAt? tokens (w.state.pos + 1) = some .equals
    · rw [h.refuseMissing_definition ht hdefinition, if_pos (hstarts.2 hdefinition)]
    · simp only [refuseMissing, ht]
      rw [if_neg hdefinition, if_neg (mt hstarts.1 hdefinition)]
      rfl

section Rules

variable {x : ReadM (Option HandleRule)} {f : WatchM (Option HandleRule)}

theorem required_follows (hatom : Follows tokens scope node room Option.toList x f) :
    Follows tokens scope node room (fun rule => [rule]) (ReadM.required scope x)
      (required tokens node f) := by
  refine Follows.calling (by decide) (hatom.bind ?_)
  intro a s w hready hrules
  cases a with
  | some rule => exact hready.pure (fun rule => [rule]) hrules
  | none => exact agrees_error rfl hready.refuseMissing_eq hready.draft hready.moments

/-- A reader that reads on while some rules are held. -/
theorem Ready.holding (h : Ready tokens scope node room s w)
    (hitem : Follows tokens scope node room Option.toList x f) {items : List HandleRule}
    (hitems : ∀ rule ∈ items, w.state.draft.InRange rule) :
    Agrees tokens (fun a w' => Makes tokens w a.toList w') (x s) (holding items f w) := by
  have hheld := hitem s (w.hold items)
    ⟨⟨h.tables.hold hitems, h.rest, h.draft, h.moments⟩, h.level, h.room, h.named, h.stop⟩
  rcases hheld.cases with ⟨a, s', w', hx, hf, halong, hmakes⟩ | ⟨e, s', w', hx, hf, hlog, hmoments⟩
  · -- The tables have only grown, so what was held before is still in range.
    have hrelease := halong.tables.release fun rule hrule =>
      hmakes.grows.inRange (h.tables.held rule hrule)
    have hcall : Watch.holding items f w = .ok a { w' with state.held := w.state.held } := by
      rw [Watch.holding, hf]
    exact agrees_ok hx hcall ⟨hrelease, halong.rest, halong.draft, halong.moments⟩
      ⟨⟨hmakes.callers, rfl, hmakes.depth, hmakes.level, hmakes.inRange⟩, hmakes.grows⟩
  · have hcall : Watch.holding items f w = .error (.refused e) w' := by
      rw [Watch.holding, hf]
    rw [hx, hcall]
    exact ⟨rfl, hlog, hmoments⟩

/-- What a repetition does behind items that were read before. -/
theorem many_apply_behind (hadvances : ReadM.Advances x) (items : List HandleRule)
    (s : ReadState) :
    ((fun more => items.reverse ++ more) <$> ReadM.many x) s =
      (x >>= fun item? => match item? with
        | none => pure items.reverse
        | some item => (fun more => (item :: items).reverse ++ more) <$> ReadM.many x) s := by
  show EStateM.map _ (ReadM.many x) s = EStateM.bind x _ s
  unfold EStateM.map EStateM.bind
  rw [ReadM.many_apply hadvances]
  cases x s with
  | error e s' => rfl
  | ok a s' =>
    cases a with
    | none => simp
    | some item =>
      show _ = EStateM.map _ (ReadM.many x) s'
      simp only [Functor.map, EStateM.map]
      cases ReadM.many x s' with
      | error e s'' => rfl
      | ok more s'' => simp

/-- A repetition does not run into its bound if this is more than the tokens that are left. -/
theorem collect_follows (hitem : Follows tokens scope node room Option.toList x f)
    (hadvances : ReadM.Advances x) {bound : Nat} {items : List HandleRule}
    (hready : Ready tokens scope node room s w)
    (hitems : ∀ rule ∈ items, w.state.draft.InRange rule) (hbound : s.rest.length < bound) :
    Agrees tokens (fun rules w' => Makes tokens w rules w')
      (((fun more => items.reverse ++ more) <$> ReadM.many x) s) (collect f bound items w) := by
  -- An item takes a token or more, so one less is enough of a bound behind it.
  induction bound generalizing items s w with
  | zero => omega
  | succ bound ih =>
    rw [many_apply_behind hadvances]
    refine (hready.holding hitem hitems).bind ?_
    intro a s' w' hx halong hmakes
    have hready' := hready.next halong hmakes
    have hkept : ∀ rule ∈ items, w'.state.draft.InRange rule := fun rule hrule =>
      hmakes.grows.inRange (hitems rule hrule)
    cases a with
    | none =>
      refine (hready'.pure id ?_).mono fun rules w'' hmakes' => hmakes.trans hmakes'
      simpa using hkept
    | some item =>
      have hshorter := hadvances.shorter hx
      have hall : ∀ rule ∈ item :: items, w'.state.draft.InRange rule :=
        List.forall_mem_cons.2 ⟨hmakes.inRange item (by simp), hkept⟩
      exact (ih hready' hall (by omega)).mono fun rules w'' hmakes' => hmakes.trans hmakes'

/-- No more tokens are left than there are. -/
theorem Along.length_rest_lt (h : Along tokens s w) : s.rest.length < tokens.length + 1 := by
  rw [h.rest, List.length_drop]
  omega

/-- Items behind a first one, put together. -/
theorem collect_behind (hitem : Follows tokens scope node room Option.toList x f)
    (hadvances : ReadM.Advances x) {combine : List HandleRule → HandleRule}
    (hleaves : ∀ rules, (combine rules).leaves = rules.flatMap Rule.leaves) {first : HandleRule}
    (hready : Ready tokens scope node room s w) (hfirst : w.state.draft.InRange first) :
    Agrees tokens (fun rule w' => Makes tokens w [rule] w')
      ((ReadM.many x >>= fun others => pure (combine (first :: others))) s)
      ((collect f (tokens.length + 1) [first] >>= fun rules => pure (combine rules)) w) := by
  have hcollect := collect_follows hitem hadvances hready (List.forall_mem_singleton.2 hfirst)
    hready.length_rest_lt
  have hmap : (ReadM.many x >>= fun others => pure (combine (first :: others))) =
      ((fun more => [first].reverse ++ more) <$> ReadM.many x >>= fun rules =>
        pure (combine rules) : ReadM HandleRule) := by
    simp
  rw [hmap]
  refine hcollect.bind ?_
  intro rules s' w' _ halong hmakes
  refine ((hready.next halong hmakes).pure (fun rule => [rule]) ?_).mono
    fun rule w'' hmakes' => hmakes.trans hmakes'
  exact List.forall_mem_singleton.2 (.of_leaves (hleaves rules) hmakes.inRange)

theorem sequence_follows (hatom : Follows tokens scope node room Option.toList x f)
    (hadvances : ReadM.Advances x) :
    Follows tokens scope node room (fun rule => [rule]) (ReadM.sequence scope x)
      (sequence tokens node f) := by
  refine Follows.calling (by decide) ((required_follows hatom).bind ?_)
  intro first s w hready hfirst
  exact collect_behind hatom hadvances Rule.leaves_ofSeq hready (hfirst first (by simp))

theorem alternative?_follows (hatom : Follows tokens scope node room Option.toList x f)
    (hadvances : ReadM.Advances x) :
    Follows tokens scope node room Option.toList (ReadM.alternative? scope x)
      (alternative? tokens node f) := by
  intro s w hready
  rw [ReadM.alternative?, alternative?, hready.rest, headKind?_drop]
  by_cases hbar : kindAt? tokens w.state.pos = some .bar
  · rw [if_pos hbar, if_pos hbar]
    obtain ⟨t, ht, hkind⟩ := kindAt?_eq_some_iff.1 hbar
    have hlevel := hready.level.next ht (by simp [hkind]) (by simp [hkind])
    have hmoved : Ready tokens scope node room
        { s with rest := (tokens.drop w.state.pos).tail } (w.move 1) :=
      ⟨⟨hready.tables, List.tail_drop, hready.draft, hready.moments⟩, hlevel, hready.room,
        hready.named, hready.stop⟩
    refine (sequence_follows hatom hadvances _ _ hmoved).map some ?_
    intro rule w' hmakes
    exact ⟨⟨hmakes.callers, hmakes.held, hmakes.depth, hmakes.level, by simpa using hmakes.inRange⟩,
      hmakes.grows⟩
  · rw [if_neg hbar, if_neg hbar]
    exact hready.pure Option.toList (by simp)

theorem rule_follows (hatom : Follows tokens scope node room Option.toList x f)
    (hadvances : ReadM.Advances x)
    (hmore : ReadM.Advances (ReadM.alternative? scope x)) :
    Follows tokens scope node room (fun rule => [rule]) (ReadM.rule scope x)
      (rule tokens node f) := by
  refine Follows.calling (by decide) ((sequence_follows hatom hadvances).bind ?_)
  intro first s w hready hfirst
  exact collect_behind (alternative?_follows hatom hadvances) hmore Rule.leaves_ofAlt hready
    (hfirst first (by simp))

end Rules

/-! ### Atoms -/

theorem enter_of_lt (h : w.state.depth < maxNesting) (span : Span) :
    enter span w = .ok () (w.setDepth (w.state.depth + 1)) :=
  if_neg (Nat.not_le_of_lt h)

theorem enter_of_full (h : w.state.depth = maxNesting) (span : Span) :
    enter span w = .error (.refused (.nestingTooDeep span)) w :=
  if_pos (Nat.le_of_eq h.symm)

theorem leave_of_depth {depth : Nat} (h : w.state.depth = depth + 1) :
    leave w = .ok () (w.setDepth depth) := by
  rw [leave, h]

section Atom

variable {w' : World} {s' : ReadState} {callers : List Call} {inner : WatchM (Option HandleRule)}
  {t : Token}

/-- What an atom leaves behind inside its call. -/
abbrev AtomEnds (tokens : List Token) (w : World) (rules : List HandleRule) (w' : World) : Prop :=
  Ends tokens w (⟨.atom, w.state.pos⟩ :: w.state.callers) rules w' ∧
    Extends w.state.draft w'.state.draft

/-- Behind a primary, a `?` or `*` is passed. -/
theorem quantified_ends {rule : HandleRule} (halong : Along tokens s' w')
    (hends : AtomEnds tokens w [rule] w') :
    Agrees tokens (fun a w'' => AtomEnds tokens w a.toList w'')
      ((some <$> ReadM.quantified rule) s') ((some <$> quantified tokens rule) w') := by
  refine (quantified_agrees halong rule).map some ?_
  rintro rule' w'' ⟨hleaves, count, rfl, hlevel⟩
  obtain ⟨⟨hcallers, hheld, hdepth, hl, hrange⟩, hgrows⟩ := hends
  refine ⟨⟨hcallers, hheld, hdepth, hlevel _ _ hl, ?_⟩, hgrows⟩
  have hrule : w'.state.draft.InRange rule' := (hrange rule (by simp)).around hleaves
  intro other hother
  obtain rfl := List.mem_singleton.1 hother
  exact hrule

/-- A reference is read by a reader of a handle and what is behind it. -/
theorem reference_ends {α : Type} {x : ReadM α} {f : WatchM α} {built : α → HandleRule}
    (hready : Ready tokens scope node room s w) (ht : tokens[w.state.pos]? = some t)
    (hopens : opensAt tokens w.state.pos = false) (hclose : t.kind ≠ .closeParen)
    (hhandle : Follows tokens scope node room (fun a => [built a]) x f) :
    Agrees tokens (fun a w' => AtomEnds tokens w a.toList w')
      ((x >>= fun a => some <$> ReadM.quantified (built a))
        ⟨tokens.drop (w.state.pos + 1), s.draft⟩)
      ((f >>= fun a => some <$> quantified tokens (built a))
        (((w.note .atom .call).push .atom).move 1)) := by
  have hopen : t.kind ≠ .openParen := by
    intro hkind
    have hkindAt := kindAt?_eq_some_iff.2 ⟨t, ht, hkind⟩
    simp [opensAt, hkindAt] at hopens
  have hpushed := hready.toAlong.pushed hready.level .atom
  have hready' : Ready tokens scope node room ⟨tokens.drop (w.state.pos + 1), s.draft⟩
      (((w.note .atom .call).push .atom).move 1) :=
    ⟨⟨hpushed.tables, rfl, hpushed.draft, hpushed.moments⟩,
      (hready.level.next ht hopen hclose).push (fun _ => hopens) fun _ => Nat.lt_succ_self _,
      hready.room, hready.named, hready.stop⟩
  refine (hhandle _ _ hready').bind ?_
  intro a s' w' _ halong hmakes
  exact quantified_ends halong ⟨⟨hmakes.callers, hmakes.held, hmakes.depth,
    hmakes.level.pop fun _ => hopens, hmakes.inRange⟩, hmakes.grows⟩

/-- A label is read if there is room for it, with the atom behind it. -/
theorem label_ends (hready : Ready tokens scope node (room + 1) s w)
    (ht : kindAt? tokens w.state.pos = some .name)
    (hu : kindAt? tokens (w.state.pos + 1) = some .colon)
    (hinner : Follows tokens scope node room Option.toList (ReadM.atom? scope room) inner)
    (span : Span) (label : String) :
    Agrees tokens (fun a w' => AtomEnds tokens w a.toList w')
      ((ReadM.required scope (ReadM.atom? scope room) >>= fun body =>
        pure (some (.labeled label body)) : ReadM (Option HandleRule))
          ⟨tokens.drop (w.state.pos + 2), s.draft⟩)
      ((do
        skip 2
        enter span
        let body ← required tokens node inner
        leave
        return some (.labeled label body) : WatchM (Option HandleRule))
          ((w.note .atom .call).push .atom)) := by
  have hroom := hready.room
  have hlt : w.state.depth < maxNesting := by omega
  have hpushed := hready.toAlong.pushed hready.level .atom
  have hready' : Ready tokens scope node room ⟨tokens.drop (w.state.pos + 2), s.draft⟩
      ((((w.note .atom .call).push .atom).move 2).setDepth (w.state.depth + 1)) :=
    ⟨⟨hpushed.tables, rfl, hpushed.draft, hpushed.moments⟩, hready.level.label ht hu hlt,
      by show w.state.depth + 1 + room = maxNesting; omega, hready.named, hready.stop⟩
  have hbody := required_follows hinner _ _ hready'
  rw [bind_of_ok (x := skip 2) rfl,
    bind_of_ok (enter_of_lt (w := ((w.note .atom .call).push .atom).move 2) hlt span)]
  refine hbody.bind ?_
  intro body s' w' _ halong hmakes
  have hlevel := hmakes.level
  -- The call is still active, but what it has opened is closed.
  rw [bind_of_ok (leave_of_depth hmakes.depth)]
  refine ⟨rfl, ⟨halong.tables, halong.rest, halong.draft, halong.moments⟩, ⟨hmakes.callers,
    hmakes.held, rfl, hlevel.unlabel ht hu, ?_⟩, hmakes.grows⟩
  intro rule hrule
  obtain rfl := List.mem_singleton.1 hrule
  exact (hmakes.inRange body (by simp)).around (by simp [Rule.leaves])

/-- A group is read if there is room for it, up to the parenthesis that closes it and to the mark
    behind this. -/
theorem group_ends (hready : Ready tokens scope node (room + 1) s w)
    (ht : kindAt? tokens w.state.pos = some .openParen)
    (hinner : Follows tokens scope node room Option.toList (ReadM.atom? scope room) inner)
    (span : Span) :
    Agrees tokens (fun a w' => AtomEnds tokens w a.toList w')
      ((ReadM.rule scope (ReadM.atom? scope room) >>= fun body =>
        ReadM.expect .closeParen >>= fun _ => some <$> ReadM.quantified body :
          ReadM (Option HandleRule)) ⟨tokens.drop (w.state.pos + 1), s.draft⟩)
      ((do
        skip 1
        enter span
        let body ← rule tokens node inner
        leave
        let _ ← expect tokens .closeParen
        some <$> quantified tokens body : WatchM (Option HandleRule))
          ((w.note .atom .call).push .atom)) := by
  have hroom := hready.room
  have hlt : w.state.depth < maxNesting := by omega
  have hpushed := hready.toAlong.pushed hready.level .atom
  have hready' : Ready tokens scope node room ⟨tokens.drop (w.state.pos + 1), s.draft⟩
      ((((w.note .atom .call).push .atom).move 1).setDepth (w.state.depth + 1)) :=
    ⟨⟨hpushed.tables, rfl, hpushed.draft, hpushed.moments⟩, hready.level.group ht hlt,
      by show w.state.depth + 1 + room = maxNesting; omega, hready.named, hready.stop⟩
  have hbody := rule_follows hinner (ReadM.advances_atom? scope room)
    (ReadM.advances_alternative? scope room) _ _ hready'
  rw [bind_of_ok (x := skip 1) rfl,
    bind_of_ok (enter_of_lt (w := ((w.note .atom .call).push .atom).move 1) hlt span)]
  refine hbody.bind ?_
  intro body s' w' _ halong hmakes
  -- Here the counter is ahead of the cursor: the closing parenthesis is still to come.
  rw [bind_of_ok (leave_of_depth hmakes.depth)]
  have halong' : Along tokens s' (w'.setDepth w.state.depth) :=
    ⟨halong.tables, halong.rest, halong.draft, halong.moments⟩
  refine (expect_agrees halong' .closeParen).bind ?_
  rintro u s'' w'' _ halong'' ⟨rfl, hu, hkind⟩
  have hclose := kindAt?_eq_some_iff.2 ⟨u, hu, hkind⟩
  exact quantified_ends halong'' ⟨⟨hmakes.callers, hmakes.held, rfl,
    hmakes.level.ungroup ht hclose, hmakes.inRange⟩, hmakes.grows⟩

theorem atomFrom_definition (ht : t.kind = .name)
    (hu : kindAt? tokens (w.state.pos + 1) = some .equals) :
    atomFrom tokens node inner t w = .ok none w := by
  simp only [atomFrom, ht, hu]

theorem atomFrom_label (ht : t.kind = .name)
    (hu : kindAt? tokens (w.state.pos + 1) = some .colon) :
    atomFrom tokens node inner t w =
      (do
        skip 2
        enter t.span
        let body ← required tokens node inner
        leave
        return some (.labeled t.text body) : WatchM (Option HandleRule)) w := by
  simp only [atomFrom, ht, hu]

theorem atomFrom_reference (ht : t.kind = .name)
    (hequals : kindAt? tokens (w.state.pos + 1) ≠ some .equals)
    (hcolon : kindAt? tokens (w.state.pos + 1) ≠ some .colon) :
    atomFrom tokens node inner t w =
      (internNode t.text t.span >>= fun id => some <$> quantified tokens (.node id))
        (w.move 1) := by
  simp only [atomFrom, ht]
  rfl

theorem atomFrom_literal (ht : t.kind = .literal) :
    atomFrom tokens node inner t w =
      (internToken t.text >>= fun id => some <$> quantified tokens (.token id)) (w.move 1) := by
  simp only [atomFrom, ht]
  rfl

theorem atomFrom_group (ht : t.kind = .openParen) :
    atomFrom tokens node inner t w =
      (do
        skip 1
        enter t.span
        let body ← rule tokens node inner
        leave
        let _ ← expect tokens .closeParen
        some <$> quantified tokens body : WatchM (Option HandleRule)) w := by
  simp only [atomFrom, ht]

theorem atomAt_none (ht : tokens[w.state.pos]? = none) (site : Site) (phase : Phase) :
    atomAt tokens node inner ((w.note site phase).push site) =
      .ok none ((w.note site phase).push site) := by
  have ht' : tokens[((w.note site phase).push site).state.pos]? = none := ht
  rw [atomAt, ht']

theorem atomAt_some (ht : tokens[w.state.pos]? = some t) (site : Site) (phase : Phase) :
    atomAt tokens node inner ((w.note site phase).push site) =
      atomFrom tokens node inner t ((w.note site phase).push site) := by
  have ht' : tokens[((w.note site phase).push site).state.pos]? = some t := ht
  rw [atomAt, ht']

theorem atomFrom_other (hname : t.kind ≠ .name) (hliteral : t.kind ≠ .literal)
    (hparen : t.kind ≠ .openParen) : atomFrom tokens node inner t w = .ok none w := by
  unfold atomFrom
  split <;> first | rfl | contradiction

/-- Where no atom starts, nothing happens. -/
theorem nothing_ends (hready : Ready tokens scope node room s w)
    (hread : ReadM.atom? scope room s = .ok none s)
    {r : EStateM.Result Stop World (Option HandleRule)}
    (hwatch : r = .ok none ((w.note .atom .call).push .atom)) :
    Agrees tokens (fun a w' => AtomEnds tokens w a.toList w') (ReadM.atom? scope room s) r :=
  agrees_ok hread hwatch (hready.toAlong.pushed hready.level .atom)
    ⟨⟨rfl, rfl, rfl, hready.level, by simp⟩, .refl _⟩

/-- What an atom does is settled by one or two tokens. -/
theorem atomFrom_ends (hready : Ready tokens scope node room s w)
    (ht : tokens[w.state.pos]? = some t)
    (hinner : ∀ less, room = less + 1 →
      Follows tokens scope node less Option.toList (ReadM.atom? scope less) inner) :
    Agrees tokens (fun a w' => AtomEnds tokens w a.toList w') (ReadM.atom? scope room s)
      (atomFrom tokens node inner t ((w.note .atom .call).push .atom)) := by
  have hpushed := hready.toAlong.pushed hready.level .atom
  have hkindAt : kindAt? tokens w.state.pos = some t.kind := congrArg (Option.map Token.kind) ht
  obtain ⟨rest, d⟩ := s
  obtain rfl : rest = t :: tokens.drop (w.state.pos + 1) :=
    hready.rest.trans (drop_of_getElem? ht)
  by_cases hname : t.kind = .name
  · by_cases hequals : kindAt? tokens (w.state.pos + 1) = some .equals
    · -- The name belongs to the next definition.
      obtain ⟨u, hu, hkind⟩ := kindAt?_eq_some_iff.1 hequals
      refine nothing_ends hready ?_ (atomFrom_definition hname hequals)
      rw [drop_of_getElem? hu, ReadM.atom?_definition _ _ _ hname hkind]
    by_cases hcolon : kindAt? tokens (w.state.pos + 1) = some .colon
    · obtain ⟨u, hu, hkind⟩ := kindAt?_eq_some_iff.1 hcolon
      rw [drop_of_getElem? hu, atomFrom_label (w := (w.note .atom .call).push .atom) hname hcolon]
      cases room with
      | zero =>
        rw [ReadM.atom?_label_zero _ _ hname hkind, bind_of_ok (x := skip 2) rfl,
          bind_of_error (enter_of_full (w := ((w.note .atom .call).push .atom).move 2)
            hready.room t.span)]
        exact agrees_error rfl rfl hready.draft hpushed.moments
      | succ less =>
        rw [ReadM.atom?_label _ _ _ hname hkind]
        exact label_ends hready (hname ▸ hkindAt) hcolon (hinner less rfl) t.span t.text
    · have hopens : opensAt tokens w.state.pos = false := by
        simp [opensAt, hkindAt, hname, hcolon]
      rw [atomFrom_reference (w := (w.note .atom .call).push .atom) hname hequals hcolon]
      rw [← headKind?_drop] at hequals hcolon
      rw [ReadM.atom?_reference _ _ _ hname hequals hcolon]
      exact reference_ends hready ht hopens (by simp [hname])
        (internNode_follows t.text t.span)
  by_cases hliteral : t.kind = .literal
  · have hopens : opensAt tokens w.state.pos = false := by
      simp [opensAt, hkindAt, hliteral]
    rw [ReadM.atom?_literal _ _ _ hliteral, atomFrom_literal hliteral]
    exact reference_ends hready ht hopens (by simp [hliteral]) (internToken_follows t.text)
  by_cases hparen : t.kind = .openParen
  · rw [atomFrom_group hparen]
    cases room with
    | zero =>
      rw [ReadM.atom?_group_zero _ _ hparen, bind_of_ok (x := skip 1) rfl,
        bind_of_error (enter_of_full (w := ((w.note .atom .call).push .atom).move 1)
          hready.room t.span)]
      exact agrees_error rfl rfl hready.draft hpushed.moments
    | succ less =>
      rw [ReadM.atom?_group _ _ _ hparen]
      exact group_ends hready (hparen ▸ hkindAt) (hinner less rfl) t.span
  · refine nothing_ends hready ?_ (atomFrom_other hname hliteral hparen)
    rw [ReadM.atom?_other _ _ _ hname hliteral hparen]

/-- Atoms are followed if the atoms inside them are, as far as there is room for any. -/
theorem atomAround_follows
    (hinner : ∀ less, room = less + 1 →
      Follows tokens scope node less Option.toList (ReadM.atom? scope less) inner) :
    Follows tokens scope node room Option.toList (ReadM.atom? scope room)
      (atomAround tokens node inner) := by
  intro s w hready
  refine (agrees_calling (P := Extends w.state.draft) ?_).mono fun a w' hends =>
    ⟨hends.1, hends.2⟩
  cases ht : tokens[w.state.pos]? with
  | none =>
    have hnil : s.rest = [] := by
      rw [hready.rest, List.drop_eq_nil_of_le (List.getElem?_eq_none_iff.1 ht)]
    obtain ⟨rest, d⟩ := s
    obtain rfl : rest = [] := hnil
    exact nothing_ends hready (ReadM.atom?_nil scope room d) (atomAt_none ht _ _)
  | some t =>
    rw [atomAt_some ht]
    exact atomFrom_ends hready ht hinner

/-- The recursion of atoms does not run into its bound. -/
theorem atom?_follows (room : Nat) :
    Follows tokens scope node room Option.toList (ReadM.atom? scope room)
      (atom? tokens node room) := by
  induction room with
  | zero => exact atomAround_follows fun less hless => by cases hless
  | succ room ih =>
    apply atomAround_follows
    intro less hless
    obtain rfl := Nat.succ.inj hless
    exact ih

end Atom

end Parts

end Watch

end TreeGrammar
