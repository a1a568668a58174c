import TreeGrammar.Proofs.Faultless

/-! # Progress and balance

    What the readers under watch do from any state at all, in order or not: a
    part of a rule takes a token or more, closes what it opens, and lets the
    tables only become longer. So the loops come to an end, and nothing is
    open where a definition starts.

    Key idea:
    - `Runs` says how a reader comes from a state to its end, and it holds of
      readers one after the other if the relation of states is transitive
      (`Runs.bind`);
    - `Passes` is such a relation: what happens to the cursor and the tables
      while a part of a rule is read, also if it is refused;
    - a reader of items takes tokens with an item and changes nothing without
      one (`ItemTaken`). The tokens that are left bound a loop over items
      (`collect_runs`), and the recursion is followed one level at a time, as
      the counter grows by what the room becomes less (`atomAround_proceeds`);
    - over definitions, the counter is zero again after each of them
      (`definitions_runs`).
-/

namespace TreeGrammar

namespace Watch

/-! ### From one state to another -/

/-- The tables have only become longer, and the cursor has not gone back. -/
structure Prolongs (st st' : State) : Prop where
  /-- The cursor is where it was, or further on. -/
  pos_le : st.pos ≤ st'.pos
  /-- New nodes come to the end, and the others are as they were. -/
  nodes : st.draft.nodes <+: st'.draft.nodes
  /-- New tokens come to the end, and the others are as they were. -/
  tokens : st.draft.tokens <+: st'.draft.tokens
  /-- No node is defined. -/
  definitions : st'.draft.definitions = st.draft.definitions
  /-- Every node is found as before. -/
  nodeNames : ∀ (name : String) (id : NodeId), st.nodeNames[name]? = some id →
    st'.nodeNames[name]? = some id
  /-- Every token is found as before. -/
  tokenNames : ∀ (name : String) (id : TokenId), st.tokenNames[name]? = some id →
    st'.tokenNames[name]? = some id

/-- Tokens were taken, and as much is open as before. -/
structure Advances (st st' : State) : Prop extends Prolongs st st' where
  /-- The cursor is further on. -/
  pos_lt : st.pos < st'.pos
  /-- As many parentheses and labels are open. -/
  depth_eq : st'.depth = st.depth

/-- What happens while a part of a rule is read, whether it succeeds or not. -/
structure Passes (w w' : World) : Prop extends Prolongs w.state w'.state where
  /-- No definition is called. -/
  moments : ∃ more, w'.moments = more ++ w.moments ∧ ∀ m ∈ more, m.site ≠ .definition

section Passes

variable {w w' w'' : World}

theorem Prolongs.refl (st : State) : Prolongs st st :=
  ⟨Nat.le_refl _, List.prefix_refl _, List.prefix_refl _, rfl, fun _ _ h => h, fun _ _ h => h⟩

theorem Prolongs.trans {st st' st'' : State} (h : Prolongs st st') (h' : Prolongs st' st'') :
    Prolongs st st'' where
  pos_le := Nat.le_trans h.pos_le h'.pos_le
  nodes := h.nodes.trans h'.nodes
  tokens := h.tokens.trans h'.tokens
  definitions := h'.definitions.trans h.definitions
  nodeNames := fun name id hid => h'.nodeNames name id (h.nodeNames name id hid)
  tokenNames := fun name id hid => h'.tokenNames name id (h.tokenNames name id hid)

/-- A step that notes nothing. -/
theorem Prolongs.passes (h : Prolongs w.state w'.state) (hmoments : w'.moments = w.moments) :
    Passes w w' :=
  ⟨h, [], by rw [hmoments, List.nil_append], by simp⟩

theorem Passes.refl (w : World) : Passes w w :=
  (Prolongs.refl w.state).passes rfl

theorem Passes.trans (h : Passes w w') (h' : Passes w' w'') : Passes w w'' := by
  obtain ⟨more, hmore, hsites⟩ := h.moments
  obtain ⟨more', hmore', hsites'⟩ := h'.moments
  refine ⟨h.toProlongs.trans h'.toProlongs, more' ++ more, ?_, ?_⟩
  · rw [hmore', hmore, List.append_assoc]
  · exact fun m hm => (List.mem_append.1 hm).elim (hsites' m) (hsites m)

instance : Trans Passes Passes Passes := ⟨Passes.trans⟩

/-- The tables stay the same, and no moment is noted. -/
theorem passes_of_tables (hpos : w.state.pos ≤ w'.state.pos)
    (hdraft : w'.state.draft = w.state.draft) (hnodes : w'.state.nodeNames = w.state.nodeNames)
    (htokens : w'.state.tokenNames = w.state.tokenNames) (hmoments : w'.moments = w.moments) :
    Passes w w' := by
  refine Prolongs.passes ⟨hpos, ?_, ?_, congrArg Draft.definitions hdraft, ?_, ?_⟩ hmoments
  · exact hdraft ▸ List.prefix_refl _
  · exact hdraft ▸ List.prefix_refl _
  · exact fun name id hid => hnodes ▸ hid
  · exact fun name id hid => htokens ▸ hid

theorem passes_move (w : World) (count : Nat) : Passes w (w.move count) :=
  passes_of_tables (Nat.le_add_right _ _) rfl rfl rfl rfl

theorem passes_setDepth (w : World) (depth : Nat) : Passes w (w.setDepth depth) :=
  passes_of_tables (Nat.le_refl _) rfl rfl rfl rfl

theorem passes_hold (w : World) (rules : List HandleRule) : Passes w (w.hold rules) :=
  passes_of_tables (Nat.le_refl _) rfl rfl rfl rfl

theorem passes_release (w : World) (held : List HandleRule) :
    Passes w { w with state.held := held } :=
  passes_of_tables (Nat.le_refl _) rfl rfl rfl rfl

theorem passes_push (w : World) (site : Site) : Passes w (w.push site) :=
  passes_of_tables (Nat.le_refl _) rfl rfl rfl rfl

theorem passes_pop (w : World) : Passes w w.pop :=
  passes_of_tables (Nat.le_refl _) rfl rfl rfl rfl

theorem passes_note {site : Site} (hsite : site ≠ .definition) (w : World) (phase : Phase) :
    Passes w (w.note site phase) :=
  ⟨.refl w.state, [⟨site, phase, w.state⟩], rfl, List.forall_mem_singleton.2 hsite⟩

end Passes

/-! ### From a state to the end of a reader -/

/-- How a reader comes from a state to its end. The two states are related, also if the reader
    stops. If it succeeds, `post` holds, and it runs into a bound only where there is a `short`
    one. -/
def Runs {α : Type} (R : World → World → Prop) (short : Prop) (w : World)
    (post : α → World → Prop) : EStateM.Result Stop World α → Prop
  | .ok a w' => R w w' ∧ post a w'
  | .error stop w' => R w w' ∧ (stop = .fault .bound → short)

/-- From every state, a reader of a part of a rule comes to its end in a certain way. Whether a
    bound is short depends on what is open. -/
def Proceeds {α : Type} (short : Nat → Prop) (post : World → α → World → Prop) (f : WatchM α) :
    Prop :=
  ∀ w, Runs Passes (short w.state.depth) w (post w) (f w)

section Runs

variable {α β : Type} {R : World → World → Prop} {short : Prop} {w w' : World}
  {post : α → World → Prop} {post' : β → World → Prop} {f : WatchM α} {g : α → WatchM β}
  {r : EStateM.Result Stop World α}

theorem runs_ok {a : α} (hr : r = .ok a w') (hR : R w w') (hpost : post a w') :
    Runs R short w post r := by
  rw [hr]
  exact ⟨hR, hpost⟩

theorem runs_error {stop : Stop} (hr : r = .error stop w') (hR : R w w')
    (hstop : stop ≠ .fault .bound) : Runs R short w post r := by
  rw [hr]
  exact ⟨hR, fun heq => absurd heq hstop⟩

/-- A step before the reader. -/
theorem Runs.after [Trans R R R] (h : Runs R short w' post r) (hR : R w w') :
    Runs R short w post r := by
  cases r with
  | error stop w'' => exact ⟨Trans.trans hR h.1, h.2⟩
  | ok a w'' => exact ⟨Trans.trans hR h.1, h.2⟩

theorem Runs.bind [Trans R R R] (h : Runs R short w post (f w))
    (hnext : ∀ a w', R w w' → post a w' → Runs R short w' post' (g a w')) :
    Runs R short w post' ((f >>= g) w) := by
  cases hf : f w with
  | error stop w' =>
    rw [hf] at h
    rw [bind_of_error hf]
    exact h
  | ok a w' =>
    rw [hf] at h
    rw [bind_of_ok hf]
    exact (hnext a w' h.1 h.2).after h.1

theorem Runs.mono {R' : World → World → Prop} {short' : Prop} {post₁ : α → World → Prop}
    (h : Runs R short w post r) (hR : ∀ w', R w w' → R' w w') (hshort : short → short')
    (hpost : ∀ a w', R w w' → post a w' → post₁ a w') : Runs R' short' w post₁ r := by
  cases r with
  | error stop w' => exact ⟨hR w' h.1, fun heq => hshort (h.2 heq)⟩
  | ok a w' => exact ⟨hR w' h.1, hpost a w' h.1 h.2⟩

theorem Runs.imp {post₁ : α → World → Prop} (h : Runs R short w post r)
    (hpost : ∀ a w', post a w' → post₁ a w') : Runs R short w post₁ r :=
  h.mono (fun _ hR => hR) id fun a w' _ => hpost a w'

theorem Runs.weaken {short' : Prop} (h : Runs R short w post r) (hshort : short → short') :
    Runs R short' w post r :=
  h.mono (fun _ hR => hR) hshort fun _ _ _ hpost => hpost

theorem Runs.of_ok {a : α} (h : Runs R short w post r) (hr : r = .ok a w') :
    R w w' ∧ post a w' := by
  rw [hr] at h
  exact h

theorem Runs.of_error {stop : Stop} (h : Runs R short w post r) (hr : r = .error stop w') :
    R w w' := by
  rw [hr] at h
  exact h.1

theorem Runs.not_bound (h : Runs R short w post r) (hshort : ¬ short) (w' : World) :
    r ≠ .error (.fault .bound) w' := by
  rintro rfl
  exact hshort (h.2 rfl)

theorem runs_pure {a : α} (hpost : post a w) :
    Runs Passes short w post ((pure a : WatchM α) w) :=
  runs_ok rfl (.refl w) hpost

/-- A call, if its two moments may be noted. -/
theorem runs_calling [Trans R R R] {site : Site} {built : α → List HandleRule}
    {post₁ : α → World → Prop} (hcall : R w ((w.note site .call).push site))
    (h : Runs R short ((w.note site .call).push site) post (f ((w.note site .call).push site)))
    (hback : ∀ a w', post a w' → R w' (w'.pop.note site (.back (built a))))
    (hpost : ∀ a w', post a w' → post₁ a (w'.pop.note site (.back (built a)))) :
    Runs R short w post₁ (calling site built f w) := by
  rw [calling]
  cases hf : f ((w.note site .call).push site) with
  | error stop w' =>
    rw [hf] at h
    exact ⟨Trans.trans hcall h.1, h.2⟩
  | ok a w' =>
    rw [hf] at h
    exact ⟨Trans.trans (Trans.trans hcall h.1) (hback a w' h.2), hpost a w' h.2⟩

/-- A call of a reader that is not the one of definitions. -/
theorem passes_calling {site : Site} (hsite : site ≠ .definition) {built : α → List HandleRule}
    {post₁ : α → World → Prop}
    (h : Runs Passes short ((w.note site .call).push site) post
      (f ((w.note site .call).push site)))
    (hpost : ∀ a w', post a w' → post₁ a (w'.pop.note site (.back (built a)))) :
    Runs Passes short w post₁ (calling site built f w) :=
  runs_calling ((passes_note hsite w .call).trans (passes_push _ site)) h
    (fun _ w' _ => (passes_pop w').trans (passes_note hsite _ _)) hpost

end Runs

/-! ### Names and marks -/

section Marks

variable {tokens : List Token} {short : Prop}

/-- As much is open as before. -/
abbrev Balanced {α : Type} (w : World) (_ : α) (w' : World) : Prop :=
  w'.state.depth = w.state.depth

/-- A name that a map does not have can be entered, and all others are found as before. -/
theorem getElem?_insert_of_none {α : Type} {map : Std.HashMap String α} {name : String}
    (hnone : map[name]? = none) (a : α) (other : String) (b : α) (hother : map[other]? = some b) :
    (map.insert name a)[other]? = some b := by
  have hne : name ≠ other := by
    rintro rfl
    rw [hnone] at hother
    cases hother
  rw [Std.HashMap.getElem?_insert, if_neg (by simpa using hne), hother]

theorem internNode_runs (name : String) (span : Span) (w : World) :
    Runs Passes short w (Balanced w) (internNode name span w) := by
  have henter : ∀ w, Runs Passes short w (Balanced w) (enterNode name span w) := by
    intro w
    cases hmap : w.state.nodeNames[name]? with
    | some id => exact runs_ok (by rw [enterNode, hmap]) (.refl w) rfl
    | none =>
      have hnew := show enterNode name span w = _ by rw [enterNode, hmap]
      refine runs_ok hnew (Prolongs.passes ?_ rfl) rfl
      exact ⟨Nat.le_refl _, List.prefix_append _ _, List.prefix_refl _, rfl,
        getElem?_insert_of_none hmap _, fun _ _ h => h⟩
  exact passes_calling (by decide) (henter _) fun _ _ hdepth => hdepth

theorem internToken_runs (name : String) (w : World) :
    Runs Passes short w (Balanced w) (internToken name w) := by
  have henter : ∀ w, Runs Passes short w (Balanced w) (enterToken name w) := by
    intro w
    cases hmap : w.state.tokenNames[name]? with
    | some id => exact runs_ok (by rw [enterToken, hmap]) (.refl w) rfl
    | none =>
      have hnew := show enterToken name w = _ by rw [enterToken, hmap]
      refine runs_ok hnew (Prolongs.passes ?_ rfl) rfl
      exact ⟨Nat.le_refl _, List.prefix_refl _, List.prefix_append _ _, rfl, fun _ _ h => h,
        getElem?_insert_of_none hmap _⟩
  exact passes_calling (by decide) (henter _) fun _ _ hdepth => hdepth

theorem quantified_runs (rule : HandleRule) (w : World) :
    Runs Passes short w (Balanced w) (quantified tokens rule w) := by
  unfold quantified
  split
  · exact runs_ok rfl (passes_move w 1) rfl
  · exact runs_ok rfl (passes_move w 1) rfl
  · exact runs_ok rfl (.refl w) rfl

theorem expect_runs (kind : TokenKind) (w : World) :
    Runs Passes short w (fun _ w' => w.state.pos < tokens.length ∧ w' = w.move 1)
      (expect tokens kind w) := by
  unfold expect
  split
  case h_1 => exact runs_error rfl (.refl w) (by simp)
  case h_2 t ht =>
    split
    · exact runs_ok rfl (passes_move w 1) ⟨lt_length_of_getElem? ht, rfl⟩
    · exact runs_error rfl (passes_move w 1) (by simp)

theorem enter_runs (span : Span) (w : World) :
    Runs Passes short w (fun _ w' => w.state.depth < maxNesting ∧
      w' = w.setDepth (w.state.depth + 1)) (enter span w) := by
  unfold enter
  split
  case isTrue => exact runs_error rfl (.refl w) (by simp)
  case isFalse hlt => exact runs_ok rfl (passes_setDepth w _) ⟨Nat.lt_of_not_le hlt, rfl⟩

theorem leave_runs (w : World) :
    Runs Passes short w (fun _ w' => w'.state.pos = w.state.pos ∧
      w'.state.depth + 1 = w.state.depth) (leave w) := by
  unfold leave
  split
  case h_1 => exact runs_error rfl (.refl w) (by simp)
  case h_2 depth hdepth => exact runs_ok rfl (passes_setDepth w depth) ⟨rfl, hdepth.symm⟩

theorem nodeAt_runs (id : NodeId) (w : World) :
    Runs Passes short w (fun _ w' => w' = w) (nodeAt id w) := by
  unfold nodeAt
  split
  · exact runs_ok rfl (.refl w) rfl
  · exact runs_error rfl (.refl w) (by simp)

theorem refuse_runs {α : Type} (e : SyntaxError) (w : World) (post : α → World → Prop) :
    Runs Passes short w post (refuse e w) :=
  runs_error rfl (.refl w) (by simp)

theorem refuseEmpty_runs {α : Type} (id : NodeId) (span : Span) (w : World)
    (post : α → World → Prop) : Runs Passes short w post (refuseEmpty id span w) :=
  (nodeAt_runs id w).bind fun _ w' _ _ => refuse_runs _ w' post

/-- An atom that is missing is no matter of a bound. -/
theorem refuseMissing_runs {α : Type} (node : NodeId) (w : World) (post : α → World → Prop) :
    Runs Passes short w post (refuseMissing tokens node w) := by
  unfold refuseMissing
  split
  · exact refuseEmpty_runs _ _ w post
  · split
    · split
      · exact refuseEmpty_runs _ _ w post
      · split
        · exact refuse_runs _ w post
        · refine (nodeAt_runs _ w).bind fun pending w' _ _ => ?_
          split
          · exact refuse_runs _ w' post
          · exact refuseEmpty_runs _ _ w' post
    · exact refuse_runs _ w post

end Marks

/-! ### Loops -/

/-- A token or more was taken, and as much is open as before. -/
structure Takes (tokens : List Token) (w w' : World) : Prop where
  /-- There was a token. -/
  inside : w.state.pos < tokens.length
  /-- The cursor is further on. -/
  pos_lt : w.state.pos < w'.state.pos
  /-- As many parentheses and labels are open. -/
  depth_eq : w'.state.depth = w.state.depth

/-- Tokens were taken with an item, or there is none where the cursor is, and nothing has
    changed. -/
def ItemTaken (tokens : List Token) (declines : Nat → Prop) (w : World) :
    Option HandleRule → World → Prop
  | some _, w' => Takes tokens w w'
  | none, w' => declines w.state.pos ∧ w'.state = w.state

section Loops

variable {tokens : List Token} {short : Nat → Prop} {declines : Nat → Prop} {node : NodeId}
  {w w' w'' : World} {f : WatchM (Option HandleRule)}

/-- What is changed around a reader, apart from the cursor and the counter, and changed back behind
    it. -/
theorem ItemTaken.around {inside inside' : World} {item : Option HandleRule}
    (h : ItemTaken tokens declines inside item inside') (hpos : inside.state.pos = w.state.pos)
    (hdepth : inside.state.depth = w.state.depth) (hpos' : w'.state.pos = inside'.state.pos)
    (hdepth' : w'.state.depth = inside'.state.depth)
    (hstate : inside'.state = inside.state → w'.state = w.state) :
    ItemTaken tokens declines w item w' := by
  cases item with
  | some rule =>
    exact ⟨hpos ▸ h.inside, hpos ▸ hpos' ▸ h.pos_lt, hdepth'.trans (h.depth_eq.trans hdepth)⟩
  | none => exact ⟨hpos ▸ h.1, hstate h.2⟩

theorem Takes.itemTaken (h : Takes tokens w w') (declines : Nat → Prop) (rule : HandleRule) :
    ItemTaken tokens declines w (some rule) w' :=
  h

/-- What follows may take further tokens. -/
theorem Takes.before (h : Takes tokens w w') (hpasses : Passes w' w'')
    (hdepth : w''.state.depth = w'.state.depth) : Takes tokens w w'' :=
  ⟨h.inside, Nat.lt_of_lt_of_le h.pos_lt hpasses.pos_le, hdepth.trans h.depth_eq⟩

theorem takes_calling {site : Site} (hsite : site ≠ .definition) {stops : Prop}
    {built : HandleRule → List HandleRule} {f : WatchM HandleRule}
    (h : Runs Passes stops ((w.note site .call).push site)
      (fun _ w' => Takes tokens ((w.note site .call).push site) w')
      (f ((w.note site .call).push site))) :
    Runs Passes stops w (fun _ w' => Takes tokens w w') (calling site built f w) :=
  passes_calling hsite h fun _ _ htakes => ⟨htakes.inside, htakes.pos_lt, htakes.depth_eq⟩

theorem required_proceeds (h : Proceeds short (ItemTaken tokens declines) f) :
    Proceeds short (fun w _ w' => Takes tokens w w') (required tokens node f) := by
  refine fun w => takes_calling (by decide) ((h _).bind fun item w' _ htaken => ?_)
  cases item with
  | some rule => exact runs_pure htaken
  | none => exact refuseMissing_runs node w' _

/-- What is held while a reader goes on makes no difference to it. -/
theorem holding_proceeds (h : Proceeds short (ItemTaken tokens declines) f)
    (items : List HandleRule) :
    Proceeds short (ItemTaken tokens declines) (holding items f) := by
  intro w
  have hbody := h (w.hold items)
  rw [holding]
  cases hf : f (w.hold items) with
  | error stop w' =>
    rw [hf] at hbody
    exact ⟨(passes_hold w items).trans hbody.1, hbody.2⟩
  | ok item w' =>
    rw [hf] at hbody
    refine ⟨((passes_hold w items).trans hbody.1).trans (passes_release w' _), ?_⟩
    refine hbody.2.around rfl rfl rfl rfl fun hstate => ?_
    show { w'.state with held := w.state.held } = w.state
    rw [hstate]
    rfl

/-- A loop over items ends, since each of them takes a token. -/
theorem collect_runs (h : Proceeds short (ItemTaken tokens declines) f) {bound depth : Nat}
    {items : List HandleRule} (hdepth : w.state.depth = depth)
    (hbound : tokens.length - w.state.pos < bound) :
    Runs Passes (short depth) w (fun _ w' => w'.state.depth = depth) (collect f bound items w) := by
  subst hdepth
  -- An item takes a token or more, so one less is enough of a bound behind it.
  induction bound generalizing items w with
  | zero => omega
  | succ bound ih =>
    refine (holding_proceeds h items w).bind fun item w' _ htaken => ?_
    cases item with
    | none => exact runs_pure (congrArg State.depth htaken.2)
    | some rule =>
      have hinside := htaken.inside
      have hpos := htaken.pos_lt
      have hmore := @ih w' (rule :: items) (by omega)
      rw [htaken.depth_eq] at hmore
      exact hmore

/-- Items behind a first one, put together. -/
theorem collected_runs (h : Proceeds short (ItemTaken tokens declines) f)
    (combine : List HandleRule → HandleRule) {first : HandleRule} (htakes : Takes tokens w w') :
    Runs Passes (short w.state.depth) w' (fun _ w'' => Takes tokens w w'')
      ((collect f (tokens.length + 1) [first] >>= fun rules => pure (combine rules)) w') := by
  have hbound : tokens.length - w'.state.pos < tokens.length + 1 := by omega
  exact (collect_runs h htakes.depth_eq hbound).bind fun _ _ hpasses hdepth =>
    runs_pure (htakes.before hpasses (hdepth.trans htakes.depth_eq.symm))

theorem sequence_proceeds (h : Proceeds short (ItemTaken tokens declines) f) :
    Proceeds short (fun w _ w' => Takes tokens w w') (sequence tokens node f) :=
  fun _ => takes_calling (by decide) <| (required_proceeds h _).bind fun _ _ _ htakes =>
    collected_runs h Rule.ofSeq htakes

theorem alternative?_proceeds (h : Proceeds short (ItemTaken tokens declines) f) :
    Proceeds short (ItemTaken tokens fun pos => kindAt? tokens pos ≠ some .bar)
      (alternative? tokens node f) := by
  intro w
  unfold alternative?
  split
  case isTrue hbar =>
    obtain ⟨t, ht, -⟩ := kindAt?_eq_some_iff.1 hbar
    rw [bind_of_ok (x := skip 1) rfl, map_eq_pure_bind]
    refine ((sequence_proceeds h (w.move 1)).bind fun rule w' _ htakes => ?_).after
      (passes_move w 1)
    have hpos : w.state.pos + 1 < w'.state.pos := htakes.pos_lt
    exact runs_pure (Takes.itemTaken ⟨lt_length_of_getElem? ht, by omega, htakes.depth_eq⟩ _ _)
  case isFalse hbar => exact runs_ok rfl (.refl w) ⟨hbar, rfl⟩

theorem rule_proceeds (h : Proceeds short (ItemTaken tokens declines) f) :
    Proceeds short (fun w _ w' => Takes tokens w w') (rule tokens node f) :=
  fun _ => takes_calling (by decide) <| (sequence_proceeds h _).bind fun _ _ _ htakes =>
    collected_runs (alternative?_proceeds h) Rule.ofAlt htakes

end Loops

/-! ### Atoms -/

/-- No atom starts where the cursor is. -/
inductive StartsNone (tokens : List Token) (pos : Nat) : Prop where
  /-- The tokens are at their end. -/
  | atEnd (h : tokens.length ≤ pos)
  /-- The token is none that an atom starts with. -/
  | other {t : Token} (ht : tokens[pos]? = some t) (hname : t.kind ≠ .name)
      (hliteral : t.kind ≠ .literal) (hparen : t.kind ≠ .openParen)
  /-- The next definition starts. -/
  | definition (ht : kindAt? tokens pos = some .name) (hu : kindAt? tokens (pos + 1) = some .equals)

section Atoms

variable {tokens : List Token} {short shortInside : Nat → Prop} {node : NodeId} {w w' : World}
  {inner : WatchM (Option HandleRule)} {t : Token}

/-- The mark behind what was taken is taken too. -/
theorem marked_runs {stops : Prop} (htakes : Takes tokens w w') (declines : Nat → Prop)
    (rule : HandleRule) :
    Runs Passes stops w' (ItemTaken tokens declines w) ((some <$> quantified tokens rule) w') := by
  rw [map_eq_pure_bind]
  exact (quantified_runs rule w').bind fun _ _ hpasses hdepth =>
    runs_pure ((htakes.before hpasses hdepth).itemTaken _ _)

/-- A reference takes its token. -/
theorem reference_runs {α : Type} {stops : Prop} {f : WatchM α}
    (h : ∀ w, Runs Passes stops w (Balanced w) (f w)) (built : α → HandleRule)
    (hinside : w.state.pos < tokens.length) (declines : Nat → Prop) :
    Runs Passes stops w (ItemTaken tokens declines w)
      ((f >>= fun a => some <$> quantified tokens (built a)) (w.move 1)) :=
  ((h (w.move 1)).bind fun _ _ hpasses hdepth =>
    marked_runs ⟨hinside, hpasses.pos_le, hdepth⟩ _ _).after (passes_move w 1)

/-- What is opened behind some tokens is closed before the reader goes on. -/
theorem nested_runs {f : WatchM HandleRule} {rest : HandleRule → WatchM (Option HandleRule)}
    {post : Option HandleRule → World → Prop}
    (h : Proceeds shortInside (fun w _ w' => Takes tokens w w') f)
    (hshort : ∀ depth < maxNesting, shortInside (depth + 1) → short depth)
    (hinside : w.state.pos < tokens.length) (count : Nat) (span : Span)
    (hrest : ∀ body w', Takes tokens w w' →
      Runs Passes (short w.state.depth) w' post (rest body w')) :
    Runs Passes (short w.state.depth) w post
      ((do
        skip count
        enter span
        let body ← f
        leave
        rest body : WatchM (Option HandleRule)) w) := by
  rw [bind_of_ok (x := skip count) rfl]
  refine ((enter_runs span (w.move count)).bind ?_).after (passes_move w count)
  rintro _ _ - ⟨hlt, rfl⟩
  refine ((h _).weaken (hshort _ hlt)).bind fun body w' _ htakes => ?_
  refine (leave_runs w').bind ?_
  rintro _ w'' - ⟨hsame, hless⟩
  have hpos : w.state.pos + count < w'.state.pos := htakes.pos_lt
  have hdepth : w'.state.depth = w.state.depth + 1 := htakes.depth_eq
  exact hrest body w'' ⟨hinside, by omega, by omega⟩

/-- One or two tokens settle what an atom does. -/
theorem atomFrom_runs (h : Proceeds shortInside (ItemTaken tokens (StartsNone tokens)) inner)
    (hshort : ∀ depth < maxNesting, shortInside (depth + 1) → short depth)
    (ht : tokens[w.state.pos]? = some t) :
    Runs Passes (short w.state.depth) w (ItemTaken tokens (StartsNone tokens) w)
      (atomFrom tokens node inner t w) := by
  have hinside := lt_length_of_getElem? ht
  have hkind : kindAt? tokens w.state.pos = some t.kind := congrArg (Option.map Token.kind) ht
  by_cases hname : t.kind = .name
  · by_cases hequals : kindAt? tokens (w.state.pos + 1) = some .equals
    · exact runs_ok (atomFrom_definition hname hequals) (.refl w)
        ⟨.definition (hname ▸ hkind) hequals, rfl⟩
    by_cases hcolon : kindAt? tokens (w.state.pos + 1) = some .colon
    · rw [atomFrom_label hname hcolon]
      exact nested_runs (required_proceeds h) hshort hinside 2 t.span fun body w' htakes =>
        runs_pure (htakes.itemTaken _ _)
    · rw [atomFrom_reference hname hequals hcolon]
      exact reference_runs (internNode_runs t.text t.span) _ hinside _
  by_cases hliteral : t.kind = .literal
  · rw [atomFrom_literal hliteral]
    exact reference_runs (internToken_runs t.text) _ hinside _
  by_cases hparen : t.kind = .openParen
  · rw [atomFrom_group hparen]
    refine nested_runs (rule_proceeds h) hshort hinside 1 t.span fun body w' htakes => ?_
    refine (expect_runs .closeParen w').bind ?_
    rintro _ _ - ⟨-, rfl⟩
    exact marked_runs (htakes.before (passes_move w' 1) rfl) _ body
  · exact runs_ok (atomFrom_other hname hliteral hparen) (.refl w)
      ⟨.other ht hname hliteral hparen, rfl⟩

/-- An atom takes tokens if the atoms inside it do. -/
theorem atomAround_proceeds
    (h : Proceeds shortInside (ItemTaken tokens (StartsNone tokens)) inner)
    (hshort : ∀ depth < maxNesting, shortInside (depth + 1) → short depth) :
    Proceeds short (ItemTaken tokens (StartsNone tokens)) (atomAround tokens node inner) := by
  intro w
  have hbody : Runs Passes (short w.state.depth) ((w.note .atom .call).push .atom)
      (ItemTaken tokens (StartsNone tokens) ((w.note .atom .call).push .atom))
      (atomAt tokens node inner ((w.note .atom .call).push .atom)) := by
    cases ht : tokens[w.state.pos]? with
    | none =>
      exact runs_ok (atomAt_none ht .atom .call) (.refl _)
        ⟨.atEnd (List.getElem?_eq_none_iff.1 ht), rfl⟩
    | some t =>
      rw [atomAt_some ht]
      exact atomFrom_runs h hshort ht
  refine passes_calling (by decide) hbody fun item w' htaken => ?_
  refine htaken.around rfl rfl rfl rfl fun hstate => ?_
  -- The call has returned, so the active calls are those of the caller again.
  show { w'.state with callers := w'.state.callers.tail } = w.state
  rw [hstate]
  rfl

/-- The recursion of atoms runs into its bound only if this leaves room below the limit on what is
    open. -/
theorem atom?_proceeds (room : Nat) :
    Proceeds (fun depth => depth + room < maxNesting) (ItemTaken tokens (StartsNone tokens))
      (atom? tokens node room) := by
  induction room with
  | zero =>
    -- Behind the last parenthesis that may be opened, nothing is read with this bound.
    have hfail : Proceeds (fun _ => True) (ItemTaken tokens (StartsNone tokens))
        (fail .bound) := fun w => ⟨.refl w, fun _ => trivial⟩
    exact atomAround_proceeds hfail fun depth hlt _ => hlt
  | succ room ih => exact atomAround_proceeds ih fun depth _ hshort => by omega

/-- Where no atom starts, none is read. -/
theorem exists_atom?_eq_none (h : StartsNone tokens w.state.pos) (room : Nat) :
    ∃ w', atom? tokens node room w = .ok none w' := by
  have hat : ∀ inner, atomAt tokens node inner ((w.note .atom .call).push .atom) =
      .ok none ((w.note .atom .call).push .atom) := by
    intro inner
    cases h with
    | atEnd hle => exact atomAt_none (List.getElem?_eq_none hle) _ _
    | other ht hname hliteral hparen =>
      exact (atomAt_some ht _ _).trans (atomFrom_other hname hliteral hparen)
    | definition ht hu =>
      obtain ⟨t, ht, hkind⟩ := kindAt?_eq_some_iff.1 ht
      exact (atomAt_some ht _ _).trans
        (atomFrom_definition (w := (w.note .atom .call).push .atom) hkind hu)
  cases room with
  | zero => exact ⟨_, by rw [atom?, atomAround, calling, hat]⟩
  | succ room => exact ⟨_, by rw [atom?, atomAround, calling, hat]⟩

end Atoms

/-! ### Definitions -/

/-- At every call and every return of a definition up to now, nothing was open. -/
def Grounded (w : World) : Prop :=
  ∀ m ∈ w.moments, m.site = .definition → m.state.depth = 0

/-- What happens while definitions are read, whether this succeeds or not. -/
structure Grounds (w w' : World) : Prop where
  /-- The cursor is where it was, or further on. -/
  pos_le : w.state.pos ≤ w'.state.pos
  /-- If nothing was open at the definitions before, nothing is at those that follow. -/
  grounded : Grounded w → Grounded w'

section Definitions

variable {tokens : List Token} {short : Prop} {w w' : World}

instance : Trans Grounds Grounds Grounds :=
  ⟨fun h h' => ⟨Nat.le_trans h.pos_le h'.pos_le, fun hw => h'.grounded (h.grounded hw)⟩⟩

theorem Passes.grounds (h : Passes w w') : Grounds w w' := by
  obtain ⟨more, hmore, hsites⟩ := h.moments
  refine ⟨h.pos_le, fun hw m hm hsite => ?_⟩
  rw [hmore] at hm
  rcases List.mem_append.1 hm with hnew | hold
  · exact absurd hsite (hsites m hnew)
  · exact hw m hold hsite

theorem Runs.grounds {α : Type} {post : α → World → Prop} {r : EStateM.Result Stop World α}
    (h : Runs Passes short w post r) : Runs Grounds short w post r :=
  h.mono (fun _ => Passes.grounds) id fun _ _ _ hpost => hpost

/-- A moment at which nothing is open. -/
theorem grounds_note (hdepth : w.state.depth = 0) (site : Site) (phase : Phase) :
    Grounds w (w.note site phase) :=
  ⟨Nat.le_refl _, fun hw => List.forall_mem_cons.2 ⟨fun _ => hdepth, hw⟩⟩

theorem define_runs (id : NodeId) (name : String) (body : HandleRule) (w : World) :
    Runs Grounds short w (fun _ w' => w'.state.pos = w.state.pos ∧
      w'.state.depth = w.state.depth) (define id name body w) := by
  refine (nodeAt_runs id w).grounds.bind ?_
  rintro _ _ - rfl
  exact runs_ok rfl ⟨Nat.le_refl _, fun hw => hw⟩ ⟨rfl, rfl⟩

/-- The rule of a definition is read with room for all that may be open. -/
theorem body_runs (id : NodeId) (name : String) (w : World) :
    Runs Grounds short w (fun _ w' => Takes tokens w w')
      ((rule tokens id (atom? tokens id maxNesting) >>= define id name) w) := by
  refine ((rule_proceeds (atom?_proceeds maxNesting) w).grounds.weaken (by omega)).bind
    fun body w' _ htakes => ?_
  refine (define_runs id name body w').imp ?_
  rintro _ w'' ⟨hpos, hdepth⟩
  exact ⟨htakes.inside, hpos ▸ htakes.pos_lt, hdepth.trans htakes.depth_eq⟩

/-- A call where nothing is open, if nothing is open at its return. -/
theorem grounds_calling (hdepth : w.state.depth = 0) {site : Site} {α : Type}
    {built : α → List HandleRule} {f : WatchM α}
    (h : Runs Grounds short ((w.note site .call).push site) (fun _ w' => Takes tokens w w')
      (f ((w.note site .call).push site))) :
    Runs Grounds short w (fun _ w' => Takes tokens w w') (calling site built f w) := by
  refine runs_calling ?_ h (fun _ w' htakes => ?_)
    fun _ _ htakes => ⟨htakes.inside, htakes.pos_lt, htakes.depth_eq⟩
  · exact Trans.trans (grounds_note hdepth site .call) (passes_push _ site).grounds
  · have hclosed : w'.pop.state.depth = 0 := htakes.depth_eq.trans hdepth
    exact Trans.trans (passes_pop w').grounds (grounds_note hclosed _ _)

/-- A definition that is called where nothing is open takes tokens, and nothing is open behind
    it. -/
theorem definition_runs (hdepth : w.state.depth = 0) :
    Runs Grounds short w (fun _ w' => Takes tokens w w') (definition tokens w) := by
  refine grounds_calling hdepth ((expect_runs .name _).grounds.bind ?_)
  rintro head _ - ⟨hinside, rfl⟩
  refine (internNode_runs head.text head.span _).grounds.bind fun id w₁ hgrounds hkept => ?_
  refine (expect_runs .equals w₁).grounds.bind ?_
  rintro _ _ - ⟨-, rfl⟩
  refine (nodeAt_runs id _).grounds.bind ?_
  rintro pending _ - rfl
  split
  · exact (refuse_runs _ _ fun _ _ => False).grounds.bind fun _ _ _ hnever => hnever.elim
  · refine (body_runs id head.text _).imp fun _ w' htakes => ?_
    have hhead : w.state.pos + 1 ≤ w₁.state.pos := hgrounds.pos_le
    have hbody : w₁.state.pos + 1 < w'.state.pos := htakes.pos_lt
    exact ⟨hinside, by omega, htakes.depth_eq.trans hkept⟩

theorem definitions_runs {bound : Nat} (hdepth : w.state.depth = 0)
    (hbound : tokens.length - w.state.pos < bound) :
    Runs Grounds short w (fun _ _ => True) (definitions tokens bound w) := by
  -- Each definition takes a token or more, so one less is enough of a bound behind it.
  induction bound generalizing w with
  | zero => omega
  | succ bound ih =>
    rcases Nat.lt_or_ge w.state.pos tokens.length with hlt | hle
    · rw [definitions_of_lt hlt]
      refine (definition_runs hdepth).bind fun _ w' _ htakes => ?_
      have hpos := htakes.pos_lt
      exact ih (htakes.depth_eq.trans hdepth) (by omega)
    · exact runs_ok (definitions_of_le hle bound) (Passes.refl w).grounds trivial

theorem finish_runs (w : World) : Runs Grounds short w (fun _ _ => True) (finish w) := by
  unfold finish
  split
  · exact runs_error rfl (Passes.refl w).grounds (by simp)
  · split
    · exact runs_ok rfl ⟨Nat.le_refl _, fun hw => hw⟩ trivial
    · exact runs_error rfl (Passes.refl w).grounds (by simp)

theorem grammar_runs (tokens : List Token) :
    Runs Grounds short {} (fun _ _ => True) (grammar tokens {}) :=
  (definitions_runs rfl (Nat.lt_succ_self _)).bind fun _ w' _ _ => finish_runs w'

end Definitions

/-! ### Progress and balance -/

/-- From any state, the reader takes tokens if it succeeds, and closes what it opens. It does not
    run into a bound if the recursion has room for as much as may be open. -/
structure Progresses (room : Nat) (f : WatchM HandleRule) : Prop where
  /-- Tokens are taken. -/
  advances : ∀ w body w', f w = .ok body w' → Advances w.state w'.state
  /-- No bound is short. -/
  ends : ∀ w, maxNesting ≤ w.state.depth + room → ∀ w', f w ≠ .error (.fault .bound) w'

section Progresses

variable {tokens : List Token} {w w' : World}

theorem Takes.advances (h : Takes tokens w w') (hpasses : Passes w w') :
    Advances w.state w'.state :=
  ⟨hpasses.toProlongs, h.pos_lt, h.depth_eq⟩

theorem Proceeds.progresses {room : Nat} {f : WatchM HandleRule}
    (h : Proceeds (fun depth => depth + room < maxNesting) (fun w _ w' => Takes tokens w w') f) :
    Progresses room f where
  advances := by
    intro w body w' hread
    obtain ⟨hpasses, htakes⟩ := (h w).of_ok hread
    exact htakes.advances hpasses
  ends w hroom := (h w).not_bound (by omega)

/-- The whole reader under watch gives what the reader gives. -/
theorem grammar_outcome (tokens : List Token) :
    ∃ w, (∃ g, Grammar.ofTokens tokens = .ok g ∧ grammar tokens {} = .ok g w) ∨
      ∃ e, Grammar.ofTokens tokens = .error e ∧ grammar tokens {} = .error (.refused e) w := by
  rcases (grammar_agrees tokens).cases with
    ⟨g, s, w, hread, hwatch, -⟩ | ⟨e, s, w, hread, hwatch, -⟩
  · have hresult : Grammar.readTokens tokens = (.ok g, s.draft.log.toList) := by
      rw [Grammar.readTokens, EStateM.run, hread]
    exact ⟨w, .inl ⟨g, congrArg Prod.fst hresult, hwatch⟩⟩
  · have hresult : Grammar.readTokens tokens = (.error e, s.draft.log.toList) := by
      rw [Grammar.readTokens, EStateM.run, hread]
    exact ⟨w, .inr ⟨e, congrArg Prod.fst hresult, hwatch⟩⟩

/-- From any state at all, an atom is missing exactly where none starts, and then the state stays
    as it is. A part of a rule that is read takes a token or more, closes what it opens, and lets
    the tables only become longer. So no loop runs into its bound, and neither does the recursion
    if there is room for as much as may be open. The whole reader succeeds or refuses the tokens
    as the reader of grammars does, and nothing is open where a definition starts. -/
theorem progress_and_balance (tokens : List Token) :
    (∀ node room,
      (∀ w, (∃ w', atom? tokens node room w = .ok none w') ↔ StartsNone tokens w.state.pos) ∧
      (∀ w w', atom? tokens node room w = .ok none w' → w'.state = w.state) ∧
      (∀ w atom w', atom? tokens node room w = .ok (some atom) w' → Advances w.state w'.state) ∧
      Progresses room (required tokens node (atom? tokens node room)) ∧
      Progresses room (sequence tokens node (atom? tokens node room)) ∧
      Progresses room (rule tokens node (atom? tokens node room))) ∧
    (∀ bound w, w.state.depth = 0 → tokens.length - w.state.pos < bound →
      ∀ w', definitions tokens bound w ≠ .error (.fault .bound) w') ∧
    ∃ w,
      ((∃ g, Grammar.ofTokens tokens = .ok g ∧ grammar tokens {} = .ok g w) ∨
        ∃ e, Grammar.ofTokens tokens = .error e ∧ grammar tokens {} = .error (.refused e) w) ∧
      ∀ m ∈ w.moments, m.site = .definition → m.state.depth = 0 := by
  refine ⟨fun node room => ?_, ?_, ?_⟩
  · have hatom : Proceeds (fun depth => depth + room < maxNesting)
        (ItemTaken tokens (StartsNone tokens)) (atom? tokens node room) := atom?_proceeds room
    refine ⟨fun w => ⟨?_, fun h => exists_atom?_eq_none h room⟩, ?_, ?_,
      (required_proceeds hatom).progresses, (sequence_proceeds hatom).progresses,
      (rule_proceeds hatom).progresses⟩
    · rintro ⟨w', hread⟩
      exact ((hatom w).of_ok hread).2.1
    · exact fun w w' hread => ((hatom w).of_ok hread).2.2
    · intro w atom w' hread
      obtain ⟨hpasses, htakes⟩ := (hatom w).of_ok hread
      exact Takes.advances htakes hpasses
  · exact fun bound w hdepth hbound => (definitions_runs hdepth hbound).not_bound not_false
  · have hstart : Grounded {} := by simp [Grounded]
    have hruns : Runs Grounds False {} (fun _ _ => True) (grammar tokens {}) := grammar_runs tokens
    obtain ⟨w, hw⟩ := grammar_outcome tokens
    refine ⟨w, hw, ?_⟩
    rcases hw with ⟨g, -, hread⟩ | ⟨e, -, hread⟩
    · exact (hruns.of_ok hread).1.grounded hstart
    · exact (hruns.of_error hread).grounded hstart

/-- In `A = ('x')`, the cursor in front of the group, and in front of the definition. -/
theorem progress_and_balance_group :
    let tokens : List Token := [⟨.name, .ofLength 0 1, some "A"⟩, ⟨.equals, .ofLength 2 1, none⟩,
      ⟨.openParen, .ofLength 4 1, none⟩, ⟨.literal, .ofLength 5 3, some "x"⟩,
      ⟨.closeParen, .ofLength 8 1, none⟩]
    let inside : World := { state.pos := 2 }
    (∃ w', rule tokens ⟨0⟩ (atom? tokens ⟨0⟩ maxNesting) inside = .ok (.token ⟨0⟩) w' ∧
      Advances inside.state w'.state) ∧
    (∃ w', atom? tokens ⟨0⟩ maxNesting {} = .ok none w' ∧ w'.state = {}) ∧
    (∀ w', definitions tokens 6 {} ≠ .error (.fault .bound) w') ∧
    ∃ g w, Grammar.ofTokens tokens = .ok g ∧ grammar tokens {} = .ok g w ∧
      ∀ m ∈ w.moments, m.site = .definition → m.state.depth = 0 := by
  intro tokens inside
  obtain ⟨hparts, hdefinitions, w, houtcome, hgrounded⟩ := progress_and_balance tokens
  obtain ⟨hnone, hsame, -, -, -, hrule⟩ := hparts ⟨0⟩ maxNesting
  refine ⟨?_, ?_, hdefinitions 6 {} rfl (by decide), ?_⟩
  · have hread : ∃ w', rule tokens ⟨0⟩ (atom? tokens ⟨0⟩ maxNesting) inside =
        .ok (.token ⟨0⟩) w' := by
      simp [tokens, inside, rule, sequence, required, calling, holding, collect, alternative?,
        atom?, atomAround, atomAt, atomFrom, enter, leave, expect, maxNesting, internToken,
        enterToken, quantified, kindAt?, skip, World.note, World.push, World.move, World.pop,
        World.setDepth, World.hold, Rule.ofSeq, Rule.ofAlt, bind, EStateM.bind, pure,
        EStateM.pure, Functor.map, EStateM.map]
    obtain ⟨w', hread⟩ := hread
    exact ⟨w', hread, hrule.advances _ _ _ hread⟩
  · obtain ⟨w', hread⟩ := (hnone {}).2 (.definition rfl rfl)
    exact ⟨w', hread, hsame _ _ hread⟩
  · rcases houtcome with ⟨g, hg, hread⟩ | ⟨e, he, -⟩
    · exact ⟨g, w, hg, hread, hgrounded⟩
    · have hg : (Grammar.ofTokens tokens).isOk = true := by
        simp only [tokens]
        cbv
      rw [he] at hg
      cases hg

end Progresses

end Watch

end TreeGrammar
