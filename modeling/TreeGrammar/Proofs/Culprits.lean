import TreeGrammar.Proofs.Occurrences
import TreeGrammar.Proofs.Openings
import TreeGrammar.Proofs.Reports

/-! # What errors blame

    Every error is about one place, and what it says of this place can be
    checked on the flat list of tokens (`SyntaxError.Blames`).

    Key idea:
    - what a token does to the machine, and why it may be refused, is said in
      full detail once (`Stepwise.Settles`, `Stepwise.Quantifies`,
      `Stepwise.Resolves`);
    - the machine knows of the tokens behind it the heads, the mentions and
      the open parentheses and labels (`Stepwise.Frame.Knows`), and each move
      preserves this (`Stepwise.knows_of_step`);
    - the error of a move, or of the end, says no more than that
      (`Stepwise.blames_of_step`, `Stepwise.blames_of_finish`).
-/

namespace TreeGrammar

/-! ### Blame -/

/-- What an error says about some tokens. -/
def SyntaxError.Blames (tokens : List Token) : SyntaxError → Prop
  -- A missing token has no place.
  | .unexpectedEnd _ => True
  | .unexpectedToken _ found span => ∃ t ∈ tokens, t.kind = found ∧ t.span = span
  -- The node is the one of the last head. Its rule is empty where the tokens end or in front of
  -- another head, whose name has no head before.
  | .emptyRule node span =>
    (∃ last head, tokens.getLast? = some last ∧ span = .point last.span.stop ∧
      (headsOf tokens).getLast? = some head ∧ head.text = node) ∨
    ∃ before next equals behind head, tokens = before ++ next :: equals :: behind ∧
      next.kind = .name ∧ equals.kind = .equals ∧ span = .point next.span.start ∧
      (∀ t ∈ headsOf before, t.text ≠ next.text) ∧
      (headsOf before).getLast? = some head ∧ head.text = node
  | .duplicateNode name span =>
    ∃ before head equals behind, tokens = before ++ head :: equals :: behind ∧
      head.kind = .name ∧ equals.kind = .equals ∧ head.text = name ∧ head.span = span ∧
      ∃ t ∈ headsOf before, t.text = name
  -- The name is the first mention of a node without a definition.
  | .undefinedNode name span =>
    (∀ t ∈ headsOf tokens, t.text ≠ name) ∧
    ∃ front first behind, mentionsOf tokens = front ++ first :: behind ∧
      first.text = name ∧ first.span = span ∧
      ∀ t ∈ front, t.text ≠ name ∧ ∃ head ∈ headsOf tokens, head.text = t.text
  | .nestingTooDeep span =>
    ∃ before t behind, tokens = before ++ t :: behind ∧ t.span = span ∧
      (t.kind = .openParen ∨ t.kind = .name ∧ headKind? behind = some .colon) ∧
      openAtEnd before = maxNesting

/-! ### Tokens in a row -/

/-- The walk through some tokens goes on through those behind, unless the last name becomes a
    label. -/
theorem occurrencesOf_append (front : List Token) {behind : List Token}
    (h : headKind? behind ≠ some .colon) :
    occurrencesOf (front ++ behind) = occurrencesOf front ++ occurrencesOf behind := by
  induction front with
  | nil => rfl
  | cons t front ih =>
    have hnext : headKind? (front ++ behind) ≠ some .colon ↔ headKind? front ≠ some .colon := by
      cases front with
      | nil => exact iff_of_true h (by simp [headKind?])
      | cons u front => rfl
    rw [List.cons_append, occurrencesOf, occurrencesOf, ih]
    simp only [hnext]
    split <;> rfl

theorem mentionsOf_append (front : List Token) {behind : List Token}
    (h : headKind? behind ≠ some .colon) :
    mentionsOf (front ++ behind) = mentionsOf front ++ mentionsOf behind := by
  rw [mentionsOf, occurrencesOf_append front h, List.filter_append]
  rfl

/-- So do the heads, unless the last name becomes one. -/
theorem headsOf_append_behind (front : List Token) {behind : List Token}
    (h : headKind? behind ≠ some .equals) :
    headsOf (front ++ behind) = headsOf front ++ headsOf behind := by
  induction front with
  | nil => rfl
  | cons t front ih =>
    have hstarts : startsDefinition (t :: (front ++ behind)) = startsDefinition (t :: front) := by
      cases front with
      | nil =>
        rw [List.nil_append, startsDefinition, List.tail_cons, decide_eq_false h, Bool.and_false]
        simp [startsDefinition, headKind?]
      | cons u front => rfl
    rw [List.cons_append, headsOf, headsOf, ih, hstarts]
    split <;> rfl

theorem mentionsOf_singleton {t : Token} (ht : t.kind ≠ .name) : mentionsOf [t] = [] := by
  unfold mentionsOf occurrencesOf
  split <;> simp [occurrencesOf, ht]

theorem mentionsOf_name {t : Token} (ht : t.kind = .name) : mentionsOf [t] = [t] := by
  simp [mentionsOf, occurrencesOf, headKind?, ht]

theorem mentionsOf_label {name colon : Token} (hname : name.kind = .name)
    (hcolon : colon.kind = .colon) : mentionsOf [name, colon] = [] := by
  simp [mentionsOf, occurrencesOf, headKind?, hname, hcolon]

theorem mentionsOf_head {head equals : Token} (hhead : head.kind = .name)
    (hequals : equals.kind = .equals) : mentionsOf [head, equals] = [head] := by
  simp [mentionsOf, occurrencesOf, headKind?, hhead, hequals]

theorem headsOf_singleton (t : Token) : headsOf [t] = [] := by
  simp [headsOf, startsDefinition, headKind?]

theorem headsOf_label {name colon : Token} (hcolon : colon.kind = .colon) :
    headsOf [name, colon] = [] := by
  simp [headsOf, startsDefinition, headKind?, hcolon]

/-! ### Mentions in a draft -/

namespace Draft

/-- The nodes of a draft are the names that some tokens mention, each with its first mention. -/
structure Mentions (d : Draft) (mentions : List Token) : Prop where
  names : d.names = seeAll [] (mentions.map Token.text)
  spans : ∀ node ∈ d.nodes, ∃ t, mentions.find? (·.text = node.name) = some t ∧
    t.span = node.span

variable {d : Draft} {mentions : List Token}

theorem mentions_empty : Mentions {} [] :=
  ⟨rfl, by simp⟩

theorem Mentions.nodup (h : d.Mentions mentions) : d.names.Nodup := by
  rw [h.names]
  exact nodup_seeAll List.nodup_nil _

theorem Mentions.mem_names_iff (h : d.Mentions mentions) {name : String} :
    name ∈ d.names ↔ ∃ t ∈ mentions, t.text = name := by
  rw [h.names]
  simp

/-- What is mentioned once more is entered if it is new. -/
theorem Mentions.internNode (h : d.Mentions mentions) (t : Token) :
    (d.internNode t.text t.span).2.Mentions (mentions ++ [t]) where
  names := by
    rw [(d.grows_internNode t.text t.span).names, h.names, List.map_append, seeAll_append]
    rfl
  spans node hnode := by
    have hold : node ∈ d.nodes → ∃ u, (mentions ++ [t]).find? (·.text = node.name) = some u ∧
        u.span = node.span := by
      intro hmem
      obtain ⟨u, hfind, hspan⟩ := h.spans node hmem
      exact ⟨u, by rw [List.find?_append, hfind, Option.some_or], hspan⟩
    by_cases hmem : t.text ∈ d.names
    · rw [internNode_of_mem hmem] at hnode
      exact hold hnode
    · rw [internNode_of_not_mem hmem] at hnode
      obtain hnode | hnode := List.mem_append.1 hnode
      · exact hold hnode
      · -- The new name has no mention before this one.
        obtain rfl := List.mem_singleton.1 hnode
        have hnone : mentions.find? (·.text = t.text) = none := by
          rw [List.find?_eq_none]
          intro u hu htext
          exact hmem (h.mem_names_iff.2 ⟨u, hu, of_decide_eq_true htext⟩)
        refine ⟨t, ?_, rfl⟩
        rw [List.find?_append, hnone, Option.none_or]
        simp

/-- Nodes with the same names and spans have the same mentions. -/
theorem Mentions.congr (h : d.Mentions mentions) {d' : Draft} (hnames : d'.names = d.names)
    (hnodes : ∀ node ∈ d'.nodes, ∃ old ∈ d.nodes, old.name = node.name ∧ old.span = node.span) :
    d'.Mentions mentions where
  names := hnames.trans h.names
  spans node hnode := by
    obtain ⟨old, hold, hname, hspan⟩ := hnodes node hnode
    obtain ⟨t, hfind, ht⟩ := h.spans old hold
    exact ⟨t, hname ▸ hfind, ht.trans hspan⟩

theorem Mentions.define (h : d.Mentions mentions) (id : NodeId) (name : String)
    (rule : HandleRule) : (d.define id name rule).Mentions mentions := by
  refine h.congr (names_define d id name rule) ?_
  intro node hnode
  obtain ⟨i, hi⟩ := List.mem_iff_getElem?.1 hnode
  simp only [Draft.define, List.getElem?_modify, Option.map_eq_map, Option.map_eq_some_iff] at hi
  obtain ⟨old, hold, rfl⟩ := hi
  refine ⟨old, List.mem_of_getElem? hold, ?_⟩
  split <;> exact ⟨rfl, rfl⟩

theorem nodes_internToken (d : Draft) (name : String) : (d.internToken name).2.nodes = d.nodes := by
  unfold Draft.internToken
  split <;> rfl

/-- What is mentioned before a node stands in front of it in the table. -/
theorem Mentions.mem_names_before (h : d.Mentions mentions) {defined others : List PendingNode}
    {node : PendingNode} (hnodes : d.nodes = defined ++ node :: others) {front : List Token}
    (hfront : front <+: mentions) (hnone : ∀ t ∈ front, t.text ≠ node.name) :
    ∀ t ∈ front, t.text ∈ defined.map PendingNode.name := by
  obtain ⟨behind, rfl⟩ := hfront
  have hnames : defined.map PendingNode.name ++ node.name :: others.map PendingNode.name =
      seeAll (seeAll [] (front.map Token.text)) (behind.map Token.text) := by
    have hnames := h.names
    rwa [Draft.names, hnodes, List.map_append, List.map_cons, List.map_append, seeAll_append]
      at hnames
  have hseen : seeAll [] (front.map Token.text) <+:
      defined.map PendingNode.name ++ node.name :: others.map PendingNode.name := by
    rw [hnames]
    exact prefix_seeAll _ _
  have hupto : defined.map PendingNode.name ++ [node.name] <+:
      defined.map PendingNode.name ++ node.name :: others.map PendingNode.name :=
    ⟨others.map PendingNode.name, (List.append_cons _ _ _).symm⟩
  have hnot : node.name ∉ seeAll [] (front.map Token.text) := by
    rw [mem_seeAll_iff, List.mem_map, not_or]
    refine ⟨List.not_mem_nil, ?_⟩
    rintro ⟨t, ht, htext⟩
    exact hnone t ht htext
  -- The names seen so far end before the node, since they do not hold its name.
  intro t ht
  have hmem : t.text ∈ seeAll [] (front.map Token.text) :=
    mem_seeAll_iff.2 (.inr (List.mem_map_of_mem ht))
  obtain hshort | hlong := List.prefix_or_prefix_of_prefix hseen hupto
  · obtain hdefined | hlast := List.mem_append.1 (hshort.subset hmem)
    · exact hdefined
    · exact absurd (List.mem_singleton.1 hlast) (hnone t ht)
  · exact absurd (hlong.subset (by simp)) hnot

/-- The node that is reported as undefined is the first one that is mentioned without a
    definition. -/
theorem Mentions.undefined_of_complete (h : d.Mentions mentions) {e : SyntaxError}
    (hcomplete : d.complete = .error e) :
    ∃ name span front first behind, e = .undefinedNode name span ∧ d.isDefined name = false ∧
      mentions = front ++ first :: behind ∧ first.text = name ∧ first.span = span ∧
      ∀ t ∈ front, t.text ≠ name ∧ d.isDefined t.text = true := by
  obtain ⟨defined, node, others, hnodes, hdefined, hrule, rfl⟩ :=
    exists_undefined_of_complete hcomplete
  have hnode : node ∈ d.nodes := by
    rw [hnodes]
    simp
  obtain ⟨first, hfind, hspan⟩ := h.spans node hnode
  obtain ⟨htext, front, behind, hmentions, hfront⟩ := List.find?_eq_some_iff_append.1 hfind
  have hnone : ∀ t ∈ front, t.text ≠ node.name := by simpa using hfront
  refine ⟨node.name, node.span, front, first, behind, rfl, ?_, hmentions, by simpa using htext,
    hspan, ?_⟩
  · -- No other node has the name.
    rw [← Bool.not_eq_true]
    intro htrue
    simp only [isDefined, List.any_eq_true, Bool.and_eq_true, decide_eq_true_eq] at htrue
    obtain ⟨node', hnode', hname, hsome⟩ := htrue
    obtain rfl : node' = node := List.inj_on_of_nodup_map h.nodup hnode' hnode hname
    rw [hrule] at hsome
    cases hsome
  · intro t ht
    refine ⟨hnone t ht, ?_⟩
    have hbefore := h.mem_names_before hnodes ⟨first :: behind, hmentions.symm⟩ hnone t ht
    obtain ⟨node', hnode', hname⟩ := List.mem_map.1 hbefore
    simp only [isDefined, List.any_eq_true, Bool.and_eq_true, decide_eq_true_eq]
    refine ⟨node', ?_, hname, hdefined node' hnode'⟩
    rw [hnodes]
    exact List.mem_append_left _ hnode'

end Draft

namespace Stepwise

/-! ### Moves -/

/-- What a token does where everything before it is settled. -/
inductive Settles (f : Frame) (d : Draft) (t : Token) : Except SyntaxError Config → Prop where
  | name (kind : t.kind = .name) : Settles f d t (.ok ⟨.body f (.name t), d⟩)
  | literal (kind : t.kind = .literal) :
      Settles f d t
        (.ok ⟨.body f (.operand (.token (d.internToken t.text).1)), (d.internToken t.text).2⟩)
  | group (kind : t.kind = .openParen) (room : f.depth < maxNesting) :
      Settles f d t
        (.ok ⟨.body { f with inner := .start, outer := f.inner :: f.outer } .settled, d⟩)
  | deep (kind : t.kind = .openParen) (full : ¬ f.depth < maxNesting) :
      Settles f d t (.error (.nestingTooDeep t.span))
  | bar (kind : t.kind = .bar) :
      Settles f d t (.ok ⟨.body { f with inner := f.inner.nextChoice } .settled, d⟩)
  | ungroup {o : OpenRule} {outer : List OpenRule} (kind : t.kind = .closeParen)
      (complete : f.inner.needsPart = false) (opened : f.outer = o :: outer) :
      Settles f d t
        (.ok ⟨.body { f with inner := o, outer } (.operand f.inner.close), d⟩)
  | refused (expected : Expected) :
      Settles f d t (.error (.unexpectedToken expected t.kind t.span))

/-- What a token does behind a primary. -/
inductive Quantifies (f : Frame) (rule : HandleRule) (d : Draft) (t : Token) :
    Except SyntaxError Config → Prop where
  | quantifier (kind : t.kind = .question ∨ t.kind = .star) (quantified : HandleRule) :
      Quantifies f rule d t (.ok ⟨.body (f.push quantified) .settled, d⟩)
  | settles {result : Except SyntaxError Config} (settles : Settles (f.push rule) d t result) :
      Quantifies f rule d t result

/-- What a token does behind a name. -/
inductive Resolves (f : Frame) (head : Token) (d : Draft) (t : Token) :
    Except SyntaxError Config → Prop where
  | label (kind : t.kind = .colon) (room : f.depth < maxNesting) :
      Resolves f head d t (.ok ⟨.body { f with inner := f.inner.label head.text } .settled, d⟩)
  | deep (kind : t.kind = .colon) (full : ¬ f.depth < maxNesting) :
      Resolves f head d t (.error (.nestingTooDeep head.span))
  | duplicate (kind : t.kind = .equals)
      (known : head.text = f.name ∨ d.isDefined head.text = true) :
      Resolves f head d t (.error (.duplicateNode head.text head.span))
  | empty (kind : t.kind = .equals) (new : head.text ≠ f.name)
      (undefined : d.isDefined head.text = false) :
      Resolves f head d t (.error (.emptyRule f.name (.point head.span.start)))
  | unclosed (kind : t.kind = .equals) (expected : Expected) :
      Resolves f head d t (.error (.unexpectedToken expected head.kind head.span))
  | second {d' : Draft} (kind : t.kind = .equals) (outer : f.outer = [])
      (defined : d' = d.define f.id f.name f.inner.close)
      (known : (d'.internNode head.text head.span).2.isDefined head.text = true) :
      Resolves f head d t (.error (.duplicateNode head.text head.span))
  | next {d' : Draft} (kind : t.kind = .equals) (outer : f.outer = [])
      (defined : d' = d.define f.id f.name f.inner.close) :
      Resolves f head d t
        (.ok ⟨.body ⟨(d'.internNode head.text head.span).1, head.text, .start, []⟩ .settled,
          (d'.internNode head.text head.span).2⟩)
  | reference {result : Except SyntaxError Config} (colon : t.kind ≠ .colon)
      (equals : t.kind ≠ .equals)
      (quantifies : Quantifies f (.node (d.internNode head.text head.span).1)
        (d.internNode head.text head.span).2 t result) : Resolves f head d t result

section Moves

variable (f : Frame) (rule : HandleRule) (d : Draft) (head t : Token)

theorem settles_stepSettled : Settles f d t (f.stepSettled d t) := by
  unfold Frame.stepSettled
  split
  · rename_i hname
    exact .name hname
  · rename_i hliteral
    exact .literal hliteral
  · rename_i hparen
    split
    · rename_i hroom
      exact .group hparen hroom
    · rename_i hfull
      exact .deep hparen hfull
  · unfold Frame.closeWith
    split
    · exact .refused _
    · rename_i hcomplete
      rw [Bool.not_eq_true] at hcomplete
      split
      · rename_i hbar
        exact .bar hbar
      · split
        · exact .refused _
        · rename_i houter
          split
          · rename_i hclose
            exact .ungroup hclose hcomplete houter
          · exact .refused _

theorem quantifies_stepOperand : Quantifies f rule d t (f.stepOperand rule d t) := by
  unfold Frame.stepOperand
  split
  · rename_i hquestion
    exact .quantifier (.inl hquestion) _
  · rename_i hstar
    exact .quantifier (.inr hstar) _
  · exact .settles (settles_stepSettled (f.push rule) d t)

theorem resolves_stepName : Resolves f head d t (f.stepName head d t) := by
  unfold Frame.stepName
  split
  · rename_i hcolon
    split
    · rename_i hroom
      exact .label hcolon hroom
    · rename_i hfull
      exact .deep hcolon hfull
  · rename_i hequals
    unfold Frame.endBefore
    split
    · split
      · rename_i hknown
        rw [Bool.or_eq_true, decide_eq_true_eq] at hknown
        exact .duplicate hequals hknown
      · rename_i hnew
        rw [Bool.or_eq_true, decide_eq_true_eq, not_or, Bool.not_eq_true] at hnew
        exact .empty hequals hnew.1 hnew.2
    · split
      · rename_i houter
        unfold startBody
        dsimp only
        split
        · rename_i hknown
          exact .second hequals houter rfl hknown
        · exact .next hequals houter rfl
      · exact .unclosed hequals _
  · rename_i hcolon hequals
    exact .reference hcolon hequals (quantifies_stepOperand f _ _ t)

variable {f rule d head t} {result : Except SyntaxError Config}

theorem settles_of_step (h : step ⟨.body f .settled, d⟩ t = result) : Settles f d t result := by
  rw [step_settled] at h
  exact h ▸ settles_stepSettled f d t

theorem quantifies_of_step (h : step ⟨.body f (.operand rule), d⟩ t = result) :
    Quantifies f rule d t result := by
  rw [step_operand] at h
  exact h ▸ quantifies_stepOperand f rule d t

theorem resolves_of_step (h : step ⟨.body f (.name head), d⟩ t = result) :
    Resolves f head d t result := by
  rw [step_name] at h
  exact h ▸ resolves_stepName f d head t

end Moves

/-! ### What is known behind some tokens -/

/-- What is known of the tokens that lead into the rule of a definition. -/
structure Frame.Knows (f : Frame) (d : Draft) (read : List Token) : Prop where
  /-- How many parentheses and labels are open. -/
  opens : f.Opens read
  /-- Where each node was mentioned first. -/
  mentions : d.Mentions (mentionsOf read)
  /-- The heads: that of the definition is the last one, and the others are defined. -/
  heads : ∃ earlier, (headsOf read).map Token.text = earlier ++ [f.name] ∧
    ∀ name, d.isDefined name = true ↔ name ∈ earlier

/-- What is known of the tokens that lead to a configuration. A name that is kept is not among
    those that lead into the rule. -/
def Config.Knows (c : Config) (tokens : List Token) : Prop :=
  match c.stage with
  | .fresh => tokens = []
  | .headed head _ => tokens = [head] ∧ head.kind = .name ∧ c.draft.Mentions [head] ∧
    ∀ name, c.draft.isDefined name = false
  | .body f .settled => f.Knows c.draft tokens
  | .body f (.name head) =>
    ∃ read, tokens = read ++ [head] ∧ head.kind = .name ∧ f.Knows c.draft read
  | .body f (.operand rule) => (f.push rule).Knows c.draft tokens

namespace Frame.Knows

variable {f f' : Frame} {d d' : Draft} {read : List Token} {t : Token}

/-- The node of the definition and those before it are the ones with a head. -/
theorem mem_heads_iff (h : f.Knows d read) {name : String} :
    (∃ t ∈ headsOf read, t.text = name) ↔ name = f.name ∨ d.isDefined name = true := by
  obtain ⟨earlier, hheads, hdefined⟩ := h.heads
  rw [← List.mem_map, hheads, List.mem_append, List.mem_singleton, hdefined]
  exact or_comm

/-- The last head is that of the definition. -/
theorem exists_last_head (h : f.Knows d read) :
    ∃ head, (headsOf read).getLast? = some head ∧ head.text = f.name := by
  obtain ⟨earlier, hheads, -⟩ := h.heads
  have hlast := congrArg List.getLast? hheads
  rw [List.getLast?_map, List.getLast?_concat] at hlast
  exact Option.map_eq_some_iff.1 hlast

/-- A token that is no name and tells nothing about one. -/
theorem plain (h : f.Knows d read) (hopens : f'.Opens (read ++ [t])) (hname : f'.name = f.name)
    (hnodes : d'.nodes = d.nodes) (ht : t.kind ≠ .name) (hcolon : t.kind ≠ .colon)
    (hequals : t.kind ≠ .equals) : f'.Knows d' (read ++ [t]) where
  opens := hopens
  mentions := by
    rw [mentionsOf_append read (by simpa [headKind?] using hcolon), mentionsOf_singleton ht,
      List.append_nil]
    refine h.mentions.congr (congrArg (List.map PendingNode.name) hnodes) ?_
    intro node hnode
    exact ⟨node, hnodes ▸ hnode, rfl, rfl⟩
  heads := by
    obtain ⟨earlier, hheads, hdefined⟩ := h.heads
    rw [headsOf_append_behind read (by simpa [headKind?] using hequals), headsOf_singleton,
      List.append_nil, hname]
    refine ⟨earlier, hheads, ?_⟩
    intro name
    rw [← hdefined, Draft.isDefined, Draft.isDefined, hnodes]

/-- A token that opens and closes nothing besides. -/
theorem passed (h : f.Knows d read) (houter : f'.outer = f.outer) (hlabels : f'.inner.labels = [])
    (hname : f'.name = f.name) (hnodes : d'.nodes = d.nodes)
    (ht : t.kind ∉ [.name, .colon, .equals, .openParen, .closeParen]) :
    f'.Knows d' (read ++ [t]) := by
  simp only [List.mem_cons, List.not_mem_nil, or_false, not_or] at ht
  obtain ⟨hne, hcolon, hequals, hopen, hclose⟩ := ht
  have hclosed : Closed [t] := closed_token hopen hclose hcolon
  have hopens := h.opens.append hclosed (List.cons_ne_nil t []) houter hlabels
  exact h.plain hopens hname hnodes hne hcolon hequals

/-- A name that is a reference. -/
theorem reference (h : f.Knows d read) (ht : t.kind = .name) (rule : HandleRule) :
    (f.push rule).Knows (d.internNode t.text t.span).2 (read ++ [t]) where
  opens := h.opens.append (closed_token (by simp [ht]) (by simp [ht]) (by simp [ht]))
    (List.cons_ne_nil _ _) rfl rfl
  mentions := by
    rw [mentionsOf_append read (by simp [headKind?, ht]), mentionsOf_name ht]
    exact h.mentions.internNode t
  heads := by
    obtain ⟨earlier, hheads, hdefined⟩ := h.heads
    rw [headsOf_append_behind read (by simp [headKind?, ht]), headsOf_singleton, List.append_nil]
    refine ⟨earlier, hheads, ?_⟩
    intro name
    rw [(d.grows_internNode t.text t.span).isDefined_eq, hdefined]

/-- A name and `:`. -/
theorem label (h : f.Knows d read) (hroom : f.depth < maxNesting) {head colon : Token}
    (hhead : head.kind = .name) (hcolon : colon.kind = .colon) :
    Frame.Knows { f with inner := f.inner.label head.text } d (read ++ [head, colon]) where
  opens := h.opens.label hroom hhead hcolon head.text
  mentions := by
    rw [mentionsOf_append read (by simp [headKind?, hhead]), mentionsOf_label hhead hcolon,
      List.append_nil]
    exact h.mentions
  heads := by
    rw [headsOf_append_behind read (by simp [headKind?, hhead]), headsOf_label hcolon,
      List.append_nil]
    exact h.heads

theorem closed_head {head equals : Token} (hhead : head.kind = .name)
    (hequals : equals.kind = .equals) : Closed [head, equals] := by
  have hfirst : Closed [head] :=
    closed_token (by simp [hhead]) (by simp [hhead]) (by simp [hhead])
  have hsecond : Closed [equals] :=
    closed_token (by simp [hequals]) (by simp [hequals]) (by simp [hequals])
  exact hfirst.append hsecond

/-- Behind the definition, its node is defined as well. -/
theorem isDefined_define (h : f.Knows d read) (hfits : f.Fits d) (rule : HandleRule)
    {name : String} :
    (d.define f.id f.name rule).isDefined name = true ↔ ∃ t ∈ headsOf read, t.text = name := by
  rw [hfits.handle, Draft.isDefined_define_iff hfits.nodup hfits.entered, h.mem_heads_iff]

/-- The head of the next definition, and its `=`. -/
theorem next (h : f.Knows d read) (hfits : f.Fits d) (houter : f.outer = []) (rule : HandleRule)
    {head equals : Token} (hhead : head.kind = .name) (hequals : equals.kind = .equals)
    (id : NodeId) :
    Frame.Knows ⟨id, head.text, .start, []⟩
      ((d.define f.id f.name rule).internNode head.text head.span).2 (read ++ [head, equals]) where
  opens := h.opens.append (closed_head hhead hequals) (List.cons_ne_nil _ _) houter.symm rfl
  mentions := by
    rw [mentionsOf_append read (by simp [headKind?, hhead]), mentionsOf_head hhead hequals]
    exact (h.mentions.define f.id f.name rule).internNode head
  heads := by
    have hhead' : headsOf [head, equals] = [head] := headsOf_head hhead hequals []
    rw [headsOf_append_behind read (by simp [headKind?, hhead]), hhead', List.map_append]
    refine ⟨_, rfl, ?_⟩
    intro name
    rw [(Draft.grows_internNode _ head.text head.span).isDefined_eq, h.isDefined_define hfits,
      List.mem_map]

end Frame.Knows

/-! ### Every move keeps it, and every error follows from it -/

section Moves

variable {f : Frame} {rule : HandleRule} {d : Draft} {head t : Token} {read behind : List Token}
  {c : Config} {e : SyntaxError}

theorem labels_eq_nil {o : OpenRule} (h : o.needsPart = false) : o.labels = [] := by
  simp only [OpenRule.needsPart, Bool.or_eq_false_iff, Bool.not_eq_false'] at h
  exact List.isEmpty_iff.1 h.2

theorem knows_of_settles (h : f.Knows d read) (hmove : Settles f d t (.ok c)) :
    c.Knows (read ++ [t]) := by
  cases hmove with
  | name kind =>
    -- The name is kept: the next token tells whether it is a mention.
    exact ⟨read, rfl, kind, h⟩
  | literal kind => exact h.passed rfl rfl rfl (Draft.nodes_internToken d t.text) (by simp [kind])
  | group kind room =>
    exact h.plain (h.opens.group room kind) rfl rfl (by simp [kind]) (by simp [kind])
      (by simp [kind])
  | bar kind => exact h.passed rfl rfl rfl rfl (by simp [kind])
  | ungroup kind complete opened =>
    exact h.plain (h.opens.ungroup (labels_eq_nil complete) opened kind _) rfl rfl (by simp [kind])
      (by simp [kind]) (by simp [kind])

theorem blames_of_settles (h : f.Knows d read) (hmove : Settles f d t (.error e))
    (behind : List Token) : e.Blames (read ++ t :: behind) := by
  cases hmove with
  | deep kind full =>
    -- No more can be open than there is room for.
    have hwithin := h.opens.within
    exact ⟨read, t, behind, rfl, rfl, .inl kind, by rw [h.opens.openAtEnd]; omega⟩
  | refused expected => exact ⟨t, by simp, rfl, rfl⟩

theorem knows_of_quantifies (h : (f.push rule).Knows d read)
    (hmove : Quantifies f rule d t (.ok c)) : c.Knows (read ++ [t]) := by
  cases hmove with
  | quantifier kind quantified =>
    refine h.passed rfl rfl rfl rfl ?_
    obtain kind | kind := kind <;> simp [kind]
  | settles hsettles => exact knows_of_settles h hsettles

theorem blames_of_quantifies (h : (f.push rule).Knows d read)
    (hmove : Quantifies f rule d t (.error e)) (behind : List Token) :
    e.Blames (read ++ t :: behind) := by
  cases hmove with
  | settles hsettles => exact blames_of_settles h hsettles behind

theorem knows_of_resolves (h : f.Knows d read) (hfits : f.Fits d) (hhead : head.kind = .name)
    (hmove : Resolves f head d t (.ok c)) : c.Knows (read ++ [head] ++ [t]) := by
  rw [List.append_assoc]
  cases hmove with
  | label kind room => exact h.label room hhead kind
  | next kind outer defined =>
    subst defined
    exact h.next hfits outer _ hhead kind _
  | reference colon equals quantifies =>
    have hread := knows_of_quantifies (h.reference hhead _) quantifies
    rwa [List.append_assoc] at hread

theorem blames_of_resolves (h : f.Knows d read) (hfits : f.Fits d) (hhead : head.kind = .name)
    (hmove : Resolves f head d t (.error e)) (behind : List Token) :
    e.Blames (read ++ [head] ++ t :: behind) := by
  rw [List.append_assoc, List.singleton_append]
  cases hmove with
  | deep kind full =>
    have hwithin := h.opens.within
    refine ⟨read, head, t :: behind, rfl, rfl, .inr ⟨hhead, congrArg some kind⟩, ?_⟩
    rw [h.opens.openAtEnd]
    omega
  | duplicate kind known =>
    exact ⟨read, head, t, behind, rfl, hhead, kind, rfl, rfl, h.mem_heads_iff.2 known⟩
  | empty kind new undefined =>
    -- A head before would be that of the definition, or its node would be defined.
    obtain ⟨last, hlast, hname⟩ := h.exists_last_head
    refine .inr ⟨read, head, t, behind, last, rfl, hhead, kind, rfl, ?_, hlast, hname⟩
    intro u hu htext
    obtain hsame | hdefined := h.mem_heads_iff.1 ⟨u, hu, htext⟩
    · exact new hsame
    · rw [undefined] at hdefined
      cases hdefined
  | unclosed kind expected => exact ⟨head, by simp, rfl, rfl⟩
  | second kind outer defined known =>
    -- The definition that ends here counts among the heads before.
    subst defined
    rw [(Draft.grows_internNode _ head.text head.span).isDefined_eq, h.isDefined_define hfits]
      at known
    exact ⟨read, head, t, behind, rfl, hhead, kind, rfl, rfl, known⟩
  | reference colon equals quantifies =>
    have hblames := blames_of_quantifies (h.reference hhead _) quantifies behind
    rwa [List.append_assoc] at hblames

/-- A token in front of the first rule. -/
theorem knows_of_headed {id : NodeId} {c : Config} (hhead : head.kind = .name)
    (hmentions : d.Mentions [head]) (hundefined : ∀ name, d.isDefined name = false)
    (hstep : stepHeaded head id d t = .ok c) : c.Knows [head, t] := by
  unfold stepHeaded at hstep
  split at hstep
  · rename_i hequals
    rw [startBody, hundefined, if_neg Bool.false_ne_true] at hstep
    cases hstep
    have hmention : mentionsOf [head, t] = [head] := mentionsOf_head hhead hequals
    have hheads : headsOf [head, t] = [head] := headsOf_head hhead hequals []
    refine ⟨.of_closed (Frame.Knows.closed_head hhead hequals) rfl rfl, ?_, [], ?_, ?_⟩
    · rw [hmention]
      exact hmentions
    · rw [hheads]
      rfl
    · intro name
      simp [hundefined]
  · cases hstep

end Moves

/-- What is known before a token tells what is known behind it. -/
theorem knows_of_step {c c' : Config} {tokens : List Token} {t : Token} (horderly : c.Orderly)
    (h : c.Knows tokens) (hstep : step c t = .ok c') : c'.Knows (tokens ++ [t]) := by
  obtain ⟨stage, d⟩ := c
  cases stage with
  | fresh =>
    obtain rfl : d = {} := horderly
    obtain rfl : tokens = [] := h
    simp only [step, stepFresh] at hstep
    split at hstep
    · rename_i hname
      cases hstep
      refine ⟨rfl, hname, Draft.mentions_empty.internNode t, ?_⟩
      intro name
      rw [(Draft.grows_internNode {} t.text t.span).isDefined_eq]
      rfl
    · cases hstep
  | headed head id =>
    obtain ⟨rfl, hhead, hmentions, hundefined⟩ := h
    exact knows_of_headed hhead hmentions hundefined hstep
  | body f last =>
    cases last with
    | settled => exact knows_of_settles h (settles_of_step hstep)
    | operand rule => exact knows_of_quantifies h (quantifies_of_step hstep)
    | name head =>
      obtain ⟨read, rfl, hhead, hknows⟩ := h
      exact knows_of_resolves hknows horderly hhead (resolves_of_step hstep)

/-- Along a run, what is known is about the tokens of the run. -/
theorem knows_of_run {c : Config} {tokens : List Token} (h : run .start tokens = .ok c) :
    c.Knows tokens := by
  induction tokens using List.reverseRecOn generalizing c with
  | nil =>
    obtain rfl := Except.ok.inj h
    exact rfl
  | append_singleton tokens t ih =>
    obtain ⟨c₁, hrun, hstep⟩ := exists_step_of_run h
    exact knows_of_step (orderly_of_run orderly_start hrun) (ih hrun) hstep

/-- A token that is refused is refused for what is known. -/
theorem blames_of_step {c : Config} {tokens : List Token} {t : Token} {e : SyntaxError}
    (horderly : c.Orderly) (h : c.Knows tokens) (hstep : step c t = .error e)
    (behind : List Token) : e.Blames (tokens ++ t :: behind) := by
  have hhere : t ∈ tokens ++ t :: behind := by simp
  obtain ⟨stage, d⟩ := c
  cases stage with
  | fresh =>
    simp only [step, stepFresh] at hstep
    split at hstep
    · cases hstep
    · cases hstep
      exact ⟨t, hhere, rfl, rfl⟩
  | headed head id =>
    obtain ⟨-, -, -, hundefined⟩ := h
    simp only [step, stepHeaded, startBody, hundefined] at hstep
    split at hstep
    · cases hstep
    · cases hstep
      exact ⟨t, hhere, rfl, rfl⟩
  | body f last =>
    cases last with
    | settled => exact blames_of_settles h (settles_of_step hstep) behind
    | operand rule => exact blames_of_quantifies h (quantifies_of_step hstep) behind
    | name head =>
      obtain ⟨read, rfl, hhead, hknows⟩ := h
      exact blames_of_resolves hknows horderly hhead (resolves_of_step hstep) behind

/-- The end of the tokens inside a rule. -/
theorem blames_of_finishSettled {f : Frame} {d : Draft} {tokens : List Token} {e : SyntaxError}
    (h : f.Knows d tokens) (hfits : f.Fits d)
    (hend : (f.finishSettled d (Grammar.stopOf tokens) >>= Draft.complete) = .error e) :
    e.Blames tokens := by
  unfold Frame.finishSettled at hend
  split at hend
  · cases hend
    -- There is a head at least, so there is a last token.
    obtain ⟨head, hhead, hname⟩ := h.exists_last_head
    obtain rfl | ⟨front, last, rfl⟩ := List.eq_nil_or_concat tokens
    · cases hhead
    · rw [List.concat_eq_append] at hhead ⊢
      refine .inl ⟨last, head, by simp, ?_, hhead, hname⟩
      simp [Grammar.stopOf]
  · split at hend
    · -- All definitions are done, and some node has none.
      have hcomplete : (d.define f.id f.name f.inner.close).complete = .error e := hend
      obtain ⟨name, span, front, first, behind, rfl, hundefined, hmentions, htext, hspan, hfront⟩ :=
        (h.mentions.define f.id f.name f.inner.close).undefined_of_complete hcomplete
      refine ⟨?_, front, first, behind, hmentions, htext, hspan, ?_⟩
      · intro t ht hname
        rw [← Bool.not_eq_true, h.isDefined_define hfits] at hundefined
        exact hundefined ⟨t, ht, hname⟩
      · intro t ht
        obtain ⟨hne, hdefined⟩ := hfront t ht
        exact ⟨hne, (h.isDefined_define hfits _).1 hdefined⟩
    · cases hend
      exact trivial

/-- The end of the tokens is refused for what is known of all of them. -/
theorem blames_of_finish {c : Config} {tokens : List Token} {e : SyntaxError}
    (horderly : c.Orderly) (h : c.Knows tokens)
    (hend : (finish c (Grammar.stopOf tokens) >>= Draft.complete) = .error e) :
    e.Blames tokens := by
  obtain ⟨stage, d⟩ := c
  cases stage with
  | fresh =>
    obtain rfl : d = {} := horderly
    cases hend
  | headed head id =>
    cases hend
    exact trivial
  | body f last =>
    cases last with
    | settled => exact blames_of_finishSettled h horderly hend
    | operand rule =>
      have hfits : (f.push rule).Fits d := ⟨horderly.nodup, horderly.entered, horderly.handle⟩
      exact blames_of_finishSettled h hfits hend
    | name head =>
      obtain ⟨read, rfl, hhead, hknows⟩ := h
      have hfits : (f.push (.node (d.internNode head.text head.span).1)).Fits
          (d.internNode head.text head.span).2 :=
        horderly.of_grows (d.grows_internNode head.text head.span) rfl rfl
      exact blames_of_finishSettled (hknows.reference hhead _) hfits hend

end Stepwise

/-! ### Errors and their places -/

namespace Grammar

open Stepwise

/-- An error says the truth about the tokens. -/
theorem blames_of_ofTokens {tokens : List Token} {e : SyntaxError}
    (h : ofTokens tokens = .error e) : e.Blames tokens := by
  rw [ofTokens_eq_run, except_bind_eq_error_iff] at h
  obtain hrun | ⟨c, hrun, hend⟩ := h
  · obtain ⟨before, t, behind, c, rfl, hbefore, hstep⟩ := exists_refused_of_run hrun
    exact blames_of_step (orderly_of_run orderly_start hbefore) (knows_of_run hbefore) hstep behind
  · exact blames_of_finish (orderly_of_run orderly_start hrun) (knows_of_run hrun) hend

/-- If tokens are refused, the error blames what is to blame: a token that is there, a second
    head, the first mention of a node that no head defines, the rule of the last head, or the
    parenthesis or label around which all the room is taken. If they are those of a source, the
    error lies in the source, between characters. -/
theorem errors_blame_culprits {tokens : List Token} {e : SyntaxError}
    (h : ofTokens tokens = .error e) :
    e.Blames tokens ∧
    ∀ (strictness : Strictness) (source : String), tokensOf strictness source = .ok tokens →
      ∀ span, e.span? = some span → span.Cuts source := by
  refine ⟨blames_of_ofTokens h, ?_⟩
  intro strictness source htokens span hspan
  exact SyntaxError.cuts_of_ofTokens (cuts_of_tokensOf htokens) h hspan

/-- `C` is a label before it is mentioned, and `B` and `A` are mentioned before it and defined. -/
theorem errors_blame_culprits_undefined :
    let source := "A = C:B 'é' C D B = A"
    let e := SyntaxError.undefinedNode "C" (.ofLength 13 1)
    tokensOf .strict source = .ok (Scan.ofText source).tokens ∧
    ofTokens (Scan.ofText source).tokens = .error e ∧
      e.Blames (Scan.ofText source).tokens ∧ (Span.ofLength 13 1).Cuts source := by
  intro source e
  have htokens : tokensOf .strict source = .ok (Scan.ofText source).tokens := by cbv
  have herror : ofTokens (Scan.ofText source).tokens = .error e := by cbv
  obtain ⟨hblames, hcuts⟩ := errors_blame_culprits herror
  exact ⟨htokens, herror, hblames, hcuts .strict source htokens _ rfl⟩

end Grammar

end TreeGrammar
