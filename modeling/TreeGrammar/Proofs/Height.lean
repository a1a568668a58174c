import TreeGrammar.Grammar.Export
import TreeGrammar.Proofs.Loadable

/-! # The height of rules

    Rules are as high as a `?` or `*` in a sequence in a choice makes them at
    each level of parentheses, and the limit on nesting bounds the number of
    these levels.

    Key idea:
    - a phrase is three times as high as it is nested, up to a constant that
      tells the four sorts of phrases apart (`Primary.height_tree_le` and its
      companions);
    - a function that calls itself on the rules right below a rule gets along
      with calls as deep as the rule is high, and not with fewer
      (`Rule.callWithin_eq`);
    - the bound is reached: each layer of `Rule.tower` takes one parenthesis
      and adds three levels.
-/

namespace TreeGrammar

namespace Rule

variable {ν τ ν' τ' : Type}

/-! ### Height -/

mutual

/-- The number of rules on the longest way down from a rule to a leaf, both included. -/
def height : Rule ν τ → Nat
  | .node _ | .token _ => 1
  | .labeled _ body | .opt body | .rep body => height body + 1
  | .seq parts => heightOfAll parts + 1
  | .alt choices => heightOfAll choices + 1

/-- The height of the highest of several rules, zero if there is none. -/
def heightOfAll : List (Rule ν τ) → Nat
  | [] => 0
  | rule :: rules => max (height rule) (heightOfAll rules)

end

theorem heightOfAll_le_iff {rules : List (Rule ν τ)} {n : Nat} :
    heightOfAll rules ≤ n ↔ ∀ rule ∈ rules, rule.height ≤ n := by
  induction rules with
  | nil => simp [heightOfAll]
  | cons rule rules ih => rw [heightOfAll, Nat.max_le, ih, List.forall_mem_cons]

mutual

theorem height_map (f : ν → ν') (g : τ → τ') : ∀ rule : Rule ν τ,
    (rule.map f g).height = rule.height
  | .node _ => rfl
  | .token _ => rfl
  | .labeled _ body => congrArg Nat.succ (height_map f g body)
  | .seq parts => congrArg Nat.succ (heightOfAll_mapList f g parts)
  | .alt choices => congrArg Nat.succ (heightOfAll_mapList f g choices)
  | .opt body => congrArg Nat.succ (height_map f g body)
  | .rep body => congrArg Nat.succ (height_map f g body)

theorem heightOfAll_mapList (f : ν → ν') (g : τ → τ') : ∀ rules : List (Rule ν τ),
    heightOfAll (mapList f g rules) = heightOfAll rules
  | [] => rfl
  | rule :: rules => by
    rw [mapList, heightOfAll, heightOfAll, height_map f g rule, heightOfAll_mapList f g rules]

end

/-- A sequence is one higher than its parts, unless it is one part alone. -/
theorem height_ofSeq_le {parts : List (Rule ν τ)} {n : Nat}
    (h : ∀ part ∈ parts, part.height ≤ n) : (ofSeq parts).height ≤ n + 1 := by
  unfold ofSeq
  split
  case h_1 part => exact Nat.le_succ_of_le (h part List.mem_cons_self)
  case h_2 => exact Nat.succ_le_succ (heightOfAll_le_iff.2 h)

/-- A choice is one higher than its choices, unless it is one choice alone. -/
theorem height_ofAlt_le {choices : List (Rule ν τ)} {n : Nat}
    (h : ∀ choice ∈ choices, choice.height ≤ n) : (ofAlt choices).height ≤ n + 1 := by
  unfold ofAlt
  split
  case h_1 choice => exact Nat.le_succ_of_le (h choice List.mem_cons_self)
  case h_2 => exact Nat.succ_le_succ (heightOfAll_le_iff.2 h)

end Rule

/-! ### Phrases

    Inside one level of parentheses a choice may hold a sequence, the sequence
    a quantified primary, and the primary the next parentheses. -/

mutual

theorem Primary.height_tree_le : ∀ p : Primary, p.tree.height ≤ 3 * p.nesting + 1
  | .node _ => Nat.le_refl 1
  | .token _ => Nat.le_refl 1
  | .group body => by
    have hbody := Rule.height_ofAlt_le (Choice.height_choices_le body)
    rw [Primary.tree, Primary.nesting]
    omega

theorem Atom.height_tree_le : ∀ a : Atom, a.tree.height ≤ 3 * a.nesting + 2
  | .labeled _ body => by
    have hbody := Atom.height_tree_le body
    rw [Atom.tree, Atom.nesting, Rule.height]
    omega
  | .bare operand => Nat.le_succ_of_le (Primary.height_tree_le operand)
  | .opt operand => Nat.succ_le_succ (Primary.height_tree_le operand)
  | .rep operand => Nat.succ_le_succ (Primary.height_tree_le operand)

theorem Sequence.height_parts_le : ∀ s : Sequence,
    ∀ part ∈ s.parts, part.height ≤ 3 * s.nesting + 2
  | .last atom => List.forall_mem_singleton.2 (Atom.height_tree_le atom)
  | .more atom behind => by
    have hatom := Atom.height_tree_le atom
    have hbehind := Sequence.height_parts_le behind
    rw [Sequence.parts, Sequence.nesting, List.forall_mem_cons]
    refine ⟨by omega, fun part hpart => ?_⟩
    have := hbehind part hpart
    omega

theorem Choice.height_choices_le : ∀ c : Choice,
    ∀ choice ∈ c.choices, choice.height ≤ 3 * c.nesting + 3
  | .last sequence =>
    List.forall_mem_singleton.2 (Rule.height_ofSeq_le (Sequence.height_parts_le sequence))
  | .more sequence behind => by
    have hsequence := Rule.height_ofSeq_le (Sequence.height_parts_le sequence)
    have hbehind := Choice.height_choices_le behind
    rw [Choice.choices, Choice.nesting, List.forall_mem_cons]
    refine ⟨by omega, fun choice hchoice => ?_⟩
    have := hbehind choice hchoice
    omega

end

theorem Choice.height_tree_le (c : Choice) : c.tree.height ≤ 3 * c.nesting + 4 :=
  Rule.height_ofAlt_le c.height_choices_le

/-! ### Calls below calls -/

namespace Rule

variable {ν τ α : Type}

/-- The rules right below a rule. -/
def children : Rule ν τ → List (Rule ν τ)
  | .node _ | .token _ => []
  | .labeled _ body | .opt body | .rep body => [body]
  | .seq parts => parts
  | .alt choices => choices

theorem height_pos (rule : Rule ν τ) : 0 < rule.height := by
  cases rule <;> exact Nat.succ_pos _

/-- A rule is one higher than the highest rule right below it. -/
theorem height_le_succ_iff {rule : Rule ν τ} {n : Nat} :
    rule.height ≤ n + 1 ↔ ∀ child ∈ rule.children, child.height ≤ n := by
  cases rule <;> simp [height, children, heightOfAll_le_iff]

/-- What a function gives for a rule that calls itself on each rule right below and combines what
    it gets, if calls may be `limit` deep. There is no result if they go deeper. -/
def callWithin (combine : Rule ν τ → List α → α) : Nat → Rule ν τ → Option α
  -- The call on the rule itself counts, so a leaf takes one.
  | 0, _ => none
  | limit + 1, rule => (rule.children.mapM (callWithin combine limit)).map (combine rule)

/-- Several results are there if each of them is. -/
theorem mapM_ite {p : Rule ν τ → Prop} [DecidablePred p] (f : Rule ν τ → α)
    (rules : List (Rule ν τ)) :
    rules.mapM (fun rule => if p rule then some (f rule) else none) =
      if ∀ rule ∈ rules, p rule then some (rules.map f) else none := by
  induction rules with
  | nil => simp
  | cons rule rules ih =>
    rw [List.mapM_cons, ih]
    by_cases hrule : p rule
    · by_cases hrules : ∀ rule ∈ rules, p rule
      · rw [if_pos hrule, if_pos hrules, if_pos (List.forall_mem_cons.2 ⟨hrule, hrules⟩)]
        rfl
      · rw [if_pos hrule, if_neg hrules, if_neg fun h => hrules (List.forall_mem_cons.1 h).2]
        rfl
    · rw [if_neg hrule, if_neg fun h => hrule (List.forall_mem_cons.1 h).1]
      rfl

/-- Calls go as deep as the rule is high. -/
theorem callWithin_eq {f : Rule ν τ → α} {combine : Rule ν τ → List α → α}
    (hf : ∀ rule, f rule = combine rule (rule.children.map f)) (limit : Nat) (rule : Rule ν τ) :
    callWithin combine limit rule = if rule.height ≤ limit then some (f rule) else none := by
  -- By induction on the limit: the rules right below have one call less.
  induction limit generalizing rule with
  | zero =>
    rw [callWithin, if_neg (Nat.not_le_of_lt rule.height_pos)]
  | succ limit ih =>
    rw [callWithin, funext ih, mapM_ite]
    by_cases hchildren : ∀ child ∈ rule.children, child.height ≤ limit
    · rw [if_pos hchildren, if_pos (height_le_succ_iff.2 hchildren), Option.map_some, ← hf rule]
    · rw [if_neg hchildren, if_neg (mt height_le_succ_iff.1 hchildren), Option.map_none]

/-- The text of a rule without parentheses around it, put together from the texts of the rules
    right below it. -/
def textFrom : NamedRule → List String → String
  | .node name, _ => name
  | .token name, _ => Literal.spelling name
  | .labeled label body, texts =>
    label ++ ":" ++ enclose (Place.labeled.needsParens body) (texts.headD "")
  | .seq parts, texts =>
    " ".intercalate (List.zipWith (fun part => enclose (Place.part.needsParens part)) parts texts)
  | .alt choices, texts =>
    " | ".intercalate
      (List.zipWith (fun choice => enclose (Place.choice.needsParens choice)) choices texts)
  | .opt body, texts => enclose (Place.quantified.needsParens body) (texts.headD "") ++ "?"
  | .rep body, texts => enclose (Place.quantified.needsParens body) (texts.headD "") ++ "*"

/-- The JSON of a rule, put together from that of the rules right below it. -/
def jsonFrom : NamedRule → List Json → Json
  | .node name, _ => .tagged "node" (.string name)
  | .token name, _ => .tagged "token" (.string name)
  | .labeled label _, values =>
    .tagged "labeled" (.object [("label", .string label), ("rule", values.headD default)])
  | .seq _, values => .tagged "seq" (.array values)
  | .alt _, values => .tagged "alt" (.array values)
  | .opt _, values => .tagged "opt" (values.headD default)
  | .rep _, values => .tagged "rep" (values.headD default)

theorem textsAt_eq_zipWith (place : Place) (rules : List NamedRule) :
    textsAt place rules =
      List.zipWith (fun rule => enclose (place.needsParens rule)) rules (rules.map bareText) := by
  rw [List.zipWith_map_right, List.zipWith_self, textsAt_eq_map]
  rfl

theorem bareText_eq (rule : NamedRule) :
    rule.bareText = textFrom rule (rule.children.map bareText) := by
  cases rule with
  | seq parts => rw [bareText, textsAt_eq_zipWith, children, textFrom]
  | alt choices => rw [bareText, textsAt_eq_zipWith, children, textFrom]
  | _ => rfl

theorem toJson_eq (rule : NamedRule) : rule.toJson = jsonFrom rule (rule.children.map toJson) := by
  cases rule with
  | seq parts => rw [toJson, toJsonList_eq_map, children, jsonFrom]
  | alt choices => rw [toJson, toJsonList_eq_map, children, jsonFrom]
  | _ => rfl

/-! ### Rules of greatest height -/

/-- A body with a quantifier behind it, in a sequence, in a choice. -/
def layer (body : NamedRule) : NamedRule :=
  .alt [.seq [.opt body, .token "x"], .token "x"]

/-- Layers around a token, one of them inside any parentheses. -/
def tower : Nat → NamedRule
  | 0 => layer (.token "x")
  | n + 1 => layer (tower n)

theorem height_layer (body : NamedRule) : (layer body).height = body.height + 3 := by
  have hpos := body.height_pos
  simp only [layer, height, heightOfAll]
  omega

theorem legible_layer {body : NamedRule} (h : Legible body) : Legible (layer body) := by
  have htoken : Legible (.token "x") := .token "x"
  have hseq : Legible (.seq [.opt body, .token "x"]) :=
    .seq (Nat.le_refl 2) (List.forall_mem_cons.2 ⟨.opt h, List.forall_mem_singleton.2 htoken⟩)
  exact .alt (Nat.le_refl 2) (List.forall_mem_cons.2 ⟨hseq, List.forall_mem_singleton.2 htoken⟩)

theorem depth_layer (body : NamedRule) :
    (layer body).depth = body.parensAt .quantified + body.depth := by
  simp [layer, depth, depthOfAll, parensAt]

theorem height_tower (n : Nat) : (tower n).height = 3 * n + 4 := by
  induction n with
  | zero => rfl
  | succ n ih =>
    rw [tower, height_layer, ih]
    omega

theorem legible_tower (n : Nat) : Legible (tower n) := by
  induction n with
  | zero => exact legible_layer (.token "x")
  | succ n ih => exact legible_layer ih

/-- Only the layers inside others need parentheses. -/
theorem depth_tower (n : Nat) : (tower n).depth = n := by
  induction n with
  | zero => rfl
  | succ n ih =>
    have hparens : (tower n).parensAt .quantified = 1 := by
      cases n <;> rfl
    rw [tower, depth_layer, hparens, ih, Nat.add_comm]

theorem nodeLeaves_tower (n : Nat) : (tower n).nodeLeaves = [] := by
  induction n with
  | zero => rfl
  | succ n ih =>
    simpa [tower, layer, nodeLeaves, leaves] using ih

end Rule

/-! ### Grammars -/

namespace Grammar

/-- The rules of a grammar are no higher than its derivation is nested. -/
theorem height_le_of_ofTokens {tokens : List Token} {g : Grammar} (h : ofTokens tokens = .ok g)
    {node : Node} (hnode : node ∈ g.nodes) : node.rule.height ≤ 3 * maxNesting + 4 := by
  obtain ⟨D, -, hadmissible, rfl⟩ := ofTokens_eq_ok_iff.1 h
  obtain ⟨hshallow, hcoherent⟩ := Derivation.admissible_iff.1 hadmissible
  obtain ⟨entry, hentry, rfl⟩ := hcoherent.exists_entry hnode
  obtain ⟨d, hd, rfl⟩ := List.mem_map.1 hentry
  have hnesting := hshallow d hd
  calc (handled D.entries d.body.tree).height
    _ = d.body.tree.height := Rule.height_map _ _ _
    _ ≤ 3 * d.body.nesting + 4 := d.body.height_tree_le
    _ ≤ 3 * maxNesting + 4 := by omega

/-- A tower is the rule of a node of some text, unless it is nested too deeply. -/
theorem exists_text_tower {n : Nat} (hn : n ≤ maxNesting) :
    ∃ source tokens g, tokensOf .strict source = .ok tokens ∧ ofTokens tokens = .ok g ∧
      ∃ node ∈ g.nodes, g.named node.rule = Rule.tower n := by
  have hentry : ("A", Rule.tower n) ∈ [("A", Rule.tower n)] := List.mem_singleton_self _
  have hcoherent : Coherent [("A", Rule.tower n)] := by
    refine ⟨List.nodup_singleton _, List.forall_mem_singleton.2 fun name hname => ?_⟩
    rw [Rule.nodeLeaves_tower] at hname
    exact absurd hname List.not_mem_nil
  have hname : IsName "A" := ⟨by decide, List.forall_mem_singleton.2 (by decide)⟩
  have hshallow : (Rule.tower n).depth ≤ maxNesting := by
    rw [Rule.depth_tower]
    exact hn
  have hcanonical := hcoherent.canonical_ofEntries
    (List.forall_mem_singleton.2 ⟨hname, Rule.legible_tower n⟩)
    (List.forall_mem_singleton.2 hshallow)
  obtain ⟨tokens, htokens, hread⟩ := load_eq_ok_iff.1 hcanonical.ofText_text
  refine ⟨_, tokens, _, htokens, hread, _, List.mem_of_getElem? (hcoherent.node?_ofEntries hentry),
    hcoherent.named_handled hentry⟩

/-- Every rule of a grammar that is read from tokens is at most 388 high, three times the limit
    on nesting and four, however many tokens there are. So its text and its JSON are made with
    calls at most as deep. The rule of some node of some text is as high, and takes calls as
    deep. -/
theorem height_bounded :
    3 * maxNesting + 4 = 388 ∧
    (∀ (tokens : List Token) (g : Grammar), ofTokens tokens = .ok g → ∀ node ∈ g.nodes,
      node.rule.height ≤ 3 * maxNesting + 4 ∧
      Rule.callWithin Rule.textFrom (3 * maxNesting + 4) (g.named node.rule) =
        some (g.named node.rule).bareText ∧
      Rule.callWithin Rule.jsonFrom (3 * maxNesting + 4) (g.named node.rule) =
        some (g.named node.rule).toJson) ∧
    ∃ source tokens g, tokensOf .strict source = .ok tokens ∧ ofTokens tokens = .ok g ∧
      ∃ node ∈ g.nodes, node.rule.height = 3 * maxNesting + 4 ∧
        Rule.callWithin Rule.textFrom (3 * maxNesting + 3) (g.named node.rule) = none ∧
        Rule.callWithin Rule.jsonFrom (3 * maxNesting + 3) (g.named node.rule) = none := by
  have hnamed : ∀ (g : Grammar) (rule : HandleRule), (g.named rule).height = rule.height :=
    fun g rule => Rule.height_map _ _ rule
  refine ⟨rfl, fun tokens g h node hnode => ?_, ?_⟩
  · have hheight := height_le_of_ofTokens h hnode
    rw [Rule.callWithin_eq Rule.bareText_eq, Rule.callWithin_eq Rule.toJson_eq, hnamed,
      if_pos hheight, if_pos hheight]
    exact ⟨hheight, rfl, rfl⟩
  · obtain ⟨source, tokens, g, htokens, hread, node, hnode, htower⟩ :=
      exists_text_tower (Nat.le_refl maxNesting)
    have hheight : node.rule.height = 3 * maxNesting + 4 := by
      rw [← hnamed g, htower, Rule.height_tower]
    have hdeep : ¬ node.rule.height ≤ 3 * maxNesting + 3 := by omega
    refine ⟨source, tokens, g, htokens, hread, node, hnode, hheight, ?_⟩
    rw [Rule.callWithin_eq Rule.bareText_eq, Rule.callWithin_eq Rule.toJson_eq, hnamed,
      if_neg hdeep, if_neg hdeep]
    exact ⟨rfl, rfl⟩

end Grammar

end TreeGrammar
