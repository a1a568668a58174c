import TreeGrammar.Grammar.Basic

/-! # The leaves of a rule

    A rule refers to nodes and tokens at its leaves only. What `Rule.map` does
    is therefore settled by what it does to the leaves, read from left to
    right.

    Key idea:
    - `Rule.leaves` lists nodes and tokens together, `Rule.nodeLeaves` and
      `Rule.tokenLeaves` one sort at a time;
    - two maps that agree on the leaves agree on the rule (`Rule.map_congr`).
-/

namespace TreeGrammar

namespace Rule

variable {ν τ ν' τ' ν'' τ'' : Type}

mutual

/-- The references of a rule, from left to right. -/
def leaves : Rule ν τ → List (ν ⊕ τ)
  | .node id => [.inl id]
  | .token id => [.inr id]
  | .labeled _ body => leaves body
  | .seq parts => leavesOfAll parts
  | .alt choices => leavesOfAll choices
  | .opt body => leaves body
  | .rep body => leaves body

/-- The references of several rules, from left to right. -/
def leavesOfAll : List (Rule ν τ) → List (ν ⊕ τ)
  | [] => []
  | rule :: rules => leaves rule ++ leavesOfAll rules

end

@[simp] theorem leavesOfAll_eq_flatMap (rules : List (Rule ν τ)) :
    leavesOfAll rules = rules.flatMap leaves := by
  induction rules with
  | nil => rfl
  | cons rule rules ih => simp [leavesOfAll, ih]

/-- The nodes that a rule refers to, from left to right. -/
def nodeLeaves (rule : Rule ν τ) : List ν :=
  rule.leaves.filterMap Sum.getLeft?

/-- The tokens that a rule refers to, from left to right. -/
def tokenLeaves (rule : Rule ν τ) : List τ :=
  rule.leaves.filterMap Sum.getRight?

@[simp] theorem mem_nodeLeaves_iff {id : ν} {rule : Rule ν τ} :
    id ∈ rule.nodeLeaves ↔ .inl id ∈ rule.leaves := by
  simp [nodeLeaves]

@[simp] theorem mem_tokenLeaves_iff {id : τ} {rule : Rule ν τ} :
    id ∈ rule.tokenLeaves ↔ .inr id ∈ rule.leaves := by
  simp [tokenLeaves]

/-! ### Collapsing keeps the leaves -/

@[simp] theorem leaves_ofSeq (parts : List (Rule ν τ)) :
    (ofSeq parts).leaves = parts.flatMap leaves := by
  unfold ofSeq
  split
  · simp
  · simp [leaves]

@[simp] theorem leaves_ofAlt (choices : List (Rule ν τ)) :
    (ofAlt choices).leaves = choices.flatMap leaves := by
  unfold ofAlt
  split
  · simp
  · simp [leaves]

@[simp] theorem map_ofSeq (f : ν → ν') (g : τ → τ') (parts : List (Rule ν τ)) :
    (ofSeq parts).map f g = ofSeq (parts.map (map f g)) := by
  match parts with
  | [] => simp [ofSeq, map]
  | [part] => simp [ofSeq]
  | part :: part' :: parts => simp [ofSeq, map]

@[simp] theorem map_ofAlt (f : ν → ν') (g : τ → τ') (choices : List (Rule ν τ)) :
    (ofAlt choices).map f g = ofAlt (choices.map (map f g)) := by
  match choices with
  | [] => simp [ofAlt, map]
  | [choice] => simp [ofAlt]
  | choice :: choice' :: choices => simp [ofAlt, map]

/-! ### Maps are settled by the leaves -/

mutual

/-- Two maps that do the same to the leaves of a rule do the same to the rule. -/
theorem map_congr {f f' : ν → ν'} {g g' : τ → τ'} : ∀ rule : Rule ν τ,
    (∀ leaf ∈ rule.leaves, Sum.map f g leaf = Sum.map f' g' leaf) → rule.map f g = rule.map f' g'
  | .node id, h => by simpa [leaves, map] using h
  | .token id, h => by simpa [leaves, map] using h
  | .labeled label body, h => by rw [map, map, map_congr body h]
  | .seq parts, h => by rw [map, map, mapList_congr parts h]
  | .alt choices, h => by rw [map, map, mapList_congr choices h]
  | .opt body, h => by rw [map, map, map_congr body h]
  | .rep body, h => by rw [map, map, map_congr body h]

theorem mapList_congr {f f' : ν → ν'} {g g' : τ → τ'} : ∀ rules : List (Rule ν τ),
    (∀ leaf ∈ leavesOfAll rules, Sum.map f g leaf = Sum.map f' g' leaf) →
      mapList f g rules = mapList f' g' rules
  | [], _ => rfl
  | rule :: rules, h => by
    have hrule := map_congr rule fun leaf hleaf => h leaf (List.mem_append_left _ hleaf)
    have hrules := mapList_congr rules fun leaf hleaf => h leaf (List.mem_append_right _ hleaf)
    rw [mapList, mapList, hrule, hrules]

end

mutual

@[simp] theorem map_map (f : ν → ν') (g : τ → τ') (f' : ν' → ν'') (g' : τ' → τ'') :
    ∀ rule : Rule ν τ, (rule.map f g).map f' g' = rule.map (f' ∘ f) (g' ∘ g)
  | .node id => rfl
  | .token id => rfl
  | .labeled label body => by simp only [map, map_map f g f' g' body]
  | .seq parts => by simp only [map, mapList_mapList f g f' g' parts]
  | .alt choices => by simp only [map, mapList_mapList f g f' g' choices]
  | .opt body => by simp only [map, map_map f g f' g' body]
  | .rep body => by simp only [map, map_map f g f' g' body]

theorem mapList_mapList (f : ν → ν') (g : τ → τ') (f' : ν' → ν'') (g' : τ' → τ'') :
    ∀ rules : List (Rule ν τ),
      mapList f' g' (mapList f g rules) = mapList (f' ∘ f) (g' ∘ g) rules
  | [] => rfl
  | rule :: rules => by
    simp only [mapList, map_map f g f' g' rule, mapList_mapList f g f' g' rules]

end

mutual

@[simp] theorem map_id : ∀ rule : Rule ν τ, rule.map id id = rule
  | .node id => rfl
  | .token id => rfl
  | .labeled label body => by rw [map, map_id body]
  | .seq parts => by rw [map, mapList_id parts]
  | .alt choices => by rw [map, mapList_id choices]
  | .opt body => by rw [map, map_id body]
  | .rep body => by rw [map, map_id body]

theorem mapList_id : ∀ rules : List (Rule ν τ), mapList id id rules = rules
  | [] => rfl
  | rule :: rules => by rw [mapList, map_id rule, mapList_id rules]

end

end Rule

end TreeGrammar
