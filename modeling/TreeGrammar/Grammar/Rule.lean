/-! # Rules

    A rule says what the children of a node are. It is a tree whose leaves
    refer to nodes and tokens, in a way that the type leaves open: by handle
    inside a grammar, by name when a rule is printed.

    Key idea:
    - `Rule.map` changes how the leaves refer to nodes and tokens, and
      nothing else;
    - `Rule.ofSeq` and `Rule.ofAlt` never make a sequence or a choice of a
      single part.
-/

namespace TreeGrammar

/-- A rule over references `ν` to nodes and references `τ` to tokens. -/
inductive Rule (ν τ : Type) where
  /-- One child that is a node. -/
  | node (id : ν)
  /-- One child that is a token. -/
  | token (id : τ)
  /-- The children of `body`, known to the parent under a label. -/
  | labeled (label : String) (body : Rule ν τ)
  /-- The children of all parts, in order. -/
  | seq (parts : List (Rule ν τ))
  /-- The children of one of the choices. -/
  | alt (choices : List (Rule ν τ))
  /-- The children of `body`, or none. -/
  | opt (body : Rule ν τ)
  /-- The children of `body`, any number of times. -/
  | rep (body : Rule ν τ)
  deriving Repr

namespace Rule

variable {ν τ ν' τ' ν'' τ'' : Type}

instance [Inhabited ν] : Inhabited (Rule ν τ) := ⟨.node default⟩

/-- Parts in a row. One part alone is no row. -/
def ofSeq : List (Rule ν τ) → Rule ν τ
  | [part] => part
  | parts => .seq parts

/-- A choice. One choice alone is no choice. -/
def ofAlt : List (Rule ν τ) → Rule ν τ
  | [choice] => choice
  | choices => .alt choices

/-! ### References -/

mutual

/-- The rule with other references in the same places. -/
def map (f : ν → ν') (g : τ → τ') : Rule ν τ → Rule ν' τ'
  | .node id => .node (f id)
  | .token id => .token (g id)
  | .labeled label body => .labeled label (map f g body)
  | .seq parts => .seq (mapList f g parts)
  | .alt choices => .alt (mapList f g choices)
  | .opt body => .opt (map f g body)
  | .rep body => .rep (map f g body)

/-- The rules of a list with other references in the same places. -/
def mapList (f : ν → ν') (g : τ → τ') : List (Rule ν τ) → List (Rule ν' τ')
  | [] => []
  | rule :: rules => map f g rule :: mapList f g rules

end

@[simp] theorem mapList_eq_map (f : ν → ν') (g : τ → τ') (rules : List (Rule ν τ)) :
    mapList f g rules = rules.map (map f g) := by
  induction rules with
  | nil => rfl
  | cons rule rules ih => simp [mapList, ih]

/-! ### Equality -/

section Equality

variable [DecidableEq ν] [DecidableEq τ]

mutual

/-- Whether two rules are the same tree. -/
def same : Rule ν τ → Rule ν τ → Bool
  | .node a, .node b => a = b
  | .token a, .token b => a = b
  | .labeled l a, .labeled m b => l = m && same a b
  | .seq as, .seq bs => sameList as bs
  | .alt as, .alt bs => sameList as bs
  | .opt a, .opt b => same a b
  | .rep a, .rep b => same a b
  | _, _ => false

/-- Whether two lists of rules are the same. -/
def sameList : List (Rule ν τ) → List (Rule ν τ) → Bool
  | [], [] => true
  | a :: as, b :: bs => same a b && sameList as bs
  | _, _ => false

end

mutual

theorem same_iff : ∀ a b : Rule ν τ, same a b = true ↔ a = b
  | .node a, b => by cases b <;> simp [same]
  | .token a, b => by cases b <;> simp [same]
  | .labeled l a, b => by cases b <;> simp [same, same_iff a]
  | .seq as, b => by cases b <;> simp [same, sameList_iff as]
  | .alt as, b => by cases b <;> simp [same, sameList_iff as]
  | .opt a, b => by cases b <;> simp [same, same_iff a]
  | .rep a, b => by cases b <;> simp [same, same_iff a]

theorem sameList_iff : ∀ as bs : List (Rule ν τ), sameList as bs = true ↔ as = bs
  | [], bs => by cases bs <;> simp [sameList]
  | a :: as, bs => by cases bs <;> simp [sameList, same_iff a, sameList_iff as]

end

instance : DecidableEq (Rule ν τ) := fun a b => decidable_of_iff _ (same_iff a b)

end Equality

end Rule

end TreeGrammar
