import Mathlib.Algebra.GroupWithZero.Nat
import TreeGrammar.Grammar.Reader
import TreeGrammar.Proofs.Building

/-! # Reading one token at a time

    The reader of grammars again, as a machine that takes one token in each
    step and never looks ahead.

    Key idea:
    - what the descent has on its call stack is data here: the rules that
      are open around the current place (`OpenRule`), innermost first;
    - a name may be a reference, a label or the head of the next definition,
      so it is kept until the next token has come (`Last.name`);
    - a primary is kept as well, since a `?` or `*` may follow
      (`Last.operand`);
    - what a step may do, and why it may refuse a token, is said once
      (`step_meets`), and every invariant follows from that.

    That this is the same reader is proved in `Resumption`.
-/

namespace TreeGrammar

namespace Stepwise

/-! ### Open rules -/

/-- A rule that is being read. -/
structure OpenRule where
  /-- The finished choices, the last one first. -/
  choices : List HandleRule
  /-- The finished parts of the current choice, the last one first. -/
  parts : List HandleRule
  /-- The labels that wait for the next part, the innermost one first. -/
  labels : List String
  deriving DecidableEq, Repr

namespace OpenRule

/-- A rule of which nothing was read. -/
def start : OpenRule := ⟨[], [], []⟩

/-- Puts labels in front of a rule, the first of them next to it. -/
def applyLabels (labels : List String) (rule : HandleRule) : HandleRule :=
  labels.foldl (fun body label => .labeled label body) rule

/-- Adds the next part, with the labels that wait for it. -/
def push (o : OpenRule) (rule : HandleRule) : OpenRule :=
  ⟨o.choices, applyLabels o.labels rule :: o.parts, []⟩

/-- Adds a label in front of the next part. -/
def label (o : OpenRule) (label : String) : OpenRule :=
  { o with labels := label :: o.labels }

/-- Whether a part has to come next. -/
def needsPart (o : OpenRule) : Bool :=
  o.parts.isEmpty || !o.labels.isEmpty

/-- Ends the current choice and starts the next one. -/
def nextChoice (o : OpenRule) : OpenRule :=
  ⟨Rule.ofSeq o.parts.reverse :: o.choices, [], []⟩

/-- The rule, if nothing more comes. -/
def close (o : OpenRule) : HandleRule :=
  Rule.ofAlt (o.choices.reverse ++ [Rule.ofSeq o.parts.reverse])

/-- Behind a part, none has to come. -/
@[simp] theorem needsPart_push (o : OpenRule) (rule : HandleRule) :
    (o.push rule).needsPart = false := rfl

@[simp] theorem needsPart_label (o : OpenRule) (name : String) :
    (o.label name).needsPart = true := by
  simp [needsPart, label]

/-- A label in front of the next part is the innermost label of this part. -/
theorem push_label (o : OpenRule) (name : String) (rule : HandleRule) :
    (o.label name).push rule = o.push (.labeled name rule) := rfl

end OpenRule

/-- How many parentheses and labels are open around the inside of some rules in parentheses. -/
def depthOf (outer : List OpenRule) : Nat :=
  (outer.map fun o => o.labels.length + 1).sum

@[simp] theorem depthOf_nil : depthOf [] = 0 := rfl

@[simp] theorem depthOf_cons (o : OpenRule) (outer : List OpenRule) :
    depthOf (o :: outer) = o.labels.length + 1 + depthOf outer := by
  simp [depthOf]

/-! ### Configurations -/

/-- A definition that is being read. -/
structure Frame where
  /-- The handle of the node. -/
  id : NodeId
  /-- The name of the node. -/
  name : String
  /-- The rule at the current place. -/
  inner : OpenRule
  /-- The rules around it, one for each open parenthesis. -/
  outer : List OpenRule
  deriving DecidableEq, Repr

/-- How many parentheses and labels are open. -/
def Frame.depth (f : Frame) : Nat :=
  f.inner.labels.length + depthOf f.outer

/-- Adds the next part of the rule at the current place. -/
def Frame.push (f : Frame) (rule : HandleRule) : Frame :=
  { f with inner := f.inner.push rule }

/-- The last token, as far as it is not settled what it means. -/
inductive Last where
  /-- Nothing is open. -/
  | settled
  /-- A name whose role depends on the next token. -/
  | name (t : Token)
  /-- A primary that may have a `?` or `*` behind it. -/
  | operand (rule : HandleRule)
  deriving DecidableEq, Repr

/-- What is being read. -/
inductive Stage where
  /-- No token has come. -/
  | fresh
  /-- The name of the first definition has come. -/
  | headed (head : Token) (id : NodeId)
  /-- The rule of a definition is being read. -/
  | body (f : Frame) (last : Last)
  deriving DecidableEq, Repr

/-- The name that is kept until the next token has come. -/
def Stage.kept? : Stage → Option Token
  | .headed head _ | .body _ (.name head) => some head
  | _ => none

/-- A configuration of the machine. -/
structure Config where
  /-- What is being read. -/
  stage : Stage
  /-- What was read so far. -/
  draft : Draft
  deriving DecidableEq, Repr

/-- No token has come. -/
def Config.start : Config := ⟨.fresh, {}⟩

/-! ### Steps -/

/-- A token at the very start. -/
def stepFresh (d : Draft) (t : Token) : Except SyntaxError Config :=
  if t.kind = .name then
    .ok ⟨.headed t (d.internNode t.text t.span).1, (d.internNode t.text t.span).2⟩
  else .error (.unexpectedToken (.token .name) t.kind t.span)

/-- Starts the rule of a definition. -/
def startBody (head : Token) (id : NodeId) (d : Draft) : Except SyntaxError Config :=
  if d.isDefined head.text then .error (.duplicateNode head.text head.span)
  else .ok ⟨.body ⟨id, head.text, .start, []⟩ .settled, d⟩

/-- A token behind the name of the first definition. -/
def stepHeaded (head : Token) (id : NodeId) (d : Draft) (t : Token) : Except SyntaxError Config :=
  if t.kind = .equals then startBody head id d
  else .error (.unexpectedToken (.token .equals) t.kind t.span)

namespace Frame

/-- A token that ends the current choice, or does not belong here. -/
def closeWith (f : Frame) (d : Draft) (t : Token) : Except SyntaxError Config :=
  if f.inner.needsPart then .error (.unexpectedToken .rule t.kind t.span)
  else if t.kind = .bar then .ok ⟨.body { f with inner := f.inner.nextChoice } .settled, d⟩
  else
    match f.outer with
    | [] => .error (.unexpectedToken (.token .name) t.kind t.span)
    | o :: outer =>
      if t.kind = .closeParen then
        .ok ⟨.body { f with inner := o, outer } (.operand f.inner.close), d⟩
      else .error (.unexpectedToken (.token .closeParen) t.kind t.span)

/-- A token where everything before it is settled. -/
def stepSettled (f : Frame) (d : Draft) (t : Token) : Except SyntaxError Config :=
  match t.kind with
  | .name => .ok ⟨.body f (.name t), d⟩
  | .literal =>
    .ok ⟨.body f (.operand (.token (d.internToken t.text).1)), (d.internToken t.text).2⟩
  | .openParen =>
    if f.depth < maxNesting then
      .ok ⟨.body { f with inner := .start, outer := f.inner :: f.outer } .settled, d⟩
    else .error (.nestingTooDeep t.span)
  | _ => f.closeWith d t

/-- A token behind a primary. -/
def stepOperand (f : Frame) (rule : HandleRule) (d : Draft) (t : Token) :
    Except SyntaxError Config :=
  match t.kind with
  | .question => .ok ⟨.body (f.push (.opt rule)) .settled, d⟩
  | .star => .ok ⟨.body (f.push (.rep rule)) .settled, d⟩
  | _ => (f.push rule).stepSettled d t

/-- The `=` behind a name, which is no part of the rule then. -/
def endBefore (f : Frame) (d : Draft) (head : Token) : Except SyntaxError Config :=
  if f.inner.needsPart then
    if head.text = f.name || d.isDefined head.text then
      .error (.duplicateNode head.text head.span)
    else .error (.emptyRule f.name (.point head.span.start))
  else
    match f.outer with
    | [] =>
      -- The rule is complete, and the next definition starts.
      let d := d.define f.id f.name f.inner.close
      let (id, d) := d.internNode head.text head.span
      startBody head id d
    | _ :: _ => .error (.unexpectedToken (.token .closeParen) head.kind head.span)

/-- A token behind a name. -/
def stepName (f : Frame) (head : Token) (d : Draft) (t : Token) : Except SyntaxError Config :=
  match t.kind with
  | .colon =>
    if f.depth < maxNesting then
      .ok ⟨.body { f with inner := f.inner.label head.text } .settled, d⟩
    else .error (.nestingTooDeep head.span)
  | .equals => f.endBefore d head
  | _ =>
    -- The name is a reference after all.
    f.stepOperand (.node (d.internNode head.text head.span).1)
      (d.internNode head.text head.span).2 t

section Steps

variable {f : Frame} {rule : HandleRule} {d : Draft} {head t : Token}

theorem stepSettled_name (ht : t.kind = .name) :
    f.stepSettled d t = .ok ⟨.body f (.name t), d⟩ := by
  rw [stepSettled, ht]

theorem stepSettled_literal (ht : t.kind = .literal) :
    f.stepSettled d t =
      .ok ⟨.body f (.operand (.token (d.internToken t.text).1)), (d.internToken t.text).2⟩ := by
  rw [stepSettled, ht]

theorem stepSettled_openParen (ht : t.kind = .openParen) :
    f.stepSettled d t =
      if f.depth < maxNesting then
        .ok ⟨.body { f with inner := .start, outer := f.inner :: f.outer } .settled, d⟩
      else .error (.nestingTooDeep t.span) := by
  rw [stepSettled, ht]

theorem stepSettled_other (hname : t.kind ≠ .name) (hliteral : t.kind ≠ .literal)
    (hparen : t.kind ≠ .openParen) : f.stepSettled d t = f.closeWith d t := by
  unfold stepSettled
  split <;> first | rfl | contradiction

theorem stepOperand_question (ht : t.kind = .question) :
    f.stepOperand rule d t = .ok ⟨.body (f.push (.opt rule)) .settled, d⟩ := by
  rw [stepOperand, ht]

theorem stepOperand_star (ht : t.kind = .star) :
    f.stepOperand rule d t = .ok ⟨.body (f.push (.rep rule)) .settled, d⟩ := by
  rw [stepOperand, ht]

theorem stepOperand_other (hquestion : t.kind ≠ .question) (hstar : t.kind ≠ .star) :
    f.stepOperand rule d t = (f.push rule).stepSettled d t := by
  unfold stepOperand
  split <;> first | rfl | contradiction

theorem stepName_colon (ht : t.kind = .colon) :
    f.stepName head d t =
      if f.depth < maxNesting then
        .ok ⟨.body { f with inner := f.inner.label head.text } .settled, d⟩
      else .error (.nestingTooDeep head.span) := by
  rw [stepName, ht]

theorem stepName_equals (ht : t.kind = .equals) :
    f.stepName head d t = f.endBefore d head := by
  rw [stepName, ht]

theorem stepName_other (hcolon : t.kind ≠ .colon) (hequals : t.kind ≠ .equals) :
    f.stepName head d t =
      f.stepOperand (.node (d.internNode head.text head.span).1)
        (d.internNode head.text head.span).2 t := by
  unfold stepName
  split <;> first | rfl | contradiction

/-- Behind a complete rule, `=` starts the definition of the name. -/
theorem endBefore_complete (hneeds : f.inner.needsPart = false) (houter : f.outer = []) :
    f.endBefore d head =
      startBody head ((d.define f.id f.name f.inner.close).internNode head.text head.span).1
        ((d.define f.id f.name f.inner.close).internNode head.text head.span).2 := by
  rw [endBefore, if_neg (by simp [hneeds])]
  simp only [houter]

end Steps

/-- The end of the tokens where everything before it is settled. -/
def finishSettled (f : Frame) (d : Draft) (stop : Nat) : Except SyntaxError Draft :=
  if f.inner.needsPart then .error (.emptyRule f.name (.point stop))
  else
    match f.outer with
    | [] => .ok (d.define f.id f.name f.inner.close)
    | _ :: _ => .error (.unexpectedEnd (.token .closeParen))

end Frame

/-- What a token does. -/
def step (c : Config) (t : Token) : Except SyntaxError Config :=
  match c.stage with
  | .fresh => stepFresh c.draft t
  | .headed head id => stepHeaded head id c.draft t
  | .body f .settled => f.stepSettled c.draft t
  | .body f (.name head) => f.stepName head c.draft t
  | .body f (.operand rule) => f.stepOperand rule c.draft t

theorem step_settled (f : Frame) (d : Draft) (t : Token) :
    step ⟨.body f .settled, d⟩ t = f.stepSettled d t := rfl

theorem step_name (f : Frame) (head : Token) (d : Draft) (t : Token) :
    step ⟨.body f (.name head), d⟩ t = f.stepName head d t := rfl

theorem step_operand (f : Frame) (rule : HandleRule) (d : Draft) (t : Token) :
    step ⟨.body f (.operand rule), d⟩ t = f.stepOperand rule d t := rfl

/-- What the tokens do, one after the other. -/
def run (c : Config) (tokens : List Token) : Except SyntaxError Config :=
  tokens.foldlM step c

/-- What the end of the tokens does, if it is at some offset. -/
def finish (c : Config) (stop : Nat) : Except SyntaxError Draft :=
  match c.stage with
  | .fresh => .ok c.draft
  | .headed _ _ => .error (.unexpectedEnd (.token .equals))
  | .body f .settled => f.finishSettled c.draft stop
  -- Where nothing follows it, a name is a reference.
  | .body f (.name head) =>
    (f.push (.node (c.draft.internNode head.text head.span).1)).finishSettled
      (c.draft.internNode head.text head.span).2 stop
  | .body f (.operand rule) => (f.push rule).finishSettled c.draft stop

/-! ### What a step does

    Whatever a token does, one of four things has happened: the first name has
    come, its `=` has come, the definition goes on, or the next one has
    started. Invariants are proved from these four cases. -/

/-- After a token, the same definition is still being read, and nodes and tokens may have been
    entered. -/
inductive Within (f : Frame) (d : Draft) (t : Token) : Config → Prop where
  /-- Only a name is kept. -/
  | intro {f' : Frame} {last : Last} {d' : Draft} {nodes tokens : List String}
      (id : f'.id = f.id) (name : f'.name = f.name) (grows : d.Grows d' nodes tokens)
      (kept : ∀ head, last = .name head → head = t ∧ t.kind = .name) :
      Within f d t ⟨.body f' last, d'⟩

/-- What a token that is not refused does. -/
inductive Steps : Config → Token → Config → Prop where
  /-- The name of the first definition has come. -/
  | head {d : Draft} {t : Token} (kind : t.kind = .name) :
      Steps ⟨.fresh, d⟩ t
        ⟨.headed t (d.internNode t.text t.span).1, (d.internNode t.text t.span).2⟩
  /-- The rule of the first definition starts. -/
  | equals {head : Token} {id : NodeId} {d : Draft} {t : Token}
      (new : d.isDefined head.text = false) :
      Steps ⟨.headed head id, d⟩ t ⟨.body ⟨id, head.text, .start, []⟩ .settled, d⟩
  /-- The definition goes on. -/
  | within {f : Frame} {last : Last} {d : Draft} {t : Token} {c : Config}
      (within : Within f d t c) : Steps ⟨.body f last, d⟩ t c
  /-- The definition is complete, and the rule of the next one starts. -/
  | next {f : Frame} {head : Token} {rule : HandleRule} {d d' : Draft} {t : Token}
      (defined : d' = d.define f.id f.name rule) :
      Steps ⟨.body f (.name head), d⟩ t
        ⟨.body ⟨(d'.internNode head.text head.span).1, head.text, .start, []⟩ .settled,
          (d'.internNode head.text head.span).2⟩

/-- Why a token is refused, and where the error is. It is at the name that is kept only if `=` or
    `:` has settled what this name is. -/
inductive Refuses (kept? : Option Token) (t : Token) : SyntaxError → Prop where
  /-- The token does not belong here. -/
  | token (expected : Expected) : Refuses kept? t (.unexpectedToken expected t.kind t.span)
  /-- There is no room for one more parenthesis. -/
  | group : Refuses kept? t (.nestingTooDeep t.span)
  /-- There is no room for one more label. -/
  | label {head : Token} (kept : kept? = some head) (colon : t.kind = .colon) :
      Refuses kept? t (.nestingTooDeep head.span)
  /-- The name has its definition already. -/
  | duplicate {head : Token} (kept : kept? = some head) (equals : t.kind = .equals) :
      Refuses kept? t (.duplicateNode head.text head.span)
  /-- The rule before the name lacks a part. -/
  | empty {head : Token} (kept : kept? = some head) (equals : t.kind = .equals) (node : String) :
      Refuses kept? t (.emptyRule node (.point head.span.start))
  /-- A parenthesis before the name is open. -/
  | unclosed {head : Token} (kept : kept? = some head) (equals : t.kind = .equals)
      (expected : Expected) : Refuses kept? t (.unexpectedToken expected head.kind head.span)

/-- A result is a configuration with one property or an error with another. -/
def Meets (reached : Config → Prop) (refused : SyntaxError → Prop) :
    Except SyntaxError Config → Prop
  | .ok c => reached c
  | .error e => refused e

theorem Meets.mono {reached reached' : Config → Prop} {refused : SyntaxError → Prop}
    {result : Except SyntaxError Config} (h : Meets reached refused result)
    (himp : ∀ c, reached c → reached' c) : Meets reached' refused result := by
  cases result with
  | ok c => exact himp c h
  | error e => exact h

namespace Frame

section Inversion

variable (f : Frame) (rule : HandleRule) (d : Draft) (head t : Token) (kept? : Option Token)

theorem closeWith_meets : Meets (Within f d t) (Refuses kept? t) (f.closeWith d t) := by
  unfold closeWith
  split
  · exact .token _
  split
  · exact .intro rfl rfl (.refl d) (by simp)
  split
  · exact .token _
  · split
    · exact .intro rfl rfl (.refl d) (by simp)
    · exact .token _

theorem stepSettled_meets : Meets (Within f d t) (Refuses kept? t) (f.stepSettled d t) := by
  unfold stepSettled
  split
  · rename_i hname
    apply Within.intro rfl rfl (.refl d)
    intro head hhead
    exact ⟨(Last.name.inj hhead).symm, hname⟩
  · exact .intro rfl rfl (d.grows_internToken t.text) (by simp)
  · split
    · exact .intro rfl rfl (.refl d) (by simp)
    · exact .group
  · exact closeWith_meets f d t kept?

theorem stepOperand_meets :
    Meets (Within f d t) (Refuses kept? t) (f.stepOperand rule d t) := by
  unfold stepOperand
  split
  · exact .intro rfl rfl (.refl d) (by simp)
  · exact .intro rfl rfl (.refl d) (by simp)
  · apply (stepSettled_meets (f.push rule) d t kept?).mono
    intro c h
    obtain ⟨hid, hname, hgrows, hkept⟩ := h
    exact .intro hid hname hgrows hkept

/-- With `=` behind a name, this definition ends, and the name is to blame if it cannot. -/
theorem endBefore_meets (ht : t.kind = .equals) :
    Meets (Steps ⟨.body f (.name head), d⟩ t) (Refuses (some head) t) (f.endBefore d head) := by
  unfold endBefore
  split
  · split
    · exact .duplicate rfl ht
    · exact .empty rfl ht f.name
  split
  · unfold startBody
    dsimp only
    split
    · exact .duplicate rfl ht
    · exact .next rfl
  · exact .unclosed rfl ht _

theorem stepName_meets :
    Meets (Steps ⟨.body f (.name head), d⟩ t) (Refuses (some head) t) (f.stepName head d t) := by
  unfold stepName
  split
  · rename_i hcolon
    split
    · exact .within (.intro rfl rfl (.refl d) (by simp))
    · exact .label rfl hcolon
  · rename_i hequals
    exact endBefore_meets f d head t hequals
  · -- The name is entered first, and the rest is as behind any primary.
    apply (stepOperand_meets f _ _ t _).mono
    intro c h
    obtain ⟨hid, hname, hgrows, hkept⟩ := h
    exact .within (.intro hid hname ((d.grows_internNode head.text head.span).trans hgrows) hkept)

end Inversion

end Frame

/-- A token is refused for one of the reasons, or does one of the four things. -/
theorem step_meets (c : Config) (t : Token) :
    Meets (Steps c t) (Refuses c.stage.kept? t) (step c t) := by
  obtain ⟨stage, d⟩ := c
  cases stage with
  | fresh =>
    simp only [step, stepFresh]
    split
    · rename_i hname
      exact .head hname
    · exact .token _
  | headed head id =>
    simp only [step, stepHeaded, startBody]
    split
    · rename_i hequals
      split
      · exact .duplicate rfl hequals
      · rename_i hnew
        exact .equals (by simpa using hnew)
    · exact .token _
  | body f last =>
    cases last with
    | settled => exact (f.stepSettled_meets d t _).mono fun _ h => .within h
    | name head => exact f.stepName_meets d head t
    | operand rule => exact (f.stepOperand_meets rule d t _).mono fun _ h => .within h

theorem steps_of_step {c c' : Config} {t : Token} (h : step c t = .ok c') : Steps c t c' := by
  have hmeets := step_meets c t
  rw [h] at hmeets
  exact hmeets

theorem refuses_of_step {c : Config} {t : Token} {e : SyntaxError} (h : step c t = .error e) :
    Refuses c.stage.kept? t e := by
  have hmeets := step_meets c t
  rw [h] at hmeets
  exact hmeets

/-- The name that is kept is the token that has just come. -/
theorem kept_of_step {c c' : Config} {t head : Token} (h : step c t = .ok c')
    (hkept : c'.stage.kept? = some head) : head = t ∧ head.kind = .name := by
  cases steps_of_step h with
  | head hname =>
    obtain rfl := Option.some.inj hkept
    exact ⟨rfl, hname⟩
  | equals => simp [Stage.kept?] at hkept
  | within hwithin =>
    obtain ⟨-, -, -, hlast⟩ := hwithin
    rename_i last _ _ _
    cases last with
    | name head' =>
      obtain rfl := Option.some.inj hkept
      obtain ⟨rfl, hname⟩ := hlast head' rfl
      exact ⟨rfl, hname⟩
    | settled => simp [Stage.kept?] at hkept
    | operand rule => simp [Stage.kept?] at hkept
  | next => simp [Stage.kept?] at hkept

end Stepwise

end TreeGrammar
