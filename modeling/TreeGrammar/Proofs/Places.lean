import TreeGrammar.Proofs.RoundTrip
import TreeGrammar.Proofs.Viability

/-! # Tokens at other places

    The reader looks at what tokens say and passes on where they stand. The
    same tokens at other places are therefore read in the same way, and an
    error is at the other place.

    Key idea:
    - `Related R` compares two things of the same shape that are equal in all
      but their offsets, which a relation `R` ties together;
    - no step of the machine looks at an offset, so related configurations
      take related steps (`step_related`) and runs (`run_related`);
    - what `R` is does not matter. If it ties all offsets together, the result
      is that places have no influence; if it is equality on some offsets, an
      error is at one of these.
-/

namespace TreeGrammar

/-! ### Related things -/

/-- The two ends of one span are related to those of another. -/
structure Span.Related (R : Nat → Nat → Prop) (s s' : Span) : Prop where
  /-- The starts are related. -/
  start : R s.start s'.start
  /-- The ends are related. -/
  stop : R s.stop s'.stop

/-- Two tokens say the same. -/
structure Token.Related (R : Nat → Nat → Prop) (t t' : Token) : Prop where
  /-- They are of the same kind. -/
  kind : t.kind = t'.kind
  /-- They spell the same. No value is as good as an empty one. -/
  text : t.text = t'.text
  /-- Their spans are related. -/
  span : t.span.Related R t'.span

/-- Two errors have the same cause. -/
inductive SyntaxError.Related (R : Nat → Nat → Prop) : SyntaxError → SyntaxError → Prop where
  | unexpectedEnd (expected : Expected) :
      Related R (.unexpectedEnd expected) (.unexpectedEnd expected)
  | unexpectedToken (expected : Expected) (found : TokenKind) {s s' : Span} :
      s.Related R s' →
        Related R (.unexpectedToken expected found s) (.unexpectedToken expected found s')
  | emptyRule (node : String) {s s' : Span} :
      s.Related R s' → Related R (.emptyRule node s) (.emptyRule node s')
  | duplicateNode (name : String) {s s' : Span} :
      s.Related R s' → Related R (.duplicateNode name s) (.duplicateNode name s')
  | undefinedNode (name : String) {s s' : Span} :
      s.Related R s' → Related R (.undefinedNode name s) (.undefinedNode name s')
  | nestingTooDeep {s s' : Span} :
      s.Related R s' → Related R (.nestingTooDeep s) (.nestingTooDeep s')

/-- Two pending nodes are the same. -/
structure PendingNode.Related (R : Nat → Nat → Prop) (node node' : PendingNode) : Prop where
  /-- They have the same name. -/
  name : node.name = node'.name
  /-- They have the same rule, or none. -/
  rule? : node.rule? = node'.rule?
  /-- The places where they were first seen are related. -/
  span : node.span.Related R node'.span

/-- Two drafts have the same tables. -/
structure Draft.Related (R : Nat → Nat → Prop) (d d' : Draft) : Prop where
  /-- The nodes are the same, one by one. -/
  nodes : List.Forall₂ (PendingNode.Related R) d.nodes d'.nodes
  /-- The tokens are the same. -/
  tokens : d.tokens = d'.tokens
  /-- The definitions are the same. -/
  definitions : d.definitions = d'.definitions

/-- Two results are values of one relation, or errors of another. -/
inductive Alike {ε α : Type} (E : ε → ε → Prop) (P : α → α → Prop) :
    Except ε α → Except ε α → Prop where
  | ok {a a' : α} : P a a' → Alike E P (.ok a) (.ok a')
  | error {e e' : ε} : E e e' → Alike E P (.error e) (.error e')

section Alike

variable {ε α β : Type} {E : ε → ε → Prop} {P : α → α → Prop} {Q : β → β → Prop}
  {x x' : Except ε α}

/-- What is done with results that are alike is alike if it is alike for their values. -/
theorem Alike.bind {f f' : α → Except ε β} (h : Alike E P x x')
    (hf : ∀ a a', P a a' → Alike E Q (f a) (f' a')) : Alike E Q (x >>= f) (x' >>= f') := by
  cases h with
  | ok ha => exact hf _ _ ha
  | error he => exact .error he

theorem Alike.mapError {ε' : Type} {E' : ε' → ε' → Prop} {f : ε → ε'} (h : Alike E P x x')
    (hf : ∀ e e', E e e' → E' (f e) (f e')) : Alike E' P (x.mapError f) (x'.mapError f) := by
  cases h with
  | ok ha => exact .ok ha
  | error he => exact .error (hf _ _ he)

end Alike

variable {R : Nat → Nat → Prop}

theorem Span.Related.point {n n' : Nat} (h : R n n') : (point n).Related R (point n') :=
  ⟨h, h⟩

/-! ### Drafts -/

namespace Draft

section Related

variable {d d' : Draft}

theorem Related.names_eq (h : d.Related R d') : d.names = d'.names := by
  have hnodes := h.nodes
  rw [names, names]
  generalize d.nodes = nodes at hnodes
  generalize d'.nodes = nodes' at hnodes
  induction hnodes with
  | nil => rfl
  | cons hnode _ ih => rw [List.map_cons, List.map_cons, hnode.name, ih]

theorem Related.isDefined_eq (h : d.Related R d') (name : String) :
    d.isDefined name = d'.isDefined name := by
  have hnodes := h.nodes
  rw [isDefined, isDefined]
  generalize d.nodes = nodes at hnodes
  generalize d'.nodes = nodes' at hnodes
  induction hnodes with
  | nil => rfl
  | cons hnode _ ih => rw [List.any_cons, List.any_cons, hnode.name, hnode.rule?, ih]

/-- A name gets the same handle in both drafts. -/
theorem Related.internNode (h : d.Related R d') (name : String) {s s' : Span}
    (hs : s.Related R s') :
    (d.internNode name s).1 = (d'.internNode name s').1 ∧
      (d.internNode name s).2.Related R (d'.internNode name s').2 := by
  by_cases hmem : name ∈ d.names
  · rw [internNode_of_mem hmem, internNode_of_mem (h.names_eq ▸ hmem), h.names_eq]
    exact ⟨rfl, h⟩
  · rw [internNode_of_not_mem hmem, internNode_of_not_mem (h.names_eq ▸ hmem)]
    refine ⟨congrArg NodeId.mk h.nodes.length_eq, ?_, h.tokens, h.definitions⟩
    exact List.rel_append h.nodes (.cons ⟨rfl, rfl, hs⟩ .nil)

theorem Related.internToken (h : d.Related R d') (name : String) :
    (d.internToken name).1 = (d'.internToken name).1 ∧
      (d.internToken name).2.Related R (d'.internToken name).2 := by
  by_cases hmem : name ∈ d.tokens
  · rw [Draft.internToken, Draft.internToken, findToken?_of_mem hmem,
      findToken?_of_mem (h.tokens ▸ hmem), h.tokens]
    exact ⟨rfl, h⟩
  · rw [Draft.internToken, Draft.internToken, findToken?_of_not_mem hmem,
      findToken?_of_not_mem (h.tokens ▸ hmem)]
    exact ⟨by rw [h.tokens], h.nodes, by simp [h.tokens], h.definitions⟩

theorem forall₂_modify {nodes nodes' : List PendingNode}
    (h : List.Forall₂ (PendingNode.Related R) nodes nodes') (i : Nat) (rule : HandleRule) :
    List.Forall₂ (PendingNode.Related R)
      (nodes.modify i fun node => { node with rule? := some rule })
      (nodes'.modify i fun node => { node with rule? := some rule }) := by
  induction h generalizing i with
  | nil => simp
  | cons hnode hnodes ih =>
    cases i with
    | zero => exact .cons ⟨hnode.name, rfl, hnode.span⟩ hnodes
    | succ i => exact .cons hnode (ih i)

theorem Related.define (h : d.Related R d') (id : NodeId) (name : String) (rule : HandleRule) :
    (d.define id name rule).Related R (d'.define id name rule) :=
  ⟨forall₂_modify h.nodes id.index rule, h.tokens, congrArg (· ++ [id]) h.definitions⟩

theorem mapM_finishNode_related {nodes nodes' : List PendingNode}
    (h : List.Forall₂ (PendingNode.Related R) nodes nodes') :
    Alike (SyntaxError.Related R) Eq (nodes.mapM finishNode) (nodes'.mapM finishNode) := by
  induction h with
  | nil => exact .ok rfl
  | @cons node node' _ _ hnode _ ih =>
    rw [List.mapM_cons, List.mapM_cons]
    refine Alike.bind (P := Eq) ?_ ?_
    · rw [finishNode, finishNode, ← hnode.rule?, ← hnode.name]
      cases node.rule? with
      | some rule => exact .ok rfl
      | none => exact .error (.undefinedNode node.name hnode.span)
    · rintro finished _ rfl
      exact ih.bind fun others _ hothers => hothers ▸ .ok rfl

/-- The same grammar is made of both drafts, or the same node has no rule. -/
theorem Related.complete (h : d.Related R d') :
    Alike (SyntaxError.Related R) Eq d.complete d'.complete := by
  rw [Draft.complete, Draft.complete, h.tokens, h.definitions]
  exact (mapM_finishNode_related h.nodes).bind fun nodes _ hnodes => hnodes ▸ .ok rfl

end Related

end Draft

/-! ### Steps -/

namespace Stepwise

/-- The last token is the same. -/
inductive Last.Related (R : Nat → Nat → Prop) : Last → Last → Prop where
  | settled : Related R .settled .settled
  | name {t t' : Token} : t.Related R t' → Related R (.name t) (.name t')
  | operand (rule : HandleRule) : Related R (.operand rule) (.operand rule)

/-- The same is being read. -/
inductive Stage.Related (R : Nat → Nat → Prop) : Stage → Stage → Prop where
  | fresh : Related R .fresh .fresh
  | headed {head head' : Token} (id : NodeId) :
      head.Related R head' → Related R (.headed head id) (.headed head' id)
  | body (f : Frame) {last last' : Last} :
      last.Related R last' → Related R (.body f last) (.body f last')

/-- Two configurations are the same. -/
structure Config.Related (R : Nat → Nat → Prop) (c c' : Config) : Prop where
  /-- The same is being read. -/
  stage : c.stage.Related R c'.stage
  /-- The same was read so far. -/
  draft : c.draft.Related R c'.draft

theorem start_related : Config.start.Related R Config.start :=
  ⟨.fresh, .nil, rfl, rfl⟩

section Steps

variable {d d' : Draft} {t t' head head' : Token}

theorem stepFresh_related (hd : d.Related R d') (ht : t.Related R t') :
    Alike (SyntaxError.Related R) (Config.Related R) (stepFresh d t) (stepFresh d' t') := by
  obtain ⟨hid, hintern⟩ := hd.internNode t.text ht.span
  rw [stepFresh, stepFresh, ← ht.kind, ← ht.text]
  split
  · rw [hid]
    exact .ok ⟨.headed _ ht, hintern⟩
  · exact .error (.unexpectedToken _ _ ht.span)

theorem startBody_related (hd : d.Related R d') (hhead : head.Related R head') (id : NodeId) :
    Alike (SyntaxError.Related R) (Config.Related R)
      (startBody head id d) (startBody head' id d') := by
  rw [startBody, startBody, ← hhead.text, ← hd.isDefined_eq]
  split
  · exact .error (.duplicateNode _ hhead.span)
  · exact .ok ⟨.body _ .settled, hd⟩

theorem stepHeaded_related (hd : d.Related R d') (hhead : head.Related R head') (id : NodeId)
    (ht : t.Related R t') :
    Alike (SyntaxError.Related R) (Config.Related R)
      (stepHeaded head id d t) (stepHeaded head' id d' t') := by
  rw [stepHeaded, stepHeaded, ← ht.kind]
  split
  · exact startBody_related hd hhead id
  · exact .error (.unexpectedToken _ _ ht.span)

namespace Frame

variable (f : Frame) (rule : HandleRule)

theorem closeWith_related (hd : d.Related R d') (ht : t.Related R t') :
    Alike (SyntaxError.Related R) (Config.Related R) (f.closeWith d t) (f.closeWith d' t') := by
  rw [closeWith, closeWith, ← ht.kind]
  split
  · exact .error (.unexpectedToken _ _ ht.span)
  split
  · exact .ok ⟨.body _ .settled, hd⟩
  split
  · exact .error (.unexpectedToken _ _ ht.span)
  · split
    · exact .ok ⟨.body _ (.operand _), hd⟩
    · exact .error (.unexpectedToken _ _ ht.span)

theorem stepSettled_related (hd : d.Related R d') (ht : t.Related R t') :
    Alike (SyntaxError.Related R) (Config.Related R) (f.stepSettled d t) (f.stepSettled d' t') := by
  obtain ⟨hid, hintern⟩ := hd.internToken t.text
  rw [stepSettled, stepSettled, ← ht.kind, ← ht.text]
  split
  · exact .ok ⟨.body f (.name ht), hd⟩
  · rw [hid]
    exact .ok ⟨.body f (.operand _), hintern⟩
  · split
    · exact .ok ⟨.body _ .settled, hd⟩
    · exact .error (.nestingTooDeep ht.span)
  · exact closeWith_related f hd ht

theorem stepOperand_related (hd : d.Related R d') (ht : t.Related R t') :
    Alike (SyntaxError.Related R) (Config.Related R)
      (f.stepOperand rule d t) (f.stepOperand rule d' t') := by
  rw [stepOperand, stepOperand, ← ht.kind]
  split
  · exact .ok ⟨.body _ .settled, hd⟩
  · exact .ok ⟨.body _ .settled, hd⟩
  · exact stepSettled_related _ hd ht

theorem endBefore_related (hd : d.Related R d') (hhead : head.Related R head') :
    Alike (SyntaxError.Related R) (Config.Related R)
      (f.endBefore d head) (f.endBefore d' head') := by
  rw [endBefore, endBefore, ← hhead.text, ← hhead.kind, ← hd.isDefined_eq]
  split
  · split
    · exact .error (.duplicateNode _ hhead.span)
    · exact .error (.emptyRule _ (.point hhead.span.start))
  split
  · -- The draft behind the definition is the same, and so is the handle of the next node.
    obtain ⟨hid, hintern⟩ :=
      (hd.define f.id f.name f.inner.close).internNode head.text hhead.span
    dsimp only
    rw [hid]
    exact startBody_related hintern hhead _
  · exact .error (.unexpectedToken _ _ hhead.span)

theorem stepName_related (hd : d.Related R d') (hhead : head.Related R head')
    (ht : t.Related R t') :
    Alike (SyntaxError.Related R) (Config.Related R)
      (f.stepName head d t) (f.stepName head' d' t') := by
  obtain ⟨hid, hintern⟩ := hd.internNode head.text hhead.span
  rw [stepName, stepName, ← ht.kind, ← hhead.text]
  split
  · split
    · exact .ok ⟨.body _ .settled, hd⟩
    · exact .error (.nestingTooDeep hhead.span)
  · exact endBefore_related f hd hhead
  · rw [hid]
    exact stepOperand_related f _ hintern ht

theorem finishSettled_related (hd : d.Related R d') {stop stop' : Nat} (hstop : R stop stop') :
    Alike (SyntaxError.Related R) (Draft.Related R)
      (f.finishSettled d stop) (f.finishSettled d' stop') := by
  rw [finishSettled, finishSettled]
  split
  · exact .error (.emptyRule _ (.point hstop))
  split
  · exact .ok (hd.define _ _ _)
  · exact .error (.unexpectedEnd _)

end Frame

variable {c c' : Config}

/-- The same token leads from the same configuration to the same one. -/
theorem step_related (hc : c.Related R c') (ht : t.Related R t') :
    Alike (SyntaxError.Related R) (Config.Related R) (step c t) (step c' t') := by
  obtain ⟨stage, d⟩ := c
  obtain ⟨stage', d'⟩ := c'
  obtain ⟨hstage, hd⟩ := hc
  cases hstage with
  | fresh => exact stepFresh_related hd ht
  | headed id hhead => exact stepHeaded_related hd hhead id ht
  | body f hlast =>
    cases hlast with
    | settled => exact f.stepSettled_related hd ht
    | name hhead => exact f.stepName_related hd hhead ht
    | operand rule => exact f.stepOperand_related rule hd ht

/-- The same tokens, one after the other. -/
theorem run_related {tokens tokens' : List Token} (hc : c.Related R c')
    (htokens : List.Forall₂ (Token.Related R) tokens tokens') :
    Alike (SyntaxError.Related R) (Config.Related R) (run c tokens) (run c' tokens') := by
  induction htokens generalizing c c' with
  | nil => exact .ok hc
  | cons ht _ ih =>
    rw [run_cons, run_cons]
    exact (step_related hc ht).bind fun _ _ hnext => ih hnext

/-- The same is missing at the end, or nothing. -/
theorem finish_related (hc : c.Related R c') {stop stop' : Nat} (hstop : R stop stop') :
    Alike (SyntaxError.Related R) (Draft.Related R) (finish c stop) (finish c' stop') := by
  obtain ⟨stage, d⟩ := c
  obtain ⟨stage', d'⟩ := c'
  obtain ⟨hstage, hd⟩ := hc
  cases hstage with
  | fresh => exact .ok hd
  | headed id hhead => exact .error (.unexpectedEnd _)
  | body f hlast =>
    cases hlast with
    | settled => exact f.finishSettled_related hd hstop
    | @name head head' hhead =>
      -- A name at the end is no head: it becomes a node, whose handle its place does not tell.
      obtain ⟨hid, hintern⟩ := hd.internNode head.text hhead.span
      show Alike (SyntaxError.Related R) _
        ((f.push (.node (d.internNode head.text head.span).1)).finishSettled _ stop)
        ((f.push (.node (d'.internNode head'.text head'.span).1)).finishSettled _ stop')
      rw [← hhead.text, hid]
      exact Frame.finishSettled_related _ hintern hstop
    | operand rule => exact Frame.finishSettled_related _ hd hstop

end Steps

end Stepwise

/-! ### Grammars -/

namespace Grammar

open Stepwise

variable {tokens tokens' : List Token}

theorem stopOf_related (hzero : R 0 0) (h : List.Forall₂ (Token.Related R) tokens tokens') :
    R (stopOf tokens) (stopOf tokens') := by
  induction h with
  | nil => exact hzero
  | @cons t t' tokens tokens' ht h ih =>
    cases h with
    | nil => exact ht.span.stop
    | cons _ _ => simpa [stopOf, List.getLast?_cons_cons] using ih

/-- The same tokens at related places make the same grammar, or the same error at a related
    place. -/
theorem ofTokens_related (hzero : R 0 0) (h : List.Forall₂ (Token.Related R) tokens tokens') :
    Alike (SyntaxError.Related R) Eq (ofTokens tokens) (ofTokens tokens') := by
  rw [ofTokens_eq_run, ofTokens_eq_run]
  refine (run_related start_related h).bind fun c c' hc => ?_
  exact (finish_related hc (stopOf_related hzero h)).bind fun d d' hd => hd.complete

end Grammar

/-! ### The same tokens anywhere -/

/-- Two tokens say the same, wherever they stand. No value is as good as an empty one. -/
def Token.SaysAs (t t' : Token) : Prop :=
  t.kind = t'.kind ∧ t.text = t'.text

/-- Two errors are the same in all but their spans. -/
def SyntaxError.SameCause (e e' : SyntaxError) : Prop :=
  e.Related (fun _ _ => True) e'

/-- Two errors of texts that are made of tokens are the same in all but their spans. -/
inductive LoadError.SameCause : LoadError → LoadError → Prop where
  | structural {e e' : SyntaxError} : e.SameCause e' → SameCause (.structural e) (.structural e')

/-- The words of a layout. -/
def Layout.words : Layout → List (List Char)
  | .last _ => []
  | .word _ text behind => text :: behind.words

/-- A text spells one token at most. -/
theorem Spelling.unique {text : List Char} {kind kind' : TokenKind} {value value' : Option String}
    (h : Spelling text kind value) (h' : Spelling text kind' value') :
    kind = kind' ∧ value = value' := by
  have hnothing : EndsName [] := by simp [EndsName]
  have hboth := (Lexeme.first_complete h fun _ => hnothing).symm.trans
    (Lexeme.first_complete h' fun _ => hnothing)
  simpa using hboth

/-- Two layouts of the same words spell the same tokens, whatever is between the words. -/
theorem Layout.Spells.saysAs {layout layout' : Layout} {offset offset' : Nat}
    {tokens tokens' : List Token} (h : layout.Spells offset tokens)
    (h' : layout'.Spells offset' tokens') (hwords : layout.words = layout'.words) :
    List.Forall₂ Token.SaysAs tokens tokens' := by
  induction h generalizing layout' offset' tokens' with
  | last _ =>
    cases h' with
    | last _ => exact .nil
    | word _ _ _ _ _ => cases hwords
  | @word offset trivia text behind t tokens _ hspelling _ _ _ ih =>
    cases h' with
    | last _ => cases hwords
    | @word _ trivia' text' behind' t' tokens' _ hspelling' _ _ hbehind' =>
      obtain ⟨rfl, hbehind⟩ := List.cons.inj hwords
      obtain ⟨hkind, hvalue⟩ := hspelling.unique hspelling'
      exact .cons ⟨hkind, congrArg (Option.getD · "") hvalue⟩ (ih hbehind' hbehind)

/-- The tokens of a layout are those of its text. -/
theorem tokensOf_of_spells {source : String} {layout : Layout} {tokens : List Token}
    (htext : layout.text = source.toList) (h : layout.Spells 0 tokens) :
    tokensOf .strict source = .ok tokens := by
  obtain ⟨htokens, hrest⟩ := Scan.ofCursor_of_spells h
  rw [htext] at htokens hrest
  exact Scan.complete_eq_ok_iff.2 ⟨hrest, htokens⟩

namespace Grammar

/-- Places have no influence. Tokens that say the same are read as the same grammar, or refused
    with the same error but for its span. So are two texts whose tokens say the same, and these
    are, for one, any two texts that consist of the same words. -/
theorem ofText_elsewhere :
    (∀ tokens tokens' : List Token, List.Forall₂ Token.SaysAs tokens tokens' →
      Alike SyntaxError.SameCause Eq (ofTokens tokens) (ofTokens tokens')) ∧
    (∀ (source source' : String) (tokens tokens' : List Token),
      tokensOf .strict source = .ok tokens → tokensOf .strict source' = .ok tokens' →
        List.Forall₂ Token.SaysAs tokens tokens' →
          Alike LoadError.SameCause Eq (ofText source) (ofText source')) ∧
    ∀ (source source' : String) (layout layout' : Layout) (tokens tokens' : List Token),
      layout.text = source.toList → layout.Spells 0 tokens →
      layout'.text = source'.toList → layout'.Spells 0 tokens' →
        layout.words = layout'.words →
          Alike LoadError.SameCause Eq (ofText source) (ofText source') := by
  have htokens : ∀ tokens tokens' : List Token, List.Forall₂ Token.SaysAs tokens tokens' →
      Alike SyntaxError.SameCause Eq (ofTokens tokens) (ofTokens tokens') := by
    intro tokens tokens' h
    exact ofTokens_related trivial (h.imp fun t t' hsame => ⟨hsame.1, hsame.2, trivial, trivial⟩)
  have htexts : ∀ (source source' : String) (tokens tokens' : List Token),
      tokensOf .strict source = .ok tokens → tokensOf .strict source' = .ok tokens' →
        List.Forall₂ Token.SaysAs tokens tokens' →
          Alike LoadError.SameCause Eq (ofText source) (ofText source') := by
    intro source source' tokens tokens' hsource hsource' h
    rw [ofText, ofText, load_of_tokensOf hsource, load_of_tokensOf hsource']
    exact (htokens tokens tokens' h).mapError fun _ _ => .structural
  refine ⟨htokens, htexts, ?_⟩
  intro source source' layout layout' tokens tokens' htext hspells htext' hspells' hwords
  exact htexts source source' tokens tokens' (tokensOf_of_spells htext hspells)
    (tokensOf_of_spells htext' hspells') (hspells.saysAs hspells' hwords)

/-- A comment and blanks between the words move the error, and do not change it. -/
theorem ofText_elsewhere_comment :
    let source := "A=B"
    let source' := "A // B = 'c'\n\t= B "
    ofText source = .error (.structural (.undefinedNode "B" (Span.ofLength 2 1))) ∧
    ∃ span, ofText source' = .error (.structural (.undefinedNode "B" span)) := by
  intro source source'
  have herror : ofText source =
      .error (.structural (.undefinedNode "B" (Span.ofLength 2 1))) := by cbv
  have htokens : tokensOf .strict source = .ok [⟨.name, Span.ofLength 0 1, some "A"⟩,
      ⟨.equals, Span.ofLength 1 1, none⟩, ⟨.name, Span.ofLength 2 1, some "B"⟩] := by cbv
  have htokens' : tokensOf .strict source' = .ok [⟨.name, Span.ofLength 0 1, some "A"⟩,
      ⟨.equals, Span.ofLength 14 1, none⟩, ⟨.name, Span.ofLength 16 1, some "B"⟩] := by cbv
  have halike := ofText_elsewhere.2.1 source source' _ _ htokens htokens'
    (.cons ⟨rfl, rfl⟩ (.cons ⟨rfl, rfl⟩ (.cons ⟨rfl, rfl⟩ .nil)))
  rw [herror] at halike
  refine ⟨herror, ?_⟩
  generalize ofText source' = result at halike
  cases halike with
  | error hcause =>
    cases hcause with
    | structural hcause =>
      cases hcause with
      | undefinedNode _ _ => exact ⟨_, rfl⟩

end Grammar

end TreeGrammar
