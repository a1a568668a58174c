import TreeGrammar.Proofs.Stepwise
import TreeGrammar.Token.Scan

/-! # Open parentheses and labels

    How many parentheses and labels are open at a place can be read off the
    tokens in front of it. The machine counts them right.

    Key idea:
    - a parenthesis is open unless it is closed further on, and a label is
      open until what it labels has come (`staysOpen`);
    - some tokens are closed if none of them leaves anything open, whatever
      follows (`Closed`), as those of a finished atom with its labels are
      (`Labels.closed`);
    - the rules that the machine has on its stack cut the tokens into such
      pieces, with labels and a parenthesis behind each (`Stepwise.Nested`),
      so the count is the depth (`Stepwise.Frame.Opens.openAtEnd`).
-/

namespace TreeGrammar

/-- Whether the parenthesis around some tokens is closed among them, while so many more are open
    inside it. -/
def closesAround : Nat → List Token → Bool
  | _, [] => false
  | depth, t :: tokens =>
    if t.kind = .openParen then closesAround (depth + 1) tokens
    else if t.kind = .closeParen then depth = 0 || closesAround (depth - 1) tokens
    else closesAround depth tokens

/-- Whether the parenthesis or the label that some tokens start with is still open behind
    them. -/
def staysOpen : List Token → Bool
  | [] => false
  | [t] => t.kind = .openParen
  | t :: u :: tokens =>
    if t.kind = .openParen then !closesAround 0 (u :: tokens)
    -- A label lasts as long as what stands behind its colon.
    else t.kind = .name && u.kind = .colon && (tokens.isEmpty || staysOpen tokens)

/-- How many parentheses and labels are open behind some tokens. -/
def openAtEnd : List Token → Nat
  | [] => 0
  | t :: tokens => (if staysOpen (t :: tokens) then 1 else 0) + openAtEnd tokens

/-! ### Closed tokens -/

theorem headKind?_append {front behind : List Token} {kind : TokenKind}
    (hfront : headKind? front ≠ some kind) (hbehind : headKind? behind ≠ some kind) :
    headKind? (front ++ behind) ≠ some kind := by
  cases front with
  | nil => exact hbehind
  | cons t front => exact hfront

theorem openAtEnd_le (front behind : List Token) :
    openAtEnd behind ≤ openAtEnd (front ++ behind) := by
  induction front with
  | nil => exact Nat.le_refl _
  | cons t front ih =>
    show _ ≤ _ + openAtEnd (front ++ behind)
    omega

theorem closesAround_other {t : Token} (hopen : t.kind ≠ .openParen) (hclose : t.kind ≠ .closeParen)
    (depth : Nat) (tokens : List Token) :
    closesAround depth (t :: tokens) = closesAround depth tokens := by
  rw [closesAround, if_neg hopen, if_neg hclose]

theorem closesAround_open {t : Token} (ht : t.kind = .openParen) (depth : Nat)
    (tokens : List Token) : closesAround depth (t :: tokens) = closesAround (depth + 1) tokens := by
  rw [closesAround, if_pos ht]

theorem closesAround_close {t : Token} (ht : t.kind = .closeParen) (depth : Nat)
    (tokens : List Token) :
    closesAround depth (t :: tokens) = (decide (depth = 0) || closesAround (depth - 1) tokens) := by
  rw [closesAround, if_neg (by simp [ht]), if_pos ht]

theorem staysOpen_paren {t : Token} (ht : t.kind = .openParen) (tokens : List Token) :
    staysOpen (t :: tokens) = !closesAround 0 tokens := by
  cases tokens with
  | nil => simp [staysOpen, closesAround, ht]
  | cons u tokens => rw [staysOpen, if_pos ht]

theorem staysOpen_label {t u : Token} (ht : t.kind = .name) (hu : u.kind = .colon)
    (tokens : List Token) :
    staysOpen (t :: u :: tokens) = (tokens.isEmpty || staysOpen tokens) := by
  rw [staysOpen, if_neg (by simp [ht])]
  simp [ht, hu]

theorem staysOpen_other {t : Token} {tokens : List Token} (hopen : t.kind ≠ .openParen)
    (hlabel : t.kind = .name → headKind? tokens ≠ some .colon) : staysOpen (t :: tokens) = false := by
  cases tokens with
  | nil => simp [staysOpen, hopen]
  | cons u tokens =>
    have hnot : ¬ (t.kind = .name ∧ u.kind = .colon) := by
      rintro ⟨ht, hu⟩
      exact hlabel ht (congrArg some hu)
    rw [staysOpen, if_neg hopen]
    simp only [Bool.and_eq_false_iff, decide_eq_false_iff_not]
    exact .inl (not_and_or.1 hnot)

/-- Some tokens leave nothing open, and close nothing that is open around them. -/
structure Closed (piece : List Token) : Prop where
  around : ∀ depth behind, closesAround depth (piece ++ behind) = closesAround depth behind
  /-- A colon behind the tokens would make a label of the last one. -/
  opens : ∀ behind, headKind? behind ≠ some .colon →
    openAtEnd (piece ++ behind) = openAtEnd behind
  head : headKind? piece ≠ some .colon

theorem closed_nil : Closed [] :=
  ⟨fun _ _ => rfl, fun _ _ => rfl, by simp [headKind?]⟩

theorem Closed.append {front behind : List Token} (hfront : Closed front)
    (hbehind : Closed behind) : Closed (front ++ behind) where
  around depth rest := by
    rw [List.append_assoc, hfront.around, hbehind.around]
  opens rest hrest := by
    rw [List.append_assoc, hfront.opens _ (headKind?_append hbehind.head hrest),
      hbehind.opens rest hrest]
  head := headKind?_append hfront.head hbehind.head

/-- A token that is neither a parenthesis nor a colon is closed. -/
theorem closed_token {t : Token} (hopen : t.kind ≠ .openParen) (hclose : t.kind ≠ .closeParen)
    (hcolon : t.kind ≠ .colon) : Closed [t] where
  around depth behind := closesAround_other hopen hclose depth behind
  opens behind hbehind := by
    show (if staysOpen (t :: behind) then 1 else 0) + _ = _
    rw [staysOpen_other hopen fun _ => hbehind]
    simp
  head := by simpa [headKind?] using hcolon

/-- So are closed tokens in parentheses. -/
theorem Closed.group {piece : List Token} {opening closing : Token} (h : Closed piece)
    (hopening : opening.kind = .openParen) (hclosing : closing.kind = .closeParen) :
    Closed (opening :: (piece ++ [closing])) where
  around depth behind := by
    rw [List.cons_append, List.append_assoc, closesAround_open hopening, h.around,
      List.singleton_append, closesAround_close hclosing]
    simp
  opens behind hbehind := by
    have hnext : headKind? (closing :: behind) ≠ some .colon := by simp [headKind?, hclosing]
    have hlast : staysOpen (closing :: behind) = false :=
      staysOpen_other (by simp [hclosing]) (by simp [hclosing])
    have hfirst : staysOpen (opening :: (piece ++ closing :: behind)) = false := by
      rw [staysOpen_paren hopening, h.around, closesAround_close hclosing]
      rfl
    rw [List.cons_append, List.append_assoc]
    show (if staysOpen (opening :: (piece ++ closing :: behind)) then 1 else 0) +
      openAtEnd (piece ++ closing :: behind) = _
    rw [hfirst, h.opens _ hnext, openAtEnd, hlast]
    simp
  head := by simp [headKind?, hopening]

/-- The first of some closed tokens does not stay open. -/
theorem Closed.staysOpen {piece behind : List Token} (h : Closed piece) (hne : piece ≠ [])
    (hbehind : headKind? behind ≠ some .colon) : staysOpen (piece ++ behind) = false := by
  cases piece with
  | nil => exact absurd rfl hne
  | cons t piece =>
    have hopens := h.opens behind hbehind
    have hle := openAtEnd_le piece behind
    change (if TreeGrammar.staysOpen (t :: (piece ++ behind)) then 1 else 0) +
      openAtEnd (piece ++ behind) = _ at hopens
    by_contra htrue
    rw [Bool.not_eq_false] at htrue
    change TreeGrammar.staysOpen (t :: (piece ++ behind)) = true at htrue
    rw [if_pos htrue] at hopens
    omega

/-! ### Labels -/

/-- Some tokens are so many names with `:` behind each. -/
inductive Labels : List Token → Nat → Prop where
  | nil : Labels [] 0
  | cons {name colon : Token} {labels : List Token} {n : Nat} :
      name.kind = .name → colon.kind = .colon → Labels labels n →
        Labels (name :: colon :: labels) (n + 1)

namespace Labels

variable {labels : List Token} {n : Nat}

theorem eq_nil (h : Labels labels 0) : labels = [] := by
  cases h
  rfl

theorem snoc (h : Labels labels n) {name colon : Token} (hname : name.kind = .name)
    (hcolon : colon.kind = .colon) : Labels (labels ++ [name, colon]) (n + 1) := by
  induction h with
  | nil => exact .cons hname hcolon .nil
  | cons hname' hcolon' _ ih => exact .cons hname' hcolon' ih

theorem head (h : Labels labels n) : headKind? labels ≠ some .colon := by
  cases h with
  | nil => simp [headKind?]
  | cons hname => simp [headKind?, hname]

theorem around (h : Labels labels n) (depth : Nat) (behind : List Token) :
    closesAround depth (labels ++ behind) = closesAround depth behind := by
  induction h with
  | nil => rfl
  | cons hname hcolon _ ih =>
    rw [List.cons_append, List.cons_append, closesAround_other (by simp [hname]) (by simp [hname]),
      closesAround_other (by simp [hcolon]) (by simp [hcolon]), ih]

/-- A label and its colon count as one, or not at all. -/
theorem openAtEnd_cons {name colon : Token} (hname : name.kind = .name)
    (hcolon : colon.kind = .colon) (behind : List Token) :
    openAtEnd (name :: colon :: behind) =
      (if behind.isEmpty || TreeGrammar.staysOpen behind then 1 else 0) + openAtEnd behind := by
  have hsecond : TreeGrammar.staysOpen (colon :: behind) = false :=
    staysOpen_other (by simp [hcolon]) (by simp [hcolon])
  rw [openAtEnd, openAtEnd, staysOpen_label hname hcolon, hsecond]
  simp

/-- Labels are open at the end, and as long as what follows is. -/
theorem openAtEnd_open (h : Labels labels n) {behind : List Token}
    (hbehind : (behind.isEmpty || TreeGrammar.staysOpen behind) = true) :
    ((labels ++ behind).isEmpty || TreeGrammar.staysOpen (labels ++ behind)) = true ∧
      openAtEnd (labels ++ behind) = n + openAtEnd behind := by
  induction h with
  | nil => exact ⟨hbehind, (Nat.zero_add _).symm⟩
  | cons hname hcolon _ ih =>
    obtain ⟨hopen, hcount⟩ := ih
    rw [List.cons_append, List.cons_append, staysOpen_label hname hcolon,
      openAtEnd_cons hname hcolon, if_pos hopen, hcount, hopen]
    exact ⟨Bool.or_true _, by omega⟩

/-- Labels in front of closed tokens are closed with them. -/
theorem closed (h : Labels labels n) {piece : List Token} (hpiece : Closed piece)
    (hne : piece ≠ []) : Closed (labels ++ piece) where
  around depth behind := by
    rw [List.append_assoc, h.around, hpiece.around]
  opens behind hbehind := by
    have hboth : TreeGrammar.staysOpen (labels ++ (piece ++ behind)) = false ∧
        openAtEnd (labels ++ (piece ++ behind)) = openAtEnd behind := by
      induction h with
      | nil => exact ⟨hpiece.staysOpen hne hbehind, hpiece.opens behind hbehind⟩
      | @cons name colon labels n hname hcolon _ ih =>
        obtain ⟨hopen, hcount⟩ := ih
        have hsome : (labels ++ (piece ++ behind)).isEmpty = false := by simp [hne]
        rw [List.cons_append, List.cons_append, staysOpen_label hname hcolon,
          openAtEnd_cons hname hcolon, hopen, hsome, hcount]
        exact ⟨rfl, Nat.zero_add _⟩
    rw [List.append_assoc]
    exact hboth.2
  head := headKind?_append h.head hpiece.head

end Labels

namespace Stepwise

/-! ### Rules on the stack -/

/-- The rules around a place cut the tokens before it: behind each of them, innermost last, stand
    its labels and its parenthesis, and everything else is closed. -/
inductive Nested : List Token → List OpenRule → Prop where
  | top {piece : List Token} : Closed piece → Nested piece []
  | group {base labels piece : List Token} {opening : Token} {o : OpenRule}
      {outer : List OpenRule} :
      Nested base outer → Labels labels o.labels.length → opening.kind = .openParen →
        Closed piece → Nested (base ++ (labels ++ opening :: piece)) (o :: outer)

namespace Nested

variable {base : List Token} {outer : List OpenRule}

theorem append (h : Nested base outer) {piece : List Token} (hpiece : Closed piece) :
    Nested (base ++ piece) outer := by
  cases h with
  | top hclosed => exact .top (hclosed.append hpiece)
  | group hbase hlabels hopening hclosed =>
    have hgroup := Nested.group hbase hlabels hopening (hclosed.append hpiece)
    simpa using hgroup

/-- Every parenthesis on the stack is open, and so are its labels. -/
theorem openAtEnd (h : Nested base outer) {behind : List Token}
    (hbehind : headKind? behind ≠ some .colon)
    (haround : ∀ depth, closesAround depth behind = false) :
    TreeGrammar.openAtEnd (base ++ behind) = depthOf outer + TreeGrammar.openAtEnd behind := by
  induction h generalizing behind with
  | top hclosed => rw [hclosed.opens behind hbehind, depthOf_nil, Nat.zero_add]
  | @group base labels piece opening o outer hbase hlabels hopening hclosed ih =>
    have hopen : staysOpen (opening :: (piece ++ behind)) = true := by
      rw [staysOpen_paren hopening, hclosed.around, haround]
      rfl
    have hlasts : ((opening :: (piece ++ behind)).isEmpty ||
        staysOpen (opening :: (piece ++ behind))) = true := hopen
    have haround' : ∀ depth, closesAround depth (labels ++ opening :: (piece ++ behind)) = false := by
      intro depth
      rw [hlabels.around, closesAround_open hopening, hclosed.around, haround]
    have hhead : headKind? (labels ++ opening :: (piece ++ behind)) ≠ some .colon :=
      headKind?_append hlabels.head (by simp [headKind?, hopening])
    -- The labels last as long as the parenthesis, which nothing closes.
    have hcount := (hlabels.openAtEnd_open hlasts).2
    rw [TreeGrammar.openAtEnd, if_pos hopen, hclosed.opens behind hbehind] at hcount
    rw [List.append_assoc, List.append_assoc, List.cons_append, ih hhead haround', hcount,
      depthOf_cons]
    omega

end Nested

/-- Some tokens lead to the place where a rule is being read, with labels that wait there. -/
structure Frame.Opens (f : Frame) (read : List Token) : Prop where
  tokens : ∃ base labels, read = base ++ labels ∧ Nested base f.outer ∧
    Labels labels f.inner.labels.length
  /-- No more parentheses and labels are open than may be. -/
  within : f.depth ≤ maxNesting

namespace Frame.Opens

variable {f f' : Frame} {read : List Token}

/-- The depth is what is open at the end of the tokens. -/
theorem openAtEnd (h : f.Opens read) : TreeGrammar.openAtEnd read = f.depth := by
  obtain ⟨base, labels, rfl, hbase, hlabels⟩ := h.tokens
  have haround : ∀ depth, closesAround depth labels = false := by
    intro depth
    have := hlabels.around depth []
    rwa [List.append_nil] at this
  have hend : (([] : List Token).isEmpty || staysOpen []) = true := rfl
  have hcount := (hlabels.openAtEnd_open hend).2
  rw [List.append_nil] at hcount
  rw [hbase.openAtEnd hlabels.head haround, hcount, Frame.depth, TreeGrammar.openAtEnd]
  omega

-- The label `B` and two of the parentheses are open. What `D` is the label of has come.
example : TreeGrammar.openAtEnd (Scan.ofText "A = B:(C D:('x') (E").tokens = 3 := by cbv

/-- Before any parenthesis, closed tokens lead to a rule. -/
theorem of_closed (hread : Closed read) (houter : f.outer = []) (hlabels : f.inner.labels = []) :
    f.Opens read where
  tokens := by
    rw [houter, hlabels]
    exact ⟨read, [], (List.append_nil read).symm, .top hread, .nil⟩
  within := by simp [Frame.depth, houter, hlabels]

/-- Closed tokens are what the labels wait for. -/
theorem append (h : f.Opens read) {piece : List Token} (hpiece : Closed piece) (hne : piece ≠ [])
    (houter : f'.outer = f.outer) (hlabels : f'.inner.labels = []) : f'.Opens (read ++ piece) where
  tokens := by
    obtain ⟨base, labels, rfl, hbase, hwait⟩ := h.tokens
    rw [houter, hlabels]
    refine ⟨base ++ (labels ++ piece), [], by simp, hbase.append (hwait.closed hpiece hne), .nil⟩
  within := by
    have := h.within
    simp only [Frame.depth, houter, hlabels, List.length_nil] at this ⊢
    omega

/-- One more label waits. -/
theorem label (h : f.Opens read) (hroom : f.depth < maxNesting) {name colon : Token}
    (hname : name.kind = .name) (hcolon : colon.kind = .colon) (text : String) :
    Frame.Opens { f with inner := f.inner.label text } (read ++ [name, colon]) where
  tokens := by
    obtain ⟨base, labels, rfl, hbase, hwait⟩ := h.tokens
    exact ⟨base, labels ++ [name, colon], List.append_assoc _ _ _, hbase, hwait.snoc hname hcolon⟩
  within := by
    unfold Frame.depth at hroom ⊢
    simp only [OpenRule.label, List.length_cons]
    omega

/-- One more parenthesis is open, and the labels wait around it. -/
theorem group (h : f.Opens read) (hroom : f.depth < maxNesting) {opening : Token}
    (hopening : opening.kind = .openParen) :
    Frame.Opens { f with inner := .start, outer := f.inner :: f.outer } (read ++ [opening]) where
  tokens := by
    obtain ⟨base, labels, rfl, hbase, hwait⟩ := h.tokens
    refine ⟨_, [], ?_, .group hbase hwait hopening closed_nil, .nil⟩
    simp
  within := by
    unfold Frame.depth at hroom ⊢
    simp only [OpenRule.start, List.length_nil, depthOf_cons]
    omega

/-- The last parenthesis that was opened is closed, and what the labels around it wait for has
    come. -/
theorem ungroup (h : f.Opens read) (hwait : f.inner.labels = []) {o : OpenRule}
    {outer : List OpenRule} (houter : f.outer = o :: outer) {closing : Token}
    (hclosing : closing.kind = .closeParen) (rule : HandleRule) :
    (Frame.push { f with inner := o, outer } rule).Opens (read ++ [closing]) where
  tokens := by
    obtain ⟨base, labels, rfl, hbase, hlabels⟩ := h.tokens
    rw [hwait] at hlabels
    rw [houter] at hbase
    obtain rfl := hlabels.eq_nil
    cases hbase with
    | @group base labels piece opening _ _ hbase hlabels hopening hclosed =>
      have hgroup := hlabels.closed (hclosed.group hopening hclosing) (List.cons_ne_nil _ _)
      refine ⟨base ++ (labels ++ opening :: (piece ++ [closing])), [], by simp,
        hbase.append hgroup, .nil⟩
  within := by
    have := h.within
    unfold Frame.depth at this ⊢
    rw [houter, depthOf_cons] at this
    simp only [Frame.push, OpenRule.push, List.length_nil]
    omega

end Frame.Opens

end Stepwise

end TreeGrammar
