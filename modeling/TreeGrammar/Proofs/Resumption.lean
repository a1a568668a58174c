import TreeGrammar.Proofs.Acceptance
import TreeGrammar.Proofs.Stepwise

/-! # The machine is the reader

    Every configuration of the machine stands for the rest of a run of the
    descent. A step of the machine and the next token of the descent do the
    same.

    Key idea:
    - `resume` is what the descent has still to do: the rest of the innermost
      rule, the rules around it, and the definitions behind;
    - a token that is kept is put back in front of the tokens to come;
    - one lemma for each kind of token (`verdict_settled`, `verdict_operand`,
      `verdict_name`) gives `outcome_cons`, and `ofTokens_eq_run` follows by
      induction on the tokens.
-/

namespace TreeGrammar

namespace ReadM

section Apply

variable {α β : Type} {x y : ReadM α} {s s' : ReadState}

/-- Where one reader does what another does elsewhere, the same follows. -/
theorem bind_congr_apply (h : x s = y s') (f : α → ReadM β) : (x >>= f) s = (y >>= f) s' := by
  show EStateM.bind x f s = EStateM.bind y f s'
  rw [EStateM.bind, EStateM.bind, h]

end Apply

end ReadM

namespace Stepwise

open ReadM

/-! ### The rest of a rule -/

section Rest

variable (scope : Scope) (room : Nat)

/-- Reads more parts of the current choice and more choices, and closes the rule. -/
def moreParts (o : OpenRule) : ReadM HandleRule := do
  let parts ← many (atom? scope room)
  let choices ← many (alternative? scope (atom? scope room))
  return Rule.ofAlt (o.choices.reverse ++ Rule.ofSeq (o.parts.reverse ++ parts) :: choices)

/-- Reads more choices and closes the rule. -/
def moreChoices (o : OpenRule) : ReadM HandleRule := do
  let choices ← many (alternative? scope (atom? scope room))
  return Rule.ofAlt (o.choices.reverse ++ Rule.ofSeq o.parts.reverse :: choices)

/-- Reads the rest of a rule of which nothing is unsettled. -/
def restOfRule (o : OpenRule) : ReadM HandleRule :=
  if o.needsPart then do
    moreParts scope room (o.push (← required scope (atom? scope (room - o.labels.length))))
  else moreParts scope room o

/-- Complains that no atom starts here. -/
def refuse : ReadM HandleRule := fun s => .error (missingAtom scope s) s

/-- Goes on behind the place of an optional atom. -/
def behindAtom (o : OpenRule) : Option HandleRule → ReadM HandleRule
  | some rule => moreParts scope room (o.push rule)
  | none => if o.needsPart then refuse scope else moreChoices scope room o

theorem restOfRule_push (o : OpenRule) (rule : HandleRule) :
    restOfRule scope room (o.push rule) = moreParts scope room (o.push rule) :=
  if_neg (by simp)

theorem required_bind (atom? : ReadM (Option HandleRule)) (f : HandleRule → ReadM HandleRule) :
    required scope atom? >>= f = atom? >>= fun item? => match item? with
      | some rule => f rule
      | none => refuse scope >>= f := by
  show (atom? >>= fun item? => match item? with
    | some rule => pure rule
    | none => refuse scope) >>= f = _
  rw [bind_assoc]
  congr 1
  funext item?
  cases item? with
  | some rule => exact pure_bind rule f
  | none => rfl

/-- What comes next in a rule is decided by whether an atom starts here. -/
theorem restOfRule_apply (o : OpenRule) (s : ReadState) :
    restOfRule scope room o s =
      (atom? scope (room - o.labels.length) >>= behindAtom scope room o) s := by
  by_cases hneeds : o.needsPart = true
  · have hread : restOfRule scope room o =
        atom? scope (room - o.labels.length) >>= behindAtom scope room o := by
      rw [restOfRule, if_pos hneeds, required_bind]
      congr 1
      funext item
      cases item with
      | some rule => rfl
      | none =>
        rw [behindAtom, if_pos hneeds]
        rfl
    rw [hread]
  · -- No label waits, so this atom has the room of all others in the choice.
    have hlabels : o.labels = [] := by
      simp only [OpenRule.needsPart, Bool.or_eq_true, not_or] at hneeds
      simpa using hneeds.2
    rw [restOfRule, if_neg hneeds, moreParts, hlabels, List.length_nil, Nat.sub_zero]
    cases hitem : atom? scope room s with
    | error e s' =>
      rw [bind_of_error hitem]
      exact bind_of_error (by rw [many_apply (advances_atom? scope room), hitem]) _
    | ok item s' =>
      rw [bind_of_ok hitem]
      cases item with
      | none =>
        have hmany : many (atom? scope room) s = .ok [] s' := by
          rw [many_apply (advances_atom? scope room), hitem]
        rw [bind_of_ok hmany, behindAtom, if_neg hneeds, List.append_nil]
        rfl
      | some rule =>
        have hmany : many (atom? scope room) s =
            ((fun more => rule :: more) <$> many (atom? scope room) : ReadM _) s' := by
          rw [many_apply (advances_atom? scope room), hitem]
        rw [bind_congr_apply hmany]
        simp [behindAtom, moreParts, OpenRule.push, OpenRule.applyLabels, hlabels]

/-- A sequence and the choices behind it are the rest of a rule of which no part was read. -/
theorem sequence_bind (choices : List HandleRule) :
    (sequence scope (atom? scope room) >>= fun first =>
      many (alternative? scope (atom? scope room)) >>= fun others =>
        pure (Rule.ofAlt (choices.reverse ++ first :: others))) =
      restOfRule scope room ⟨choices, [], []⟩ := by
  rw [restOfRule, if_pos (by rfl), ReadM.sequence]
  simp [moreParts, OpenRule.push, OpenRule.applyLabels]

/-- A whole rule is the rest of a rule of which nothing was read. -/
theorem rule_eq_restOfRule :
    rule scope (atom? scope room) = restOfRule scope room .start :=
  sequence_bind scope room []

/-- Behind `|`, the next choice is read. -/
theorem moreChoices_bar {t : Token} (ht : t.kind = .bar) (o : OpenRule) (tokens : List Token)
    (d : Draft) :
    moreChoices scope room o ⟨t :: tokens, d⟩ =
      restOfRule scope room o.nextChoice ⟨tokens, d⟩ := by
  have hbar : headKind? (t :: tokens) = some .bar := by simp [headKind?, ht]
  have hmany : many (alternative? scope (atom? scope room)) ⟨t :: tokens, d⟩ =
      (sequence scope (atom? scope room) >>= fun first =>
        (fun more => first :: more) <$> many (alternative? scope (atom? scope room)) : ReadM _)
          ⟨tokens, d⟩ := by
    have hread : alternative? scope (atom? scope room) ⟨t :: tokens, d⟩ =
        (some <$> sequence scope (atom? scope room)) ⟨tokens, d⟩ := if_pos hbar
    rw [many_apply (advances_alternative? scope room), hread]
    cases hfirst : sequence scope (atom? scope room) ⟨tokens, d⟩ with
    | error e s' =>
      have hsome := (map_eq_error_iff (f := some)).2 hfirst
      rw [bind_of_error hfirst, hsome]
    | ok first s' =>
      have hsome := (map_eq_ok_iff (f := some)).2 ⟨first, hfirst, rfl⟩
      rw [bind_of_ok hfirst, hsome]
  rw [moreChoices, bind_congr_apply hmany, OpenRule.nextChoice, ← sequence_bind]
  simp

/-- Elsewhere, the rule is closed. -/
theorem moreChoices_other {s : ReadState} (hs : headKind? s.rest ≠ some .bar) (o : OpenRule) :
    moreChoices scope room o s = .ok o.close s := by
  have hnone : alternative? scope (atom? scope room) s = .ok none s := by
    rw [alternative?, if_neg hs]
  have hmany : many (alternative? scope (atom? scope room)) s = .ok [] s := by
    rw [many_apply (advances_alternative? scope room), hnone]
  rw [moreChoices, bind_of_ok hmany]
  rfl

/-! ### One token of a rule -/

section Token

variable (o : OpenRule) (tokens : List Token) (d : Draft) {t u : Token}

theorem restOfRule_nil :
    restOfRule scope room o ⟨[], d⟩ =
      if o.needsPart then .error (.emptyRule scope.node (.point scope.stop)) ⟨[], d⟩
      else .ok o.close ⟨[], d⟩ := by
  rw [restOfRule_apply, bind_of_ok (atom?_nil scope _ d), behindAtom]
  by_cases hneeds : o.needsPart = true
  · rw [if_pos hneeds, if_pos hneeds]
    rfl
  · rw [if_neg hneeds, if_neg hneeds]
    exact moreChoices_other scope room (by simp [headKind?]) o

/-- A name with `=` behind it starts no part of a rule. -/
theorem restOfRule_definition (ht : t.kind = .name) (hu : u.kind = .equals) :
    restOfRule scope room o ⟨t :: u :: tokens, d⟩ =
      if o.needsPart then
        .error (if t.text = scope.node || d.isDefined t.text then .duplicateNode t.text t.span
          else .emptyRule scope.node (.point t.span.start)) ⟨t :: u :: tokens, d⟩
      else .ok o.close ⟨t :: u :: tokens, d⟩ := by
  have hstarts : startsDefinition (t :: u :: tokens) = true := by
    simp [startsDefinition, headKind?, ht, hu]
  rw [restOfRule_apply, bind_of_ok (atom?_definition scope _ d ht hu), behindAtom]
  by_cases hneeds : o.needsPart = true
  · rw [if_pos hneeds, if_pos hneeds]
    show EStateM.Result.error (missingAtom scope ⟨t :: u :: tokens, d⟩) _ = _
    simp only [missingAtom, hstarts, if_true]
  · rw [if_neg hneeds, if_neg hneeds]
    exact moreChoices_other scope room (by simp [headKind?, ht]) o

/-- A token that starts no part of a rule may start the next choice. -/
theorem restOfRule_other (hname : t.kind ≠ .name) (hliteral : t.kind ≠ .literal)
    (hparen : t.kind ≠ .openParen) :
    restOfRule scope room o ⟨t :: tokens, d⟩ =
      if o.needsPart then .error (.unexpectedToken .rule t.kind t.span) ⟨t :: tokens, d⟩
      else if t.kind = .bar then restOfRule scope room o.nextChoice ⟨tokens, d⟩
      else .ok o.close ⟨t :: tokens, d⟩ := by
  rw [restOfRule_apply, bind_of_ok (atom?_other scope _ d hname hliteral hparen), behindAtom]
  by_cases hneeds : o.needsPart = true
  · rw [if_pos hneeds, if_pos hneeds]
    show EStateM.Result.error (missingAtom scope ⟨t :: tokens, d⟩) _ = _
    simp [missingAtom, startsDefinition, headKind?, hname]
  · rw [if_neg hneeds, if_neg hneeds]
    by_cases hbar : t.kind = .bar
    · rw [if_pos hbar, moreChoices_bar scope room hbar]
    · rw [if_neg hbar]
      exact moreChoices_other scope room (by simpa [headKind?] using hbar) o

theorem restOfRule_literal (ht : t.kind = .literal) :
    restOfRule scope room o ⟨t :: tokens, d⟩ =
      (quantified (.token (d.internToken t.text).1) >>= fun rule =>
        moreParts scope room (o.push rule)) ⟨tokens, (d.internToken t.text).2⟩ := by
  rw [restOfRule_apply, bind_congr_apply (atom?_literal scope _ d ht)]
  simp [behindAtom]

theorem restOfRule_reference (ht : t.kind = .name) (hequals : headKind? tokens ≠ some .equals)
    (hcolon : headKind? tokens ≠ some .colon) :
    restOfRule scope room o ⟨t :: tokens, d⟩ =
      (quantified (.node (d.internNode t.text t.span).1) >>= fun rule =>
        moreParts scope room (o.push rule)) ⟨tokens, (d.internNode t.text t.span).2⟩ := by
  rw [restOfRule_apply, bind_congr_apply (atom?_reference scope _ d ht hequals hcolon)]
  simp [behindAtom]

/-- A label waits for the next part, for which one place less is left. -/
theorem restOfRule_label (ht : t.kind = .name) (hu : u.kind = .colon) :
    restOfRule scope room o ⟨t :: u :: tokens, d⟩ =
      if o.labels.length < room then restOfRule scope room (o.label t.text) ⟨tokens, d⟩
      else .error (.nestingTooDeep t.span) ⟨tokens, d⟩ := by
  rw [restOfRule_apply]
  by_cases hroom : o.labels.length < room
  · obtain ⟨room', hroom'⟩ := Nat.exists_eq_add_of_lt hroom
    have hleft : room - o.labels.length = room' + 1 := by omega
    have hleft' : room - (o.label t.text).labels.length = room' := by
      simp only [OpenRule.label, List.length_cons]
      omega
    rw [if_pos hroom, hleft, bind_congr_apply (atom?_label scope room' d ht hu), restOfRule,
      if_pos (by simp), hleft']
    simp [behindAtom, OpenRule.push_label]
  · -- The labels in front have used up the room.
    have hleft : room - o.labels.length = 0 := by omega
    rw [if_neg hroom, hleft]
    exact bind_of_error (atom?_label_zero scope d ht hu) _

/-- Inside a parenthesis, another rule is read with one place less. -/
theorem restOfRule_group (ht : t.kind = .openParen) :
    restOfRule scope room o ⟨t :: tokens, d⟩ =
      if o.labels.length < room then
        (restOfRule scope (room - (o.labels.length + 1)) .start >>= fun body =>
          expect .closeParen >>= fun _ => quantified body >>= fun rule =>
            moreParts scope room (o.push rule) : ReadM _) ⟨tokens, d⟩
      else .error (.nestingTooDeep t.span) ⟨tokens, d⟩ := by
  rw [restOfRule_apply]
  by_cases hroom : o.labels.length < room
  · obtain ⟨room', hroom'⟩ := Nat.exists_eq_add_of_lt hroom
    have hleft : room - o.labels.length = room' + 1 := by omega
    have hleft' : room - (o.labels.length + 1) = room' := by omega
    rw [if_pos hroom, hleft, hleft', bind_congr_apply (atom?_group scope room' d ht),
      rule_eq_restOfRule]
    simp [behindAtom]
  · have hleft : room - o.labels.length = 0 := by omega
    rw [if_neg hroom, hleft]
    exact bind_of_error (atom?_group_zero scope d ht) _

end Token

end Rest

/-! ### The rest of a run -/

/-- Reads what is left of the rules around one in parentheses. -/
def closeOuter (scope : Scope) : List OpenRule → HandleRule → ReadM HandleRule
  | [], rule => return rule
  | o :: outer, rule => do
    let _ ← expect .closeParen
    let primary ← quantified rule
    let body ← moreParts scope (maxNesting - depthOf outer) (o.push primary)
    closeOuter scope outer body

/-- What is known while the rule of a definition is read. -/
def Frame.scope (f : Frame) (stop : Nat) : Scope :=
  ⟨f.name, stop⟩

/-- How many parentheses and labels may be open inside the innermost rule. -/
def Frame.room (f : Frame) : Nat :=
  maxNesting - depthOf f.outer

/-- The labels that wait count as well. -/
theorem Frame.depth_lt_iff (f : Frame) :
    f.depth < maxNesting ↔ f.inner.labels.length < f.room := by
  rw [depth, room]
  omega

/-- A parenthesis takes one place, and so does every label in front of it. -/
theorem Frame.room_group (f : Frame) :
    Frame.room { f with inner := .start, outer := f.inner :: f.outer } =
      f.room - (f.inner.labels.length + 1) := by
  rw [room, room, depthOf_cons]
  omega

/-- Reads on behind the innermost rule of a definition. -/
def behindRule (stop : Nat) (f : Frame) (rule : HandleRule) : ReadM Unit := do
  let body ← closeOuter (f.scope stop) f.outer rule
  define f.id f.name body
  definitions stop

/-- Reads on behind a primary of a definition. -/
def behindPrimary (stop : Nat) (f : Frame) (rule : HandleRule) : ReadM Unit := do
  let primary ← quantified rule
  let body ← moreParts (f.scope stop) f.room (f.inner.push primary)
  behindRule stop f body

/-- Reads on in a definition where everything before is settled. -/
def resumeBody (stop : Nat) (f : Frame) : ReadM Unit := do
  let body ← restOfRule (f.scope stop) f.room f.inner
  behindRule stop f body

/-- What the descent has still to do. -/
def resume (stop : Nat) : Stage → ReadM Unit
  | .fresh => definitions stop
  | .headed head id => do
    let _ ← expect .equals
    checkNew head.text head.span
    resumeBody stop ⟨id, head.text, .start, []⟩
  | .body f .settled => resumeBody stop f
  -- The name is read again, together with the token behind it.
  | .body f (.name head) => fun s => resumeBody stop f { s with rest := head :: s.rest }
  | .body f (.operand rule) => behindPrimary stop f rule

/-- What a reader that is through has read, or why it is not. -/
def verdict : EStateM.Result SyntaxError ReadState Unit → Except SyntaxError Draft
  | .ok _ s => .ok s.draft
  | .error e _ => .error e

/-- What the descent makes of a configuration and the tokens behind it. -/
def outcome (stop : Nat) (c : Config) (tokens : List Token) : Except SyntaxError Draft :=
  verdict (resume stop c.stage ⟨tokens, c.draft⟩)

section Resume

variable {stop : Nat} {f : Frame} {t u : Token} {tokens : List Token} {d : Draft}

theorem behindPrimary_of_quantify {rule rule' : HandleRule} {tokens' : List Token}
    (h : quantify rule tokens = (rule', tokens')) :
    behindPrimary stop f rule ⟨tokens, d⟩ = resumeBody stop (f.push rule') ⟨tokens', d⟩ := by
  have hread : quantified rule ⟨tokens, d⟩ = .ok rule' ⟨tokens', d⟩ := by
    rw [quantified_apply, h]
  rw [behindPrimary, bind_of_ok hread, resumeBody, Frame.push, restOfRule_push]
  rfl

/-- Behind the rule of a definition, the next one starts, unless a parenthesis is open. -/
theorem behindRule_nil (houter : f.outer = []) (rule : HandleRule) (s : ReadState) :
    behindRule stop f rule s =
      definitions stop ⟨s.rest, s.draft.define f.id f.name rule⟩ := by
  rw [behindRule, houter]
  rfl

theorem behindRule_cons {o : OpenRule} {outer : List OpenRule} (houter : f.outer = o :: outer)
    (rule : HandleRule) :
    behindRule stop f rule =
      (expect .closeParen >>= fun _ =>
        behindPrimary stop { f with inner := o, outer } rule) := by
  simp [behindRule, houter, closeOuter, behindPrimary, Frame.scope, Frame.room]

/-! ### One token of a run -/

/-- Behind the name of a definition, the machine takes over. -/
theorem definition_bind :
    (definition stop >>= fun _ => definitions stop) =
      (expect .name >>= fun head => internNode head.text head.span >>= fun id =>
        resume stop (.headed head id) : ReadM Unit) := by
  simp only [definition, resume, resumeBody, behindRule, closeOuter, rule_eq_restOfRule,
    Frame.scope, Frame.room, depthOf_nil, Nat.sub_zero, bind_assoc, pure_bind]

/-- The name of a definition is entered before anything else is looked at. -/
theorem definitions_name (ht : t.kind = .name) :
    definitions stop ⟨t :: tokens, d⟩ =
      resume stop (.headed t (d.internNode t.text t.span).1)
        ⟨tokens, (d.internNode t.text t.span).2⟩ := by
  have hname : expect .name ⟨t :: tokens, d⟩ = .ok t ⟨tokens, d⟩ :=
    expect_eq_ok_iff.2 ⟨rfl, ht, rfl⟩
  rw [definitions_cons, definition_bind, bind_of_ok hname]
  rfl

/-- No other token starts a definition. -/
theorem definitions_other (ht : t.kind ≠ .name) :
    definitions stop ⟨t :: tokens, d⟩ =
      .error (.unexpectedToken (.token .name) t.kind t.span) ⟨t :: tokens, d⟩ := by
  have hname : expect .name ⟨t :: tokens, d⟩ =
      .error (.unexpectedToken (.token .name) t.kind t.span) ⟨t :: tokens, d⟩ := if_neg ht
  rw [definitions_cons, definition_bind, bind_of_error hname]

/-- Behind `=`, the rule of a new node is read. -/
theorem verdict_headed (head : Token) (id : NodeId) :
    verdict (resume stop (.headed head id) ⟨t :: tokens, d⟩) =
      (stepHeaded head id d t >>= fun c => outcome stop c tokens) := by
  rw [resume, stepHeaded]
  by_cases ht : t.kind = .equals
  · have hequals : expect .equals ⟨t :: tokens, d⟩ = .ok t ⟨tokens, d⟩ :=
      expect_eq_ok_iff.2 ⟨rfl, ht, rfl⟩
    rw [bind_of_ok hequals, if_pos ht, startBody]
    by_cases hdefined : d.isDefined head.text = true
    · have hnew : checkNew head.text head.span ⟨tokens, d⟩ =
          .error (.duplicateNode head.text head.span) ⟨tokens, d⟩ := if_pos hdefined
      rw [bind_of_error hnew, if_pos hdefined]
      rfl
    · have hnew : checkNew head.text head.span ⟨tokens, d⟩ = .ok () ⟨tokens, d⟩ :=
        if_neg hdefined
      rw [bind_of_ok hnew, if_neg hdefined]
      rfl
  · have hequals : expect .equals ⟨t :: tokens, d⟩ =
        .error (.unexpectedToken (.token .equals) t.kind t.span) ⟨t :: tokens, d⟩ := if_neg ht
    rw [bind_of_error hequals, if_neg ht]
    rfl

/-- A token that starts no part ends the choice, or the parenthesis, or is wrong. -/
theorem verdict_closeWith (hname : t.kind ≠ .name) (hliteral : t.kind ≠ .literal)
    (hparen : t.kind ≠ .openParen) :
    verdict (resumeBody stop f ⟨t :: tokens, d⟩) =
      (f.closeWith d t >>= fun c => outcome stop c tokens) := by
  have hrest := restOfRule_other (f.scope stop) f.room f.inner tokens d hname hliteral hparen
  rw [resumeBody, Frame.closeWith]
  by_cases hneeds : f.inner.needsPart = true
  · rw [if_pos hneeds] at hrest
    rw [bind_of_error hrest, if_pos hneeds]
    rfl
  · rw [if_neg hneeds] at hrest
    rw [if_neg hneeds]
    by_cases hbar : t.kind = .bar
    · rw [if_pos hbar] at hrest
      rw [bind_congr_apply hrest, if_pos hbar]
      rfl
    · rw [if_neg hbar] at hrest
      rw [bind_of_ok hrest, if_neg hbar]
      -- The rule is closed: a parenthesis or a name has to follow.
      cases houter : f.outer with
      | nil =>
        rw [behindRule_nil houter, definitions_other hname]
        rfl
      | cons o outer =>
        rw [behindRule_cons houter]
        by_cases hclose : t.kind = .closeParen
        · have hread : expect .closeParen ⟨t :: tokens, d⟩ = .ok t ⟨tokens, d⟩ :=
            expect_eq_ok_iff.2 ⟨rfl, hclose, rfl⟩
          rw [bind_of_ok hread]
          simp only [if_pos hclose]
          rfl
        · have hread : expect .closeParen ⟨t :: tokens, d⟩ =
              .error (.unexpectedToken (.token .closeParen) t.kind t.span) ⟨t :: tokens, d⟩ :=
            if_neg hclose
          rw [bind_of_error hread]
          simp only [if_neg hclose]
          rfl

/-- One token where everything before it is settled. -/
theorem verdict_settled :
    verdict (resumeBody stop f ⟨t :: tokens, d⟩) =
      (f.stepSettled d t >>= fun c => outcome stop c tokens) := by
  by_cases hname : t.kind = .name
  · -- Both only put the name off until the next token has come.
    rw [Frame.stepSettled_name hname]
    rfl
  by_cases hliteral : t.kind = .literal
  · rw [Frame.stepSettled_literal hliteral, resumeBody,
      bind_congr_apply (restOfRule_literal _ _ _ _ _ hliteral)]
    simp only [bind_assoc]
    rfl
  by_cases hparen : t.kind = .openParen
  · have hrest := restOfRule_group (f.scope stop) f.room f.inner tokens d hparen
    rw [Frame.stepSettled_openParen hparen, resumeBody]
    by_cases hlt : f.depth < maxNesting
    · rw [if_pos (f.depth_lt_iff.1 hlt), ← f.room_group] at hrest
      have hbehind : behindRule stop { f with inner := .start, outer := f.inner :: f.outer } =
          fun body => expect .closeParen >>= fun _ => behindPrimary stop f body :=
        funext fun body => behindRule_cons rfl body
      rw [bind_congr_apply hrest, if_pos hlt]
      show _ = verdict ((restOfRule _ _ _ >>= behindRule stop _) _)
      rw [hbehind]
      simp only [behindPrimary, bind_assoc]
      rfl
    · rw [if_neg (mt f.depth_lt_iff.2 hlt)] at hrest
      rw [bind_of_error hrest, if_neg hlt]
      rfl
  · rw [Frame.stepSettled_other hname hliteral hparen]
    exact verdict_closeWith hname hliteral hparen

/-- One token behind a primary. -/
theorem verdict_operand (rule : HandleRule) :
    verdict (behindPrimary stop f rule ⟨t :: tokens, d⟩) =
      (f.stepOperand rule d t >>= fun c => outcome stop c tokens) := by
  by_cases hquestion : t.kind = .question
  · rw [Frame.stepOperand_question hquestion,
      behindPrimary_of_quantify (quantify_question rule hquestion tokens)]
    rfl
  by_cases hstar : t.kind = .star
  · rw [Frame.stepOperand_star hstar,
      behindPrimary_of_quantify (quantify_star rule hstar tokens)]
    rfl
  · have hquantify : quantify rule (t :: tokens) = (rule, t :: tokens) :=
      quantify_other rule (by simpa [headKind?] using hquestion)
        (by simpa [headKind?] using hstar)
    rw [Frame.stepOperand_other hquestion hstar, behindPrimary_of_quantify hquantify]
    exact verdict_settled

/-- `=` behind a name ends the definition before the name. -/
theorem verdict_endBefore {head : Token} (hhead : head.kind = .name) (ht : t.kind = .equals) :
    verdict (resumeBody stop f ⟨head :: t :: tokens, d⟩) =
      (f.endBefore d head >>= fun c => outcome stop c tokens) := by
  have hrest := restOfRule_definition (f.scope stop) f.room f.inner tokens d hhead ht
  rw [resumeBody, Frame.endBefore]
  by_cases hneeds : f.inner.needsPart = true
  · rw [if_pos hneeds] at hrest
    rw [bind_of_error hrest, if_pos hneeds]
    show Except.error (if head.text = f.name || d.isDefined head.text then _ else _) = _
    split <;> rfl
  · rw [if_neg hneeds] at hrest
    rw [bind_of_ok hrest, if_neg hneeds]
    -- The name is not part of the rule, so it has to be the head of the next definition.
    cases houter : f.outer with
    | nil =>
      rw [behindRule_nil houter, definitions_name hhead, verdict_headed, stepHeaded, if_pos ht]
    | cons o outer =>
      have hread : expect .closeParen ⟨head :: t :: tokens, d⟩ =
          .error (.unexpectedToken (.token .closeParen) head.kind head.span)
            ⟨head :: t :: tokens, d⟩ := if_neg (by simp [hhead])
      rw [behindRule_cons houter, bind_of_error hread]
      rfl

/-- One token behind a name. -/
theorem verdict_name {head : Token} (hhead : head.kind = .name) :
    verdict (resumeBody stop f ⟨head :: t :: tokens, d⟩) =
      (f.stepName head d t >>= fun c => outcome stop c tokens) := by
  by_cases hcolon : t.kind = .colon
  · have hrest := restOfRule_label (f.scope stop) f.room f.inner tokens d hhead hcolon
    rw [Frame.stepName_colon hcolon, resumeBody]
    by_cases hlt : f.depth < maxNesting
    · rw [if_pos (f.depth_lt_iff.1 hlt)] at hrest
      rw [bind_congr_apply hrest, if_pos hlt]
      rfl
    · rw [if_neg (mt f.depth_lt_iff.2 hlt)] at hrest
      rw [bind_of_error hrest, if_neg hlt]
      rfl
  by_cases hequals : t.kind = .equals
  · rw [Frame.stepName_equals hequals]
    exact verdict_endBefore hhead hequals
  · have hrest := restOfRule_reference (f.scope stop) f.room f.inner (t :: tokens) d hhead
      (by simpa [headKind?] using hequals)
      (by simpa [headKind?] using hcolon)
    rw [Frame.stepName_other hcolon hequals, ← verdict_operand, resumeBody,
      bind_congr_apply hrest, behindPrimary]
    simp only [bind_assoc]

/-! ### Whole runs -/

/-- A token does the same to the descent as to the machine. -/
theorem outcome_cons {c : Config} (hkept : ∀ head, c.stage.kept? = some head → head.kind = .name) :
    outcome stop c (t :: tokens) = (step c t >>= fun c' => outcome stop c' tokens) := by
  obtain ⟨stage, d⟩ := c
  rw [outcome]
  cases stage with
  | fresh =>
    show verdict (definitions stop ⟨t :: tokens, d⟩) = (stepFresh d t >>= _)
    rw [stepFresh]
    by_cases ht : t.kind = .name
    · rw [definitions_name ht, if_pos ht]
      rfl
    · rw [definitions_other ht, if_neg ht]
      rfl
  | headed head id => exact verdict_headed head id
  | body f last =>
    cases last with
    | settled => exact verdict_settled
    | name head => exact verdict_name (hkept head rfl)
    | operand rule => exact verdict_operand rule

/-- So does the end of the tokens. -/
theorem outcome_nil {c : Config} (hkept : ∀ head, c.stage.kept? = some head → head.kind = .name) :
    outcome stop c [] = finish c stop := by
  have hsettled : ∀ (f : Frame) (d : Draft),
      verdict (resumeBody stop f ⟨[], d⟩) = f.finishSettled d stop := by
    intro f d
    have hrest := restOfRule_nil (f.scope stop) f.room f.inner d
    rw [resumeBody, Frame.finishSettled]
    by_cases hneeds : f.inner.needsPart = true
    · rw [if_pos hneeds] at hrest
      rw [bind_of_error hrest, if_pos hneeds]
      rfl
    · rw [if_neg hneeds] at hrest
      rw [bind_of_ok hrest, if_neg hneeds]
      cases houter : f.outer with
      | nil =>
        rw [behindRule_nil houter]
        rfl
      | cons o outer =>
        rw [behindRule_cons houter]
        rfl
  have hoperand : ∀ (f : Frame) (rule : HandleRule) (d : Draft),
      verdict (behindPrimary stop f rule ⟨[], d⟩) = (f.push rule).finishSettled d stop := by
    intro f rule d
    rw [behindPrimary_of_quantify (show quantify rule [] = (rule, []) from rfl)]
    exact hsettled (f.push rule) d
  obtain ⟨stage, d⟩ := c
  rw [outcome]
  cases stage with
  | fresh => rfl
  | headed head id => rfl
  | body f last =>
    cases last with
    | settled => exact hsettled f d
    | operand rule => exact hoperand f rule d
    | name head =>
      have hrest := restOfRule_reference (f.scope stop) f.room f.inner [] d
        (hkept head rfl) (by simp [headKind?]) (by simp [headKind?])
      show verdict (resumeBody stop f ⟨[head], d⟩) = (f.push _).finishSettled _ stop
      rw [← hoperand, resumeBody, bind_congr_apply hrest, behindPrimary]
      simp only [bind_assoc]

/-- What the descent makes of tokens is what the machine makes of them, token by token. -/
theorem outcome_eq_run (stop : Nat) {c : Config}
    (hkept : ∀ head, c.stage.kept? = some head → head.kind = .name) (tokens : List Token) :
    outcome stop c tokens = (run c tokens >>= fun c' => finish c' stop) := by
  induction tokens generalizing c with
  | nil => exact outcome_nil hkept
  | cons t tokens ih =>
    rw [outcome_cons hkept, run, List.foldlM_cons]
    cases hstep : step c t with
    | error e => rfl
    | ok c' =>
      apply ih
      intro head hhead
      exact (kept_of_step hstep hhead).2

end Resume

/-- The machine reads definitions as the descent does. -/
theorem verdict_definitions (stop : Nat) (tokens : List Token) :
    verdict (definitions stop ⟨tokens, {}⟩) = (run .start tokens >>= fun c => finish c stop) := by
  have hkept : ∀ head, Config.start.stage.kept? = some head → head.kind = .name := by
    simp [Config.start, Stage.kept?]
  exact outcome_eq_run stop hkept tokens

theorem ofTokens_eq_verdict (tokens : List Token) :
    Grammar.ofTokens tokens =
      (verdict (definitions (Grammar.stopOf tokens) ⟨tokens, {}⟩) >>= Draft.complete) := by
  unfold Grammar.ofTokens Grammar.readTokens EStateM.run
  cases hread : definitions (Grammar.stopOf tokens) ⟨tokens, {}⟩ with
  | error e s =>
    have hgrammar : ReadM.grammar (Grammar.stopOf tokens) ⟨tokens, {}⟩ = .error e s :=
      bind_of_error hread _
    rw [hgrammar]
    rfl
  | ok item s =>
    have hgrammar : ReadM.grammar (Grammar.stopOf tokens) ⟨tokens, {}⟩ = ReadM.finish s :=
      bind_of_ok hread _
    rw [hgrammar, ReadM.finish]
    show _ = s.draft.complete
    cases s.draft.complete with
    | error e => rfl
    | ok g => rfl

/-- The machine reads the same tokens as a grammar as the descent, and refuses the others with the
    same error. -/
theorem ofTokens_eq_run (tokens : List Token) :
    Grammar.ofTokens tokens =
      (run .start tokens >>= fun c => finish c (Grammar.stopOf tokens) >>= Draft.complete) := by
  rw [ofTokens_eq_verdict, verdict_definitions, bind_assoc]

end Stepwise

end TreeGrammar
