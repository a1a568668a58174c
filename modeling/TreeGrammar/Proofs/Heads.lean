import TreeGrammar.Proofs.Seam
import TreeGrammar.Proofs.Viability

/-! # Heads of definitions

    A name with `=` behind it is the head of a definition, wherever it
    stands. A head that has its definition already is refused there, whatever
    follows.

    Key idea:
    - rules have no `=`, so that the heads among the tokens of a derivation
      are those of its definitions (`Derivation.map_text_headsOf`);
    - where the tokens may end, a name and `=` start the next definition
      (`Stepwise.run_head_of_finish`);
    - then the draft knows which names are defined, and no later token
      changes the error (`ofTokens_second_definition`).
-/

namespace TreeGrammar

/-! ### Heads -/

/-- The names with `=` behind them. -/
def headsOf : List Token → List Token
  | [] => []
  | t :: tokens => if startsDefinition (t :: tokens) then t :: headsOf tokens else headsOf tokens

theorem startsDefinition_cons_cons (t u : Token) (tokens : List Token) :
    startsDefinition (t :: u :: tokens) = true ↔ t.kind = .name ∧ u.kind = .equals := by
  simp [startsDefinition, headKind?]

theorem headsOf_head {t u : Token} (ht : t.kind = .name) (hu : u.kind = .equals)
    (tokens : List Token) : headsOf (t :: u :: tokens) = t :: headsOf tokens := by
  have hnot : ¬ startsDefinition (u :: tokens) = true := by
    simp [startsDefinition, headKind?, hu]
  rw [headsOf, if_pos ((startsDefinition_cons_cons t u tokens).2 ⟨ht, hu⟩), headsOf, if_neg hnot]

/-- Among tokens without `=` no definition starts, unless `=` comes next. -/
theorem not_startsDefinition_append {t : Token} {body behind : List Token}
    (h : .mark .equals ∉ symbolsOf (t :: body)) (hnext : headKind? behind ≠ some .equals) :
    ¬ startsDefinition (t :: (body ++ behind)) = true := by
  rw [symbolsOf_cons, List.mem_cons, not_or] at h
  have hkind : headKind? (body ++ behind) ≠ some .equals := by
    cases body with
    | nil => exact hnext
    | cons u body =>
      rw [symbolsOf_cons, List.mem_cons, not_or] at h
      intro hu
      have hu : u.kind = .equals := by simpa [headKind?] using hu
      exact h.2.1 ((Token.symbol_eq_mark_iff (by decide) (by decide)).2 hu).symm
  simp [startsDefinition, hkind]

/-- Tokens without `=` have no heads, unless `=` comes next. -/
theorem headsOf_append {body behind : List Token} (h : .mark .equals ∉ symbolsOf body)
    (hnext : headKind? behind ≠ some .equals) : headsOf (body ++ behind) = headsOf behind := by
  induction body with
  | nil => rfl
  | cons t body ih =>
    rw [List.cons_append, headsOf, if_neg (not_startsDefinition_append h hnext)]
    rw [symbolsOf_cons, List.mem_cons, not_or] at h
    exact ih h.2

theorem headsOf_shiftAll (distance : Nat) (tokens : List Token) :
    headsOf (shiftAll distance tokens) = shiftAll distance (headsOf tokens) := by
  induction tokens with
  | nil => rfl
  | cons t tokens ih =>
    have hstarts : startsDefinition (shiftAll distance (t :: tokens)) =
        startsDefinition (t :: tokens) := by
      cases tokens <;> rfl
    by_cases h : startsDefinition (t :: tokens) = true
    · rw [headsOf, if_pos h]
      exact (if_pos (hstarts.trans h)).trans (congrArg (t.shift distance :: ·) ih)
    · rw [headsOf, if_neg h]
      exact (if_neg (hstarts ▸ h)).trans ih

mutual

/-- There is no `=` in a phrase. -/
theorem Primary.equals_not_mem : ∀ p : Primary, .mark .equals ∉ p.symbols
  | .node _ => by simp [Primary.symbols]
  | .token _ => by simp [Primary.symbols]
  | .group body => by simp [Primary.symbols, Choice.equals_not_mem body]

theorem Atom.equals_not_mem : ∀ a : Atom, .mark .equals ∉ a.symbols
  | .labeled _ body => by simp [Atom.symbols, Atom.equals_not_mem body]
  | .bare operand => Primary.equals_not_mem operand
  | .opt operand => by simp [Atom.symbols, Primary.equals_not_mem operand]
  | .rep operand => by simp [Atom.symbols, Primary.equals_not_mem operand]

theorem Sequence.equals_not_mem : ∀ q : Sequence, .mark .equals ∉ q.symbols
  | .last atom => Atom.equals_not_mem atom
  | .more atom behind => by
    simp [Sequence.symbols, Atom.equals_not_mem atom, Sequence.equals_not_mem behind]

theorem Choice.equals_not_mem : ∀ c : Choice, .mark .equals ∉ c.symbols
  | .last sequence => Sequence.equals_not_mem sequence
  | .more sequence behind => by
    simp [Choice.symbols, Sequence.equals_not_mem sequence, Choice.equals_not_mem behind]

end

/-- The tokens of some definitions are none or start with a definition. -/
theorem Derivation.eq_nil_or_startsDefinition {D : Derivation} {tokens : List Token}
    (h : symbolsOf tokens = D.symbols) : tokens = [] ∨ startsDefinition tokens = true := by
  cases D with
  | nil => exact .inl (List.map_eq_nil_iff.1 h)
  | cons d D =>
    rw [Derivation.symbols_cons, Definition.symbols] at h
    obtain ⟨head, rest, rfl, hhead, hrest⟩ := symbolsOf_eq_cons_iff.1 h
    obtain ⟨equals, rest, rfl, hequals, -⟩ := symbolsOf_eq_cons_iff.1 hrest
    rw [Token.symbol_eq_mark_iff (by decide) (by decide)] at hequals
    exact .inr ((startsDefinition_cons_cons _ _ _).2
      ⟨(Token.symbol_eq_name_iff.1 hhead).1, hequals⟩)

theorem Derivation.headKind?_ne_equals {D : Derivation} {tokens : List Token}
    (h : symbolsOf tokens = D.symbols) : headKind? tokens ≠ some .equals := by
  rcases D.eq_nil_or_startsDefinition h with rfl | hstarts
  · simp [headKind?]
  · simp only [startsDefinition, Bool.and_eq_true, decide_eq_true_eq] at hstarts
    simp [hstarts.1]

/-- The tokens of some definitions are a head, `=`, a body and the other definitions. -/
theorem Derivation.exists_tokens {d : Definition} {D : Derivation} {tokens : List Token}
    (h : symbolsOf tokens = Derivation.symbols (d :: D)) :
    ∃ head equals body behind, tokens = head :: equals :: (body ++ behind) ∧
      head.kind = .name ∧ head.text = d.head ∧ equals.kind = .equals ∧
      symbolsOf body = d.body.symbols ∧ symbolsOf behind = D.symbols ∧
      headsOf tokens = head :: headsOf behind := by
  rw [Derivation.symbols_cons, Definition.symbols] at h
  obtain ⟨head, rest, rfl, hhead, hrest⟩ := symbolsOf_eq_cons_iff.1 h
  obtain ⟨equals, rest, rfl, hequals, hrest⟩ := symbolsOf_eq_cons_iff.1 hrest
  obtain ⟨body, behind, rfl, hbody, hbehind⟩ := List.map_eq_append_iff.1 hrest
  obtain ⟨hkind, htext⟩ := Token.symbol_eq_name_iff.1 hhead
  rw [Token.symbol_eq_mark_iff (by decide) (by decide)] at hequals
  refine ⟨head, equals, body, behind, rfl, hkind, htext, hequals, hbody, hbehind, ?_⟩
  have hnone : .mark .equals ∉ symbolsOf body := by
    rw [symbolsOf, hbody]
    exact d.body.equals_not_mem
  -- The body ends in front of a name or at the end, so its last token is no head.
  have hnext := headKind?_ne_equals hbehind
  rw [headsOf_head hkind hequals, headsOf_append hnone hnext]

/-- The heads among the tokens are those of the definitions. -/
theorem Derivation.map_text_headsOf {D : Derivation} {tokens : List Token}
    (h : symbolsOf tokens = D.symbols) :
    (headsOf tokens).map Token.text = D.map Definition.head := by
  induction D generalizing tokens with
  | nil =>
    obtain rfl : tokens = [] := List.map_eq_nil_iff.1 h
    rfl
  | cons d D ih =>
    obtain ⟨head, equals, body, behind, -, -, htext, -, -, hbehind, hheads⟩ := exists_tokens h
    rw [hheads, List.map_cons, List.map_cons, htext, ih hbehind]

/-- The first head with some property is behind definitions whose heads do not have it. -/
theorem Derivation.exists_before_head {D : Derivation} {tokens : List Token} {p : String → Bool}
    {head : Token} (h : symbolsOf tokens = D.symbols)
    (hfind : (headsOf tokens).find? (fun t => p t.text) = some head) :
    ∃ D₁ D₂ before equals behind, D = D₁ ++ D₂ ∧ tokens = before ++ head :: equals :: behind ∧
      symbolsOf before = D₁.symbols ∧ head.kind = .name ∧ equals.kind = .equals ∧
      ∀ d ∈ D₁, p d.head = false := by
  induction D generalizing tokens with
  | nil =>
    obtain rfl : tokens = [] := List.map_eq_nil_iff.1 h
    cases hfind
  | cons d D ih =>
    obtain ⟨t, equals, body, behind, htokens, hkind, htext, hequals, hbody, hbehind, hheads⟩ :=
      exists_tokens h
    rw [hheads, List.find?_cons] at hfind
    cases hp : p t.text with
    | true =>
      rw [hp] at hfind
      obtain rfl := Option.some.inj hfind
      exact ⟨[], d :: D, [], equals, body ++ behind, rfl, htokens, rfl, hkind, hequals, by simp⟩
    | false =>
      rw [hp] at hfind
      obtain ⟨D₁, D₂, before, equals', behind', rfl, rfl, hbefore, hkind', hequals', hnone⟩ :=
        ih hbehind hfind
      refine ⟨d :: D₁, D₂, t :: equals :: (body ++ before), equals', behind', rfl, ?_, ?_, hkind',
        hequals', List.forall_mem_cons.2 ⟨htext ▸ hp, hnone⟩⟩
      · rw [htokens]
        simp
      · have ht : t.symbol = .name d.head := Token.symbol_eq_name_iff.2 ⟨hkind, htext⟩
        have hu : equals.symbol = .mark .equals :=
          (Token.symbol_eq_mark_iff (by decide) (by decide)).2 hequals
        rw [symbolsOf_cons, symbolsOf_cons, symbolsOf_append, ht, hu, hbody, hbefore]
        rfl

/-! ### Second definitions -/

namespace Stepwise

/-- Where the tokens may end, a name and `=` start the next definition. -/
theorem run_head_of_finish {c : Config} {stop : Nat} {d : Draft} {head equals : Token}
    (h : finish c stop = .ok d) (hhead : head.kind = .name) (hequals : equals.kind = .equals) :
    run c [head, equals] = startBody head (d.internNode head.text head.span).1
      (d.internNode head.text head.span).2 := by
  have hname : head.kind ≠ .question ∧ head.kind ≠ .star ∧ head.kind ≠ .colon ∧
      head.kind ≠ .equals := by
    rw [hhead]
    decide
  have hrun : ∀ c', step c head = .ok c' → run c [head, equals] = step c' equals := by
    intro c' hstep
    rw [run_cons_of_ok hstep, run_cons]
    exact bind_pure _
  -- The name does not belong to the rule before it, which is complete.
  have hsettled : ∀ (f : Frame) (d' : Draft), f.finishSettled d' stop = .ok d →
      step c head = f.stepSettled d' head →
        run c [head, equals] = startBody head (d.internNode head.text head.span).1
          (d.internNode head.text head.span).2 := by
    intro f d' hfinish hstep
    rw [Frame.stepSettled_name hhead] at hstep
    unfold Frame.finishSettled at hfinish
    split at hfinish
    · cases hfinish
    · rename_i hneeds
      split at hfinish
      · rename_i houter
        obtain rfl := Except.ok.inj hfinish
        rw [hrun _ hstep, step_name, Frame.stepName_equals hequals,
          Frame.endBefore_complete (by simpa using hneeds) houter]
      · cases hfinish
  obtain ⟨stage, d'⟩ := c
  cases stage with
  | fresh =>
    obtain rfl := Except.ok.inj h
    have hstep : step ⟨.fresh, d'⟩ head = .ok ⟨.headed head (d'.internNode head.text head.span).1,
        (d'.internNode head.text head.span).2⟩ := if_pos hhead
    rw [hrun _ hstep]
    exact if_pos hequals
  | headed _ _ => cases h
  | body f last =>
    cases last with
    | settled => exact hsettled f d' h rfl
    | operand rule => exact hsettled _ d' h (Frame.stepOperand_other hname.1 hname.2.1)
    | name kept =>
      refine hsettled _ _ h ?_
      rw [step_name, Frame.stepName_other hname.2.2.1 hname.2.2.2,
        Frame.stepOperand_other hname.1 hname.2.1]

/-- A second definition of a name is refused at its head, whatever follows. -/
theorem ofTokens_second_definition {D : Derivation} {before : List Token} {head equals : Token}
    (hbefore : symbolsOf before = D.symbols)
    (hshallow : ∀ d ∈ D, d.body.nesting ≤ maxNesting)
    (hdistinct : (D.map Definition.head).Nodup) (hhead : head.kind = .name)
    (hequals : equals.kind = .equals) (hsecond : head.text ∈ D.map Definition.head)
    (behind : List Token) :
    Grammar.ofTokens (before ++ head :: equals :: behind) =
      .error (.duplicateNode head.text head.span) := by
  have hnodup : (([] ++ D.entries).map Prod.fst).Nodup := by
    rw [List.nil_append, D.map_fst_entries]
    exact hdistinct
  obtain ⟨s, hread⟩ :=
    ReadM.definitions_complete 0 Draft.holds_empty hbefore hshallow hnodup
  obtain ⟨-, -, hholds⟩ := ReadM.holds_of_definitions hbefore.symm hread
  -- The machine has read the same definitions, so that the head starts another one.
  have hverdict : (run .start before >>= fun c => finish c 0) = .ok s.draft := by
    rw [← verdict_definitions, hread]
    rfl
  obtain ⟨c, hrun, hfinish⟩ := except_bind_eq_ok_iff.1 hverdict
  have hdefined : (s.draft.internNode head.text head.span).2.isDefined head.text = true := by
    rw [(s.draft.grows_internNode head.text head.span).isDefined_eq, hholds.isDefined_iff,
      D.map_fst_entries]
    exact hsecond
  have herror : run .start (before ++ [head, equals]) =
      .error (.duplicateNode head.text head.span) := by
    rw [run_append_of_ok hrun, run_head_of_finish hfinish hhead hequals]
    exact if_pos hdefined
  have := Grammar.ofTokens_append_of_run herror behind
  rw [List.append_assoc] at this
  exact this

end Stepwise

end TreeGrammar
