import TreeGrammar.Proofs.Resumption

/-! # Errors come early and stay

    Tokens that some others could make a grammar are refused only for what is
    missing at their end. All other tokens are refused at the first one that
    no grammar can have there, whatever comes behind it.

    Key idea:
    - the machine never looks ahead, so an error of a step is there to stay
      (`ofTokens_append_of_run`);
    - every configuration that is reached can be completed
      (`completable_of_orderly`): a literal is always welcome as the next
      part, then the open parentheses are closed, and then every name that
      has no definition gets one;
    - for this the draft has to fit the definition that is being read
      (`Frame.Fits`), which every step preserves (`orderly_of_step`).
-/

namespace TreeGrammar

namespace SyntaxError

/-- Errors that more tokens could have prevented. -/
def isIncomplete : SyntaxError → Bool
  | .unexpectedEnd _ | .undefinedNode _ _ | .emptyRule _ _ => true
  | _ => false

/-- Errors that no more tokens can prevent. A rule can be empty at the end and before a name. -/
def isRefusal : SyntaxError → Bool
  | .unexpectedToken _ _ _ | .duplicateNode _ _ | .emptyRule _ _ | .nestingTooDeep _ => true
  | _ => false

/-- Whether a rule is empty. -/
def isEmptyRule : SyntaxError → Bool
  | .emptyRule _ _ => true
  | _ => false

end SyntaxError

namespace Stepwise

/-! ### Runs -/

section Run

variable {c c' : Config} {t : Token} {tokens : List Token} {e : SyntaxError}

theorem run_cons (c : Config) (t : Token) (tokens : List Token) :
    run c (t :: tokens) = (step c t >>= fun c' => run c' tokens) :=
  List.foldlM_cons

theorem run_append (c : Config) (tokens behind : List Token) :
    run c (tokens ++ behind) = (run c tokens >>= fun c' => run c' behind) :=
  List.foldlM_append

theorem run_cons_of_ok (h : step c t = .ok c') (tokens : List Token) :
    run c (t :: tokens) = run c' tokens := by
  rw [run_cons, h]
  rfl

theorem run_append_of_ok (h : run c tokens = .ok c') (behind : List Token) :
    run c (tokens ++ behind) = run c' behind := by
  rw [run_append, h]
  rfl

/-- A run that has failed stays where it is. -/
theorem run_append_of_error (h : run c tokens = .error e) (behind : List Token) :
    run c (tokens ++ behind) = .error e := by
  rw [run_append, h]
  rfl

/-- What every step preserves holds after a run. -/
theorem run_induction {motive : Config → Prop}
    (hstep : ∀ {c c' : Config} {t : Token}, motive c → step c t = .ok c' → motive c')
    (hc : motive c) (h : run c tokens = .ok c') : motive c' := by
  induction tokens generalizing c with
  | nil =>
    obtain rfl := Except.ok.inj h
    exact hc
  | cons t tokens ih =>
    rw [run_cons, except_bind_eq_ok_iff] at h
    obtain ⟨c₁, ht, hrest⟩ := h
    exact ih (hstep hc ht) hrest

/-- A run fails at the first token that is refused. -/
theorem exists_refused_of_run (h : run c tokens = .error e) :
    ∃ before t behind c', tokens = before ++ t :: behind ∧ run c before = .ok c' ∧
      step c' t = .error e := by
  induction tokens generalizing c with
  | nil => cases h
  | cons t tokens ih =>
    rw [run_cons, except_bind_eq_error_iff] at h
    rcases h with ht | ⟨c₁, ht, hrest⟩
    · exact ⟨[], t, tokens, c, rfl, rfl, ht⟩
    · obtain ⟨before, u, behind, c', rfl, hbefore, hu⟩ := ih hrest
      refine ⟨t :: before, u, behind, c', rfl, ?_, hu⟩
      rw [run_cons_of_ok ht, hbefore]

/-- The last token of a run is a step from where the others lead. -/
theorem exists_step_of_run (h : run c (tokens ++ [t]) = .ok c') :
    ∃ c₁, run c tokens = .ok c₁ ∧ step c₁ t = .ok c' := by
  rw [run_append, except_bind_eq_ok_iff] at h
  obtain ⟨c₁, hrun, hlast⟩ := h
  rw [run_cons, except_bind_eq_ok_iff] at hlast
  obtain ⟨c₂, ht, hnil⟩ := hlast
  exact ⟨c₁, hrun, ht.trans hnil⟩

/-- The name that is kept is the last token of the run. -/
theorem kept_of_run (h : run .start tokens = .ok c) {head : Token}
    (hkept : c.stage.kept? = some head) :
    head.kind = .name ∧ ∃ before, tokens = before ++ [head] := by
  rcases List.eq_nil_or_concat tokens with rfl | ⟨before, t, rfl⟩
  · obtain rfl := Except.ok.inj h
    simp [Config.start, Stage.kept?] at hkept
  · rw [List.concat_eq_append] at h ⊢
    obtain ⟨c₁, -, ht⟩ := exists_step_of_run h
    obtain ⟨rfl, hname⟩ := kept_of_step ht hkept
    exact ⟨hname, before, rfl⟩

end Run

/-! ### The draft fits the definition -/

/-- The node of a definition that is being read is in the draft, under the handle of the
    definition. -/
structure Frame.Fits (f : Frame) (d : Draft) : Prop where
  /-- No name is entered twice. -/
  nodup : d.names.Nodup
  /-- The name of the node is entered. -/
  entered : f.name ∈ d.names
  /-- The handle is the place of the name. -/
  handle : f.id = nodeHandle d.names f.name

/-- A node that was just entered fits. -/
theorem Frame.fits_internNode {d : Draft} (hnodup : d.names.Nodup) (name : String) (span : Span)
    (inner : OpenRule) (outer : List OpenRule) :
    Frame.Fits ⟨(d.internNode name span).1, name, inner, outer⟩ (d.internNode name span).2 := by
  refine ⟨?_, ?_, d.internNode_fst name span⟩
  · rw [(d.grows_internNode name span).names]
    exact nodup_seeAll hnodup _
  · rw [(d.grows_internNode name span).names]
    simp

/-- Entering names changes no handle. -/
theorem Frame.Fits.of_grows {f f' : Frame} {d d' : Draft} {nodes tokens : List String}
    (h : f.Fits d) (hgrows : d.Grows d' nodes tokens) (hid : f'.id = f.id)
    (hname : f'.name = f.name) : f'.Fits d' := by
  refine ⟨?_, ?_, ?_⟩
  · rw [hgrows.names]
    exact nodup_seeAll h.nodup nodes
  · rw [hname]
    exact hgrows.prefix_names.subset h.entered
  · rw [hid, hname, h.handle, nodeHandle_eq_of_isPrefix hgrows.prefix_names h.entered]

/-- What holds of every configuration that is reached: the draft fits, and the first definition is
    not given before its rule has come. -/
def Config.Orderly (c : Config) : Prop :=
  match c.stage with
  | .fresh => c.draft = {}
  | .headed head id =>
    Frame.Fits ⟨id, head.text, .start, []⟩ c.draft ∧ c.draft.isDefined head.text = false
  | .body f _ => f.Fits c.draft

theorem orderly_start : Config.start.Orderly := rfl

/-- Every step preserves the invariant. -/
theorem orderly_of_step {c c' : Config} {t : Token} (hc : c.Orderly) (h : step c t = .ok c') :
    c'.Orderly := by
  cases steps_of_step h with
  | head hname =>
    -- Nothing was read before, so the name cannot be defined.
    rename_i d
    obtain rfl : d = {} := hc
    have hnodup : Draft.names {} |>.Nodup := List.nodup_nil
    refine ⟨Frame.fits_internNode hnodup t.text t.span .start [], ?_⟩
    rw [(Draft.grows_internNode {} t.text t.span).isDefined_eq]
    rfl
  | equals hnew => exact hc.1
  | within hwithin =>
    obtain ⟨hid, hname, hgrows, -⟩ := hwithin
    exact Frame.Fits.of_grows hc hgrows hid hname
  | next hdefined =>
    -- Defining a node enters no name, and the next node is entered right behind.
    apply Frame.fits_internNode
    rw [hdefined, Draft.names_define]
    exact Frame.Fits.nodup hc

theorem orderly_of_run {c c' : Config} {tokens : List Token} (hc : c.Orderly)
    (h : run c tokens = .ok c') : c'.Orderly :=
  run_induction orderly_of_step hc h

/-! ### Completing what was read -/

/-- A name, as a token. -/
def nameToken (name : String) : Token :=
  ⟨.name, .point 0, some name⟩

/-- A token that spells nothing. -/
def plainToken (kind : TokenKind) : Token :=
  ⟨kind, .point 0, none⟩

@[simp] theorem kind_nameToken (name : String) : (nameToken name).kind = .name := rfl

@[simp] theorem text_nameToken (name : String) : (nameToken name).text = name := rfl

@[simp] theorem kind_plainToken (kind : TokenKind) : (plainToken kind).kind = kind := rfl

/-- Some tokens make a grammar of what was read. -/
def Completable (c : Config) : Prop :=
  ∃ behind c', run c behind = .ok c' ∧ ∀ stop, ∃ d g, finish c' stop = .ok d ∧ d.complete = .ok g

theorem Completable.of_run {c c' : Config} {tokens : List Token} (h : run c tokens = .ok c')
    (hcompletable : Completable c') : Completable c := by
  obtain ⟨behind, c'', hrun, hfinish⟩ := hcompletable
  exact ⟨tokens ++ behind, c'', by rw [run_append_of_ok h, hrun], hfinish⟩

theorem Completable.of_step {c c' : Config} {t : Token} (h : step c t = .ok c')
    (hcompletable : Completable c') : Completable c :=
  .of_run (run_cons_of_ok h []) hcompletable

section Complete

variable {f : Frame} {rule : HandleRule} {d : Draft}

/-- Where every other name is defined, nothing more has to come. -/
theorem completable_of_defined (hfits : f.Fits d) (houter : f.outer = [])
    (hdefined : ∀ name ∈ d.names, name ≠ f.name → d.isDefined name = true) :
    Completable ⟨.body f (.operand rule), d⟩ := by
  refine ⟨[], _, rfl, ?_⟩
  intro stop
  have hfinish : finish ⟨.body f (.operand rule), d⟩ stop =
      .ok (d.define f.id f.name (f.push rule).inner.close) := by
    show (f.push rule).finishSettled d stop = _
    rw [Frame.finishSettled, Frame.push, OpenRule.needsPart_push]
    simp only [houter]
    rfl
  have hall : ∀ name ∈ (d.define f.id f.name (f.push rule).inner.close).names,
      (d.define f.id f.name (f.push rule).inner.close).isDefined name = true := by
    intro name hname
    rw [Draft.names_define] at hname
    rw [hfits.handle, Draft.isDefined_define_iff hfits.nodup hfits.entered]
    by_cases heq : name = f.name
    · exact .inl heq
    · exact .inr (hdefined name hname heq)
  have hnodup : (d.define f.id f.name (f.push rule).inner.close).names.Nodup := by
    rw [Draft.names_define]
    exact hfits.nodup
  obtain ⟨g, hg⟩ := Draft.exists_complete_eq_ok hnodup hall
  exact ⟨_, g, hfinish, hg⟩

/-- Behind a complete rule, any name that has no definition can be given one. -/
theorem run_definition (rule : HandleRule) (hfits : f.Fits d) (houter : f.outer = [])
    {name : String} (hname : name ∈ d.names) (hne : name ≠ f.name)
    (hnew : d.isDefined name = false) :
    ∃ f' rule' d', run ⟨.body f (.operand rule), d⟩
        [nameToken name, plainToken .equals, plainToken .literal] =
          .ok ⟨.body f' (.operand rule'), d'⟩ ∧
      f'.name = name ∧ f'.outer = [] ∧ d'.names = d.names ∧
      ∀ other, d'.isDefined other = true ↔ other = f.name ∨ d.isDefined other = true := by
  -- The draft behind the definition, before the literal is entered.
  obtain ⟨d₁, hd₁⟩ : ∃ d₁, d₁ = d.define f.id f.name (f.push rule).inner.close :=
    ⟨_, rfl⟩
  have hnames : d₁.names = d.names := by
    rw [hd₁, Draft.names_define]
  have hdefined : ∀ other, d₁.isDefined other = true ↔
      other = f.name ∨ d.isDefined other = true := by
    intro other
    rw [hd₁, hfits.handle, Draft.isDefined_define_iff hfits.nodup hfits.entered]
  have hundefined : d₁.isDefined name = false := by
    rw [← Bool.not_eq_true, hdefined, hnew]
    simp [hne]
  have hintern : d₁.internNode name (.point 0) = (nodeHandle d₁.names name, d₁) :=
    Draft.internNode_of_mem (by rw [hnames]; exact hname) _
  obtain ⟨d₂, hd₂⟩ : ∃ d₂, d₂ = (d₁.internToken (plainToken .literal).text).2 := ⟨_, rfl⟩
  have hgrows : d₁.Grows d₂ [] [(plainToken .literal).text] := by
    rw [hd₂]
    exact d₁.grows_internToken _
  have hfirst : step ⟨.body f (.operand rule), d⟩ (nameToken name) =
      .ok ⟨.body (f.push rule) (.name (nameToken name)), d⟩ := by
    rw [step_operand, Frame.stepOperand_other (by simp) (by simp), Frame.stepSettled_name rfl]
  have hsecond : step ⟨.body (f.push rule) (.name (nameToken name)), d⟩ (plainToken .equals) =
      .ok ⟨.body ⟨nodeHandle d₁.names name, name, .start, []⟩ .settled, d₁⟩ := by
    rw [step_name, Frame.stepName_equals rfl,
      Frame.endBefore_complete (f := f.push rule) rfl houter]
    show startBody (nameToken name)
      ((d.define f.id f.name (f.push rule).inner.close).internNode name (.point 0)).1
        ((d.define f.id f.name (f.push rule).inner.close).internNode name (.point 0)).2 = _
    rw [← hd₁, hintern, startBody, text_nameToken, hundefined]
    rfl
  have hthird : step ⟨.body ⟨nodeHandle d₁.names name, name, .start, []⟩ .settled, d₁⟩
      (plainToken .literal) =
        .ok ⟨.body ⟨nodeHandle d₁.names name, name, .start, []⟩
          (.operand (.token (d₁.internToken (plainToken .literal).text).1)), d₂⟩ := by
    rw [step_settled, Frame.stepSettled_literal rfl, hd₂]
  refine ⟨_, _, d₂, (run_cons_of_ok hfirst _).trans ((run_cons_of_ok hsecond _).trans
    (run_cons_of_ok hthird [])), rfl, rfl, ?_, ?_⟩
  · rw [hgrows.names, hnames]
    rfl
  · intro other
    rw [hgrows.isDefined_eq, hdefined]

/-- One name after the other gets its definition. -/
theorem completable_of_undefined (names : List String)
    (horderly : Config.Orderly ⟨.body f (.operand rule), d⟩) (houter : f.outer = [])
    (hnames : ∀ name ∈ d.names, d.isDefined name = false → name = f.name ∨ name ∈ names) :
    Completable ⟨.body f (.operand rule), d⟩ := by
  induction names generalizing f rule d with
  | nil =>
    apply completable_of_defined horderly houter
    intro name hname hne
    rw [← Bool.not_eq_false]
    intro hundefined
    rcases hnames name hname hundefined with heq | hmem
    · exact hne heq
    · simp at hmem
  | cons name names ih =>
    by_cases hpending : name ∈ d.names ∧ name ≠ f.name ∧ d.isDefined name = false
    · obtain ⟨hmem, hne, hnew⟩ := hpending
      obtain ⟨f', rule', d', hrun, rfl, houter', hnames', hdefined⟩ :=
        run_definition rule horderly houter hmem hne hnew
      apply Completable.of_run hrun
      apply ih (orderly_of_run horderly hrun) houter'
      intro other hother hundefined
      rw [← Bool.not_eq_true, hdefined, not_or, Bool.not_eq_true] at hundefined
      rw [hnames'] at hother
      rcases hnames other hother hundefined.2 with heq | hcons
      · exact absurd heq hundefined.1
      · exact List.mem_cons.1 hcons
    · -- The name needs no definition, or it is the one that is being read.
      apply ih horderly houter
      intro other hother hundefined
      rcases hnames other hother hundefined with heq | hcons
      · exact .inl heq
      rcases List.mem_cons.1 hcons with rfl | htail
      · by_cases heq : other = f.name
        · exact .inl heq
        · exact absurd ⟨hother, heq, hundefined⟩ hpending
      · exact .inr htail

/-- The open parentheses can be closed behind a primary. -/
theorem completable_of_operand (horderly : Config.Orderly ⟨.body f (.operand rule), d⟩) :
    Completable ⟨.body f (.operand rule), d⟩ := by
  obtain ⟨id, name, inner, outer⟩ := f
  induction outer generalizing inner rule with
  | nil =>
    apply completable_of_undefined d.names horderly rfl
    intro name hname _
    exact .inr hname
  | cons o outer ih =>
    have hstep : step ⟨.body ⟨id, name, inner, o :: outer⟩ (.operand rule), d⟩
        (plainToken .closeParen) =
          .ok ⟨.body ⟨id, name, o, outer⟩ (.operand (inner.push rule).close), d⟩ := by
      rw [step_operand, Frame.stepOperand_other (by decide) (by decide),
        Frame.stepSettled_other (by decide) (by decide) (by decide)]
      rfl
    exact .of_step hstep (ih o (orderly_of_step horderly hstep))

/-- A literal may come wherever a rule is being read. -/
theorem exists_step_literal (f : Frame) (last : Last) (d : Draft) :
    ∃ f' rule d', step ⟨.body f last, d⟩ (plainToken .literal) =
      .ok ⟨.body f' (.operand rule), d'⟩ := by
  have hsettled : ∀ (f' : Frame) (d₁ : Draft), ∃ rule d', f'.stepSettled d₁ (plainToken .literal) =
      .ok ⟨.body f' (.operand rule), d'⟩ :=
    fun f' d₁ => ⟨_, _, Frame.stepSettled_literal rfl⟩
  cases last with
  | settled =>
    obtain ⟨rule', d', hstep⟩ := hsettled f d
    exact ⟨f, rule', d', by rw [step_settled, hstep]⟩
  | operand rule =>
    obtain ⟨rule', d', hstep⟩ := hsettled (f.push rule) d
    refine ⟨f.push rule, rule', d', ?_⟩
    rw [step_operand, Frame.stepOperand_other (by decide) (by decide), hstep]
  | name head =>
    obtain ⟨rule', d', hstep⟩ :=
      hsettled (f.push (.node (d.internNode head.text head.span).1))
        (d.internNode head.text head.span).2
    refine ⟨f.push (.node (d.internNode head.text head.span).1), rule', d', ?_⟩
    rw [step_name, Frame.stepName_other (by decide) (by decide),
      Frame.stepOperand_other (by decide) (by decide), hstep]

end Complete

/-- What was read without an error can be completed. -/
theorem completable_of_orderly {c : Config} (h : c.Orderly) : Completable c := by
  have hbody : ∀ (f : Frame) (last : Last) (d : Draft), Config.Orderly ⟨.body f last, d⟩ →
      Completable ⟨.body f last, d⟩ := by
    intro f last d hc
    obtain ⟨f', rule, d', hstep⟩ := exists_step_literal f last d
    exact .of_step hstep (completable_of_operand (orderly_of_step hc hstep))
  obtain ⟨stage, d⟩ := c
  cases stage with
  | fresh =>
    obtain rfl : d = {} := h
    exact ⟨[], _, rfl, fun stop => ⟨{}, _, rfl, rfl⟩⟩
  | headed head id =>
    have hstep : step ⟨.headed head id, d⟩ (plainToken .equals) =
        .ok ⟨.body ⟨id, head.text, .start, []⟩ .settled, d⟩ := by
      show startBody head id d = _
      rw [startBody, h.2]
      rfl
    exact .of_step hstep (hbody _ _ _ (orderly_of_step h hstep))
  | body f last => exact hbody f last d h

/-! ### Kinds of errors -/

/-- A definition that the tokens end in lacks its `=`, a rule or a parenthesis. -/
theorem missing_of_finish {c : Config} {stop : Nat} {e : SyntaxError}
    (h : finish c stop = .error e) :
    (∃ expected, e = .unexpectedEnd expected) ∨ ∃ node span, e = .emptyRule node span := by
  have hsettled : ∀ (f : Frame) (d : Draft), f.finishSettled d stop = .error e →
      (∃ expected, e = .unexpectedEnd expected) ∨ ∃ node span, e = .emptyRule node span := by
    intro f d hf
    unfold Frame.finishSettled at hf
    split at hf
    · exact .inr ⟨_, _, (Except.error.inj hf).symm⟩
    split at hf
    · cases hf
    · exact .inl ⟨_, (Except.error.inj hf).symm⟩
  obtain ⟨stage, d⟩ := c
  cases stage with
  | fresh => cases h
  | headed head id => exact .inl ⟨_, (Except.error.inj h).symm⟩
  | body f last =>
    cases last with
    | settled => exact hsettled _ _ h
    | name head => exact hsettled _ _ h
    | operand rule => exact hsettled _ _ h

/-- At the end of the tokens, something is missing. -/
theorem isIncomplete_of_finish {c : Config} {stop : Nat} {e : SyntaxError}
    (h : (finish c stop >>= Draft.complete) = .error e) : e.isIncomplete = true := by
  rw [except_bind_eq_error_iff] at h
  rcases h with hfinish | ⟨d, -, hcomplete⟩
  · rcases missing_of_finish hfinish with ⟨expected, rfl⟩ | ⟨node, span, rfl⟩ <;> rfl
  · obtain ⟨name, span, rfl⟩ := Draft.undefined_of_complete hcomplete
    rfl

theorem Refuses.isRefusal {kept? : Option Token} {t : Token} {e : SyntaxError}
    (h : Refuses kept? t e) : e.isRefusal = true := by
  cases h <;> rfl

/-- The error is at the token that is refused, or at the name before it, which `=` or `:` has
    settled. -/
theorem Refuses.place {kept? : Option Token} {t : Token} {e : SyntaxError}
    (h : Refuses kept? t e) :
    (e.isEmptyRule = false ∧ e.span? = some t.span) ∨
      (t.kind = .equals ∨ t.kind = .colon) ∧ ∃ head, kept? = some head ∧
        e.span? = some (if e.isEmptyRule then .point head.span.start else head.span) := by
  cases h with
  | token expected => exact .inl ⟨rfl, rfl⟩
  | group => exact .inl ⟨rfl, rfl⟩
  | label hkept hcolon => exact .inr ⟨.inr hcolon, _, hkept, rfl⟩
  | duplicate hkept hequals => exact .inr ⟨.inl hequals, _, hkept, rfl⟩
  | empty hkept hequals node => exact .inr ⟨.inl hequals, _, hkept, rfl⟩
  | unclosed hkept hequals expected => exact .inr ⟨.inl hequals, _, hkept, rfl⟩

end Stepwise

/-! ### Viable tokens -/

namespace Grammar

open Stepwise

/-- Tokens are viable if they can be continued to tokens that are accepted. -/
def Viable (tokens : List Token) : Prop :=
  ∃ behind g, ofTokens (tokens ++ behind) = .ok g

/-- The longest viable tokens that some tokens start with are so many. -/
structure LongestViable (tokens : List Token) (k : Nat) : Prop where
  /-- There are so many tokens. -/
  bounded : k ≤ tokens.length
  /-- The first `k` tokens are viable. -/
  viable : Viable (tokens.take k)
  /-- No more of them are. -/
  longest : ∀ k' ≤ tokens.length, Viable (tokens.take k') → k' ≤ k

/-- Tokens that were read without an error are viable. -/
theorem viable_of_run {tokens : List Token} {c : Config} (h : run .start tokens = .ok c) :
    Viable tokens := by
  obtain ⟨behind, c', hrun, hfinish⟩ := completable_of_orderly (orderly_of_run orderly_start h)
  obtain ⟨d, g, hd, hg⟩ := hfinish (stopOf (tokens ++ behind))
  refine ⟨behind, g, ?_⟩
  rw [ofTokens_eq_run, run_append_of_ok h, hrun]
  show (finish c' _ >>= Draft.complete) = _
  rw [hd]
  exact hg

/-- What a step refuses is refused with the same error whatever comes behind it. -/
theorem ofTokens_append_of_run {tokens : List Token} {e : SyntaxError}
    (h : run .start tokens = .error e) (behind : List Token) :
    ofTokens (tokens ++ behind) = .error e := by
  rw [ofTokens_eq_run, run_append_of_error h]
  rfl

theorem not_viable_of_run {tokens : List Token} {e : SyntaxError}
    (h : run .start tokens = .error e) : ¬ Viable tokens := by
  intro hviable
  obtain ⟨behind, g, hg⟩ := hviable
  rw [ofTokens_append_of_run h] at hg
  cases hg

/-- The tokens before the first one that is refused are the longest viable ones. -/
theorem longestViable_of_refused {before behind : List Token} {t : Token} {c : Config}
    {e : SyntaxError} (hbefore : run .start before = .ok c) (ht : step c t = .error e) :
    LongestViable (before ++ t :: behind) before.length := by
  refine ⟨by simp, ?_, ?_⟩
  · rw [List.take_left]
    exact viable_of_run hbefore
  · intro k' _ hviable
    rw [← Nat.not_lt]
    intro hlt
    -- One token more, and the refused one is among them.
    obtain ⟨j, rfl⟩ := Nat.exists_eq_add_of_lt hlt
    have htake : (before ++ t :: behind).take (before.length + j + 1) =
        (before ++ [t]) ++ behind.take j := by
      rw [Nat.add_assoc, List.take_length_add_append, List.take_succ_cons]
      simp
    have hrun : run .start (before ++ [t]) = .error e := by
      rw [run_append_of_ok hbefore, run_cons, ht]
      rfl
    rw [htake] at hviable
    exact not_viable_of_run (run_append_of_error hrun _) hviable

/-- Errors are as early as possible and stay. If tokens are not accepted, then either something is
    only missing at their end, or they are refused for good, with this error whatever comes
    behind them. In this case the error is at the first token behind the longest viable ones, or,
    if this is a `=` or `:` that has settled what the name before it is, at this name. -/
theorem errors_earliest_and_lasting {tokens : List Token} {e : SyntaxError}
    (h : ofTokens tokens = .error e) :
    (Viable tokens ∧ e.isIncomplete = true) ∨
    (¬ Viable tokens ∧ e.isRefusal = true ∧ (∀ behind, ofTokens (tokens ++ behind) = .error e) ∧
      ∃ k t, LongestViable tokens k ∧ tokens[k]? = some t ∧
        ((e.isEmptyRule = false ∧ e.span? = some t.span) ∨
          (t.kind = .equals ∨ t.kind = .colon) ∧ ∃ head, k ≠ 0 ∧ tokens[k - 1]? = some head ∧
            head.kind = .name ∧
            e.span? = some (if e.isEmptyRule then .point head.span.start else head.span))) := by
  rw [ofTokens_eq_run, except_bind_eq_error_iff] at h
  rcases h with hrun | ⟨c, hrun, hend⟩
  · -- A token is refused, and it is the first one behind viable tokens.
    obtain ⟨before, t, behind, c, rfl, hbefore, ht⟩ := exists_refused_of_run hrun
    have hrefuses := refuses_of_step ht
    refine .inr ⟨not_viable_of_run hrun, hrefuses.isRefusal, ofTokens_append_of_run hrun,
      before.length, t, longestViable_of_refused hbefore ht, by simp, ?_⟩
    rcases hrefuses.place with hhere | ⟨hkind, head, hkept, hspan⟩
    · exact .inl hhere
    · obtain ⟨hname, before, rfl⟩ := kept_of_run hbefore hkept
      exact .inr ⟨hkind, head, by simp, by simp, hname, hspan⟩
  · -- All tokens were read, so the end is to blame.
    exact .inl ⟨viable_of_run hrun, isIncomplete_of_finish hend⟩

/-- In `a = ( 'x' b =`, the second `=` settles that `b` is the head of a definition, so the
    parenthesis is not closed before it. -/
theorem unclosed_before_definition :
    let tokens : List Token := [⟨.name, .ofLength 0 1, some "a"⟩, ⟨.equals, .ofLength 2 1, none⟩,
      ⟨.openParen, .ofLength 4 1, none⟩, ⟨.literal, .ofLength 6 3, some "x"⟩,
      ⟨.name, .ofLength 10 1, some "b"⟩, ⟨.equals, .ofLength 12 1, none⟩]
    let e := SyntaxError.unexpectedToken (.token .closeParen) .name (.ofLength 10 1)
    ofTokens tokens = .error e ∧ ¬ Viable tokens ∧
      ∀ behind, ofTokens (tokens ++ behind) = .error e := by
  intro tokens e
  have herror : ofTokens tokens = .error e := by decide +kernel
  rcases errors_earliest_and_lasting herror with ⟨-, hincomplete⟩ | ⟨hviable, -, hlasting, -⟩
  · exact absurd hincomplete (by decide)
  · exact ⟨herror, hviable, hlasting⟩

end Grammar

end TreeGrammar
