import TreeGrammar.Proofs.Building
import TreeGrammar.Proofs.Unambiguous
import TreeGrammar.Proofs.Descent

/-! # What was read is derivable

    Whenever a reader succeeds, there is a phrase with the symbols that it has
    consumed, and what it returns is the tree of that phrase.

    Key idea:
    - `Reads` ties a step of reading to symbols and trees; steps are put
      together with `Reads.append`;
    - the readers of sequences and choices are sound if the reader of atoms
      is (`sequence_sound`, `rule_sound`), and the reader of atoms is by
      induction on the room for nesting (`atom?_sound`);
    - as a phrase has a symbol at least, readers advance (`advances_atom?`).
-/

namespace TreeGrammar

/-! ### Steps of reading -/

/-- Reading has consumed some symbols and built rules of some trees. -/
structure Reads (symbols : List Symbol) (trees : List NamedRule) (s : ReadState)
    (rules : List HandleRule) (s' : ReadState) : Prop where
  /-- The symbols were the first ones. -/
  consumed : symbolsOf s.rest = symbols ++ symbolsOf s'.rest
  /-- The rules are those of the trees. -/
  built : s.draft.Builds trees rules s'.draft

theorem Reads.nil (s : ReadState) : Reads [] [] s [] s :=
  ⟨rfl, .nil s.draft⟩

theorem Reads.append {symbols symbols' : List Symbol} {trees trees' : List NamedRule}
    {s s' s'' : ReadState} {rules rules' : List HandleRule}
    (h : Reads symbols trees s rules s') (h' : Reads symbols' trees' s' rules' s'') :
    Reads (symbols ++ symbols') (trees ++ trees') s (rules ++ rules') s'' :=
  ⟨by rw [h.consumed, h'.consumed, List.append_assoc], h.built.append h'.built⟩

/-- Symbols that build nothing may be consumed before a step. -/
theorem Reads.after {symbols : List Symbol} {trees : List NamedRule} {s s' : ReadState}
    {rules : List HandleRule} (h : Reads symbols trees s rules s') {tokens : List Token}
    {skipped : List Symbol} (hskipped : symbolsOf tokens = skipped ++ symbolsOf s.rest) :
    Reads (skipped ++ symbols) trees ⟨tokens, s.draft⟩ rules s' :=
  ⟨by rw [hskipped, h.consumed, List.append_assoc], h.built⟩

/-- Symbols that build nothing may be consumed behind a step. -/
theorem Reads.before {symbols : List Symbol} {trees : List NamedRule} {s s' : ReadState}
    {rules : List HandleRule} (h : Reads symbols trees s rules s') {rest : List Token}
    {skipped : List Symbol} (hskipped : symbolsOf s'.rest = skipped ++ symbolsOf rest) :
    Reads (symbols ++ skipped) trees s rules ⟨rest, s'.draft⟩ :=
  ⟨by rw [h.consumed, hskipped, List.append_assoc], h.built⟩

/-- A step that has consumed a symbol has made the rest shorter. -/
theorem Reads.length_lt {symbols : List Symbol} {trees : List NamedRule} {s s' : ReadState}
    {rules : List HandleRule} (h : Reads symbols trees s rules s') (hne : symbols ≠ []) :
    s'.rest.length < s.rest.length := by
  have hlength := congrArg List.length h.consumed
  have hpos := List.length_pos_iff.2 hne
  simp only [symbolsOf, List.length_map, List.length_append] at hlength
  omega

namespace ReadM

/-! ### Repetition -/

/-- Items that were read one after the other are phrases one after the other. -/
theorem manyWithin_sound {π : Type} {symbols : π → List Symbol} {tree : π → NamedRule}
    (fits : π → Prop) {item? : ReadM (Option HandleRule)}
    (hitem : ∀ {s rule s'}, item? s = .ok (some rule) s' →
      ∃ p, fits p ∧ Reads (symbols p) [tree p] s [rule] s')
    (hnone : ∀ {s s'}, item? s = .ok none s' → s' = s)
    {bound : List Token} {items rules : List HandleRule} {s s' : ReadState}
    (h : manyWithin item? bound items s = .ok rules s') :
    ∃ (more : List HandleRule) (ps : List π), rules = items.reverse ++ more ∧ (∀ p ∈ ps, fits p) ∧
      Reads (ps.flatMap symbols) (ps.map tree) s more s' := by
  -- By induction on the bound, of which every item takes one token.
  induction bound generalizing items s with
  | nil =>
    simp only [manyWithin, pure_apply, EStateM.Result.ok.injEq] at h
    obtain ⟨rfl, rfl⟩ := h
    exact ⟨[], [], by simp, by simp, .nil s⟩
  | cons t bound ih =>
    rw [manyWithin, bind_eq_ok_iff] at h
    obtain ⟨item, t, hread, h⟩ := h
    cases item with
    | none =>
      simp only [pure_apply, EStateM.Result.ok.injEq] at h
      obtain ⟨rfl, rfl⟩ := h
      obtain rfl := hnone hread
      exact ⟨[], [], by simp, by simp, .nil t⟩
    | some rule =>
      obtain ⟨p, hfits, hp⟩ := hitem hread
      obtain ⟨more, ps, rfl, hps, hmore⟩ := ih h
      refine ⟨rule :: more, p :: ps, by simp, ?_, ?_⟩
      · exact List.forall_mem_cons.2 ⟨hfits, hps⟩
      · simpa using hp.append hmore

/-! ### Sequences and choices -/

/-- A reader of atoms is sound if what it reads are atoms with so much room for nesting. -/
structure SoundAtoms (atom? : ReadM (Option HandleRule)) (room : Nat) : Prop where
  /-- What was read is an atom. -/
  sound : ∀ {s rule s'}, atom? s = .ok (some rule) s' →
    ∃ a : Atom, a.nesting ≤ room ∧ Reads a.symbols [a.tree] s [rule] s'
  /-- Where there is no atom, nothing happens. -/
  unchanged : ∀ {s s'}, atom? s = .ok none s' → s' = s

section Sound

variable {scope : Scope} {atom? : ReadM (Option HandleRule)} {room : Nat} {s s' : ReadState}
  {r : HandleRule}

theorem required_eq_ok_iff :
    required scope atom? s = .ok r s' ↔ atom? s = .ok (some r) s' := by
  rw [required, bind_eq_ok_iff]
  constructor
  · intro h
    obtain ⟨item, t, hread, h⟩ := h
    cases item with
    | none => simp at h
    | some rule =>
      simp only [pure_apply, EStateM.Result.ok.injEq] at h
      obtain ⟨rfl, rfl⟩ := h
      exact hread
  · intro h
    exact ⟨some r, s', h, rfl⟩

theorem sequence_sound (hatom : SoundAtoms atom? room) (h : sequence scope atom? s = .ok r s') :
    ∃ q : Sequence, q.nesting ≤ room ∧ Reads q.symbols [q.tree] s [r] s' := by
  rw [sequence, bind_eq_ok_iff] at h
  obtain ⟨first, t, hfirst, h⟩ := h
  rw [bind_eq_ok_iff] at h
  obtain ⟨others, u, hothers, h⟩ := h
  simp only [pure_apply, EStateM.Result.ok.injEq] at h
  obtain ⟨rfl, rfl⟩ := h
  obtain ⟨a, ha, hreads⟩ := hatom.sound (required_eq_ok_iff.1 hfirst)
  obtain ⟨more, atoms, rfl, hatoms, hmore⟩ :=
    manyWithin_sound (fun a : Atom => a.nesting ≤ room) hatom.sound hatom.unchanged hothers
  refine ⟨.ofAtoms a atoms, Sequence.nesting_ofAtoms_le ha hatoms, ?_⟩
  rw [Sequence.symbols_ofAtoms, Sequence.tree_ofAtoms]
  exact ⟨(hreads.append hmore).consumed, (hreads.append hmore).built.ofSeq⟩

theorem alternative?_sound (hatom : SoundAtoms atom? room)
    (h : alternative? scope atom? s = .ok (some r) s') :
    ∃ q : Sequence, q.nesting ≤ room ∧ Reads (.mark .bar :: q.symbols) [q.tree] s [r] s' := by
  obtain ⟨rest, draft⟩ := s
  unfold alternative? at h
  split at h
  case isTrue hbar =>
    rw [map_eq_ok_iff] at h
    obtain ⟨rule, hrule, hsome⟩ := h
    obtain rfl := Option.some.inj hsome
    obtain ⟨q, hq, hreads⟩ := sequence_sound hatom hrule
    refine ⟨q, hq, ?_⟩
    cases rest with
    | nil => simp [headKind?] at hbar
    | cons t rest =>
      simp only [headKind?, List.head?_cons, Option.map_some, Option.some.injEq] at hbar
      exact hreads.after (symbolsOf_cons_mark (by decide) (by decide) hbar rest)
  case isFalse => simp at h

theorem alternative?_unchanged (h : alternative? scope atom? s = .ok none s') : s' = s := by
  unfold alternative? at h
  split at h
  · rw [map_eq_ok_iff] at h
    obtain ⟨_, _, hsome⟩ := h
    simp at hsome
  · simpa [eq_comm] using h

theorem rule_sound (hatom : SoundAtoms atom? room) (h : rule scope atom? s = .ok r s') :
    ∃ c : Choice, c.nesting ≤ room ∧ Reads c.symbols [c.tree] s [r] s' := by
  rw [rule, bind_eq_ok_iff] at h
  obtain ⟨first, t, hfirst, h⟩ := h
  rw [bind_eq_ok_iff] at h
  obtain ⟨others, u, hothers, h⟩ := h
  simp only [pure_apply, EStateM.Result.ok.injEq] at h
  obtain ⟨rfl, rfl⟩ := h
  obtain ⟨q, hq, hreads⟩ := sequence_sound hatom hfirst
  obtain ⟨more, sequences, rfl, hsequences, hmore⟩ :=
    manyWithin_sound (fun q : Sequence => q.nesting ≤ room) (alternative?_sound hatom)
      alternative?_unchanged hothers
  refine ⟨.ofSequences q sequences, Choice.nesting_ofSequences_le hq hsequences, ?_⟩
  rw [Choice.symbols_ofSequences, Choice.tree_ofSequences]
  exact ⟨(hreads.append hmore).consumed, (hreads.append hmore).built.ofAlt⟩

/-! ### Atoms -/

/-- The symbols of the start of an atom. -/
def headSymbols : AtomHead → List Symbol
  | .label name _ => [.name name, .mark .colon]
  | .node name _ => [.name name]
  | .token name => [.literal name]
  | .group _ => [.mark .openParen]

/-- The start of an atom is what the tokens start with. -/
theorem symbolsOf_of_read? {tokens rest : List Token} {head : AtomHead}
    (h : AtomHead.read? tokens = some (head, rest)) :
    symbolsOf tokens = headSymbols head ++ symbolsOf rest := by
  cases tokens with
  | nil => simp [AtomHead.read?] at h
  | cons t tokens =>
    simp only [AtomHead.read?] at h
    split at h
    case h_1 hname =>
      split at h
      · simp at h
      · cases tokens with
        | nil => simp_all [headKind?]
        | cons u tokens =>
          simp only [headKind?, List.head?_cons, Option.map_some, Option.some.injEq,
            List.tail_cons, Prod.mk.injEq] at *
          obtain ⟨rfl, rfl⟩ := h
          simp_all [headSymbols, Token.symbol_eq_mark_iff]
      · simp only [Option.some.injEq, Prod.mk.injEq] at h
        obtain ⟨rfl, rfl⟩ := h
        simp [headSymbols, hname]
    case h_2 hliteral =>
      simp only [Option.some.injEq, Prod.mk.injEq] at h
      obtain ⟨rfl, rfl⟩ := h
      simp [headSymbols, hliteral]
    case h_3 hparen =>
      simp only [Option.some.injEq, Prod.mk.injEq] at h
      obtain ⟨rfl, rfl⟩ := h
      simp [headSymbols, (Token.symbol_eq_mark_iff (by decide) (by decide)).2 hparen]
    case h_4 => simp at h

/-- The mark behind a primary, if there is one, makes an atom of it. -/
theorem quantified_sound {p : Primary} {rule : HandleRule} {t : ReadState}
    (hreads : Reads p.symbols [p.tree] s [rule] t) (h : quantified rule t = .ok r s') :
    ∃ a : Atom, a.nesting = p.nesting ∧ Reads a.symbols [a.tree] s [r] s' := by
  obtain ⟨rest, draft⟩ := t
  rw [quantified_apply, EStateM.Result.ok.injEq] at h
  obtain ⟨rfl, rfl⟩ := h
  cases rest with
  | nil => exact ⟨.bare p, rfl, hreads⟩
  | cons u rest =>
    by_cases hquestion : u.kind = .question
    · have hskip := symbolsOf_cons_mark (by decide) (by decide) hquestion rest
      rw [quantify_question rule hquestion]
      exact ⟨.opt p, rfl, (hreads.before hskip).consumed, hreads.built.opt⟩
    · by_cases hstar : u.kind = .star
      · have hskip := symbolsOf_cons_mark (by decide) (by decide) hstar rest
        rw [quantify_star rule hstar]
        exact ⟨.rep p, rfl, (hreads.before hskip).consumed, hreads.built.rep⟩
      · -- The token behind the primary is not consumed.
        have hquantify : quantify rule (u :: rest) = (rule, u :: rest) :=
          quantify_other rule (by simpa [headKind?] using hquestion)
            (by simpa [headKind?] using hstar)
        rw [hquantify]
        exact ⟨.bare p, rfl, hreads⟩

theorem enter_eq_ok_iff {inner? : Option (ReadM (Option HandleRule))} {span : Span}
    {inner : ReadM (Option HandleRule)} :
    enter inner? span s = .ok inner s' ↔ inner? = some inner ∧ s' = s := by
  cases inner? <;> simp [enter, eq_comm]

/-- What is behind the start of an atom completes the atom. -/
theorem atomBehind_sound {inner? : Option (ReadM (Option HandleRule))}
    (hinner : ∀ inner, inner? = some inner → ∃ room', room = room' + 1 ∧ SoundAtoms inner room')
    {head : AtomHead} {tokens : List Token}
    (hhead : symbolsOf tokens = headSymbols head ++ symbolsOf s.rest)
    (h : atomBehind scope inner? head s = .ok r s') :
    ∃ a : Atom, a.nesting ≤ room ∧ Reads a.symbols [a.tree] ⟨tokens, s.draft⟩ [r] s' := by
  cases head with
  | node name span =>
    rw [atomBehind, bind_eq_ok_iff] at h
    obtain ⟨id, t, hintern, h⟩ := h
    obtain ⟨rfl, rfl⟩ := EStateM.Result.ok.inj hintern
    have hprimary : Reads (Primary.node name).symbols [(Primary.node name).tree]
        ⟨tokens, s.draft⟩ [_] ⟨s.rest, (s.draft.internNode name span).2⟩ :=
      ⟨hhead, .node s.draft name span⟩
    obtain ⟨a, ha, hreads⟩ := quantified_sound hprimary h
    exact ⟨a, ha.symm ▸ Nat.zero_le _, hreads⟩
  | token name =>
    rw [atomBehind, bind_eq_ok_iff] at h
    obtain ⟨id, t, hintern, h⟩ := h
    obtain ⟨rfl, rfl⟩ := EStateM.Result.ok.inj hintern
    have hprimary : Reads (Primary.token name).symbols [(Primary.token name).tree]
        ⟨tokens, s.draft⟩ [_] ⟨s.rest, (s.draft.internToken name).2⟩ :=
      ⟨hhead, .token s.draft name⟩
    obtain ⟨a, ha, hreads⟩ := quantified_sound hprimary h
    exact ⟨a, ha.symm ▸ Nat.zero_le _, hreads⟩
  | label name span =>
    rw [atomBehind, bind_eq_ok_iff] at h
    obtain ⟨inner, t, henter, h⟩ := h
    obtain ⟨hsome, rfl⟩ := enter_eq_ok_iff.1 henter
    obtain ⟨room', rfl, hsound⟩ := hinner inner hsome
    rw [bind_eq_ok_iff] at h
    obtain ⟨body, u, hbody, h⟩ := h
    simp only [pure_apply, EStateM.Result.ok.injEq] at h
    obtain ⟨rfl, rfl⟩ := h
    obtain ⟨a, ha, hreads⟩ := hsound.sound (required_eq_ok_iff.1 hbody)
    exact ⟨.labeled name a, Nat.succ_le_succ ha, (hreads.after hhead).consumed,
      hreads.built.labeled name⟩
  | group span =>
    rw [atomBehind, bind_eq_ok_iff] at h
    obtain ⟨inner, t, henter, h⟩ := h
    obtain ⟨hsome, rfl⟩ := enter_eq_ok_iff.1 henter
    obtain ⟨room', rfl, hsound⟩ := hinner inner hsome
    rw [bind_eq_ok_iff] at h
    obtain ⟨body, u, hbody, h⟩ := h
    rw [bind_eq_ok_iff] at h
    obtain ⟨close, v, hclose, h⟩ := h
    obtain ⟨c, hc, hreads⟩ := rule_sound hsound hbody
    obtain ⟨hrest, hkind, hdraft⟩ := expect_eq_ok_iff.1 hclose
    -- The closing parenthesis belongs to the primary, and a mark may follow it.
    have hskip : symbolsOf u.rest = [.mark .closeParen] ++ symbolsOf v.rest := by
      rw [hrest]
      exact symbolsOf_cons_mark (by decide) (by decide) hkind v.rest
    have hprimary : Reads (Primary.group c).symbols [(Primary.group c).tree]
        ⟨tokens, t.draft⟩ [body] v := by
      have := (hreads.before hskip).after hhead
      rw [← hdraft] at this
      exact this
    obtain ⟨a, ha, hreads⟩ := quantified_sound hprimary h
    exact ⟨a, ha.symm ▸ Nat.succ_le_succ hc, hreads⟩

theorem atomAround_sound {inner? : Option (ReadM (Option HandleRule))}
    (hinner : ∀ inner, inner? = some inner →
      ∃ room', room = room' + 1 ∧ SoundAtoms inner room') :
    SoundAtoms (atomAround scope inner?) room := by
  constructor
  · intro s rule s' h
    unfold atomAround at h
    split at h
    · simp at h
    · rename_i head rest hread
      obtain ⟨rule', hrule, hsome⟩ := map_eq_ok_iff.1 h
      obtain rfl := Option.some.inj hsome
      exact atomBehind_sound (s := ⟨rest, s.draft⟩) hinner (symbolsOf_of_read? hread) hrule
  · intro s s' h
    unfold atomAround at h
    split at h
    · simpa [eq_comm] using h
    · obtain ⟨_, _, hsome⟩ := map_eq_ok_iff.1 h
      simp at hsome

end Sound

/-- Reading atoms is sound with any room for nesting. -/
theorem atom?_sound (scope : Scope) (room : Nat) : SoundAtoms (atom? scope room) room := by
  induction room with
  | zero => exact atomAround_sound (by simp)
  | succ room ih =>
    apply atomAround_sound
    intro inner hinner
    obtain rfl := Option.some.inj hinner
    exact ⟨room, rfl, ih⟩

/-! ### Progress -/

/-- The reader of atoms takes a token with every atom. -/
theorem advances_atom? (scope : Scope) (room : Nat) : Advances (atom? scope room) where
  shorter h := by
    obtain ⟨a, -, hreads⟩ := (atom?_sound scope room).sound h
    obtain ⟨symbol, symbols, hsymbols, -⟩ := a.exists_symbols_eq_cons
    exact hreads.length_lt (by simp [hsymbols])
  unchanged h := (atom?_sound scope room).unchanged h
  atEnd d := atom?_nil scope room d

/-- The reader of alternatives takes a token with every alternative. -/
theorem advances_alternative? (scope : Scope) (room : Nat) :
    Advances (alternative? scope (atom? scope room)) where
  shorter h := by
    obtain ⟨q, -, hreads⟩ := alternative?_sound (atom?_sound scope room) h
    exact hreads.length_lt (by simp)
  unchanged h := alternative?_unchanged h
  atEnd d := rfl

end ReadM

end TreeGrammar
