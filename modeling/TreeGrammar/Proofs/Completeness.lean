import TreeGrammar.Proofs.Soundness

/-! # What is derivable is read

    A reader that stands in front of the symbols of a phrase takes these
    symbols and no more, provided that what is behind them does not prolong
    the phrase and that there is room for its nesting.

    Key idea:
    - `Takes` speaks of symbols only: what is built is known from soundness
      and need not be followed here;
    - composed readers take what their parts take (`Takes.bind`,
      `takes_many_cons`);
    - the phrases are settled together, by recursion over them
      (`takes_choice` and its companions).
-/

namespace TreeGrammar

theorem symbolsOf_eq_cons_iff {tokens : List Token} {symbol : Symbol} {symbols : List Symbol} :
    symbolsOf tokens = symbol :: symbols ↔
      ∃ t rest, tokens = t :: rest ∧ t.symbol = symbol ∧ symbolsOf rest = symbols :=
  List.map_eq_cons_iff

/-- Looking at the first token is looking at the first symbol. -/
theorem headKind?_eq_some_iff {tokens : List Token} {kind : TokenKind} (hname : kind ≠ .name)
    (hliteral : kind ≠ .literal) :
    headKind? tokens = some kind ↔ (symbolsOf tokens).head? = some (.mark kind) := by
  cases tokens with
  | nil => simp [headKind?]
  | cons t tokens => simp [headKind?, Token.symbol_eq_mark_iff hname hliteral]

theorem headKind?_ne_some {tokens : List Token} {kind : TokenKind} (hname : kind ≠ .name)
    (hliteral : kind ≠ .literal) {symbols : List Symbol} (htokens : symbolsOf tokens = symbols)
    (h : symbols.head? ≠ some (.mark kind)) : headKind? tokens ≠ some kind := by
  rw [ne_eq, headKind?_eq_some_iff hname hliteral, htokens]
  exact h

namespace ReadM

/-! ### Taking symbols -/

section Takes

variable {α β : Type} {symbols symbols' behind : List Symbol}

/-- A reader takes some symbols in front of others, whatever the tokens and the draft are. -/
def Takes (reader : ReadM α) (symbols behind : List Symbol) : Prop :=
  ∀ tokens d, symbolsOf tokens = symbols ++ behind →
    ∃ a rest d', reader ⟨tokens, d⟩ = .ok a ⟨rest, d'⟩ ∧ symbolsOf rest = behind

/-- A reader of optional items finds an item and takes its symbols. -/
def TakesItem (item? : ReadM (Option α)) (symbols behind : List Symbol) : Prop :=
  ∀ tokens d, symbolsOf tokens = symbols ++ behind →
    ∃ a rest d', item? ⟨tokens, d⟩ = .ok (some a) ⟨rest, d'⟩ ∧ symbolsOf rest = behind

/-- A reader of optional items finds none in front of some symbols. -/
def Declines (item? : ReadM (Option α)) (behind : List Symbol) : Prop :=
  ∀ tokens d, symbolsOf tokens = behind → item? ⟨tokens, d⟩ = .ok none ⟨tokens, d⟩

theorem takes_pure (a : α) (behind : List Symbol) : Takes (pure a : ReadM α) [] behind := by
  intro tokens d htokens
  exact ⟨a, tokens, d, rfl, htokens⟩

/-- One after the other, readers take what they take each. -/
theorem Takes.bind {x : ReadM α} {f : α → ReadM β} (hx : Takes x symbols (symbols' ++ behind))
    (hf : ∀ a, Takes (f a) symbols' behind) : Takes (x >>= f) (symbols ++ symbols') behind := by
  intro tokens d htokens
  rw [List.append_assoc] at htokens
  obtain ⟨a, rest, d', hread, hrest⟩ := hx tokens d htokens
  obtain ⟨b, rest', d'', hread', hrest'⟩ := hf a rest d' hrest
  exact ⟨b, rest', d'', bind_eq_ok_iff.2 ⟨a, ⟨rest, d'⟩, hread, hread'⟩, hrest'⟩

theorem Takes.bindItem {x : ReadM α} {f : α → ReadM (Option β)}
    (hx : Takes x symbols (symbols' ++ behind)) (hf : ∀ a, TakesItem (f a) symbols' behind) :
    TakesItem (x >>= f) (symbols ++ symbols') behind := by
  intro tokens d htokens
  rw [List.append_assoc] at htokens
  obtain ⟨a, rest, d', hread, hrest⟩ := hx tokens d htokens
  obtain ⟨b, rest', d'', hread', hrest'⟩ := hf a rest d' hrest
  exact ⟨b, rest', d'', bind_eq_ok_iff.2 ⟨a, ⟨rest, d'⟩, hread, hread'⟩, hrest'⟩

theorem Takes.mapSome {x : ReadM α} (h : Takes x symbols behind) :
    TakesItem (some <$> x) symbols behind := by
  intro tokens d htokens
  obtain ⟨a, rest, d', hread, hrest⟩ := h tokens d htokens
  exact ⟨a, rest, d', map_eq_ok_iff.2 ⟨a, hread, rfl⟩, hrest⟩

theorem takes_expect {kind : TokenKind} (hname : kind ≠ .name) (hliteral : kind ≠ .literal)
    (behind : List Symbol) : Takes (expect kind) [.mark kind] behind := by
  intro tokens d htokens
  obtain ⟨t, rest, rfl, ht, hrest⟩ := symbolsOf_eq_cons_iff.1 htokens
  rw [Token.symbol_eq_mark_iff hname hliteral] at ht
  exact ⟨t, rest, d, expect_eq_ok_iff.2 ⟨rfl, ht, rfl⟩, hrest⟩

/-! ### Repetition -/

/-- A repetition ends where there is no item. -/
theorem takes_many_nil {item? : ReadM (Option α)} (h : Advances item?)
    (hnone : Declines item? behind) : Takes (many item?) [] behind := by
  intro tokens d htokens
  refine ⟨[], tokens, d, ?_, htokens⟩
  rw [many_apply h, hnone tokens d htokens]

/-- A repetition takes an item and the items behind it. -/
theorem takes_many_cons {item? : ReadM (Option α)} (h : Advances item?)
    (hitem : TakesItem item? symbols (symbols' ++ behind))
    (hmore : Takes (many item?) symbols' behind) :
    Takes (many item?) (symbols ++ symbols') behind := by
  intro tokens d htokens
  rw [List.append_assoc] at htokens
  obtain ⟨a, rest, d', hread, hrest⟩ := hitem tokens d htokens
  obtain ⟨more, rest', d'', hread', hrest'⟩ := hmore rest d' hrest
  refine ⟨a :: more, rest', d'', ?_, hrest'⟩
  rw [many_apply h, hread]
  exact map_eq_ok_iff.2 ⟨more, hread', rfl⟩

end Takes

/-! ### Parts of phrases -/

section Parts

variable {scope : Scope} {atom? : ReadM (Option HandleRule)} {symbols symbols' behind : List Symbol}

theorem TakesItem.required (h : TakesItem atom? symbols behind) :
    Takes (required scope atom?) symbols behind := by
  intro tokens d htokens
  obtain ⟨rule, rest, d', hread, hrest⟩ := h tokens d htokens
  exact ⟨rule, rest, d', required_eq_ok_iff.2 hread, hrest⟩

/-- A sequence takes its first atom and the atoms behind it. -/
theorem takes_sequence (hfirst : TakesItem atom? symbols (symbols' ++ behind))
    (hothers : Takes (many atom?) symbols' behind) :
    Takes (sequence scope atom?) (symbols ++ symbols') behind := by
  apply hfirst.required.bind
  intro first
  have := hothers.bind (f := fun others => pure (Rule.ofSeq (first :: others)))
    fun others => takes_pure _ behind
  rwa [List.append_nil] at this

/-- A choice takes its first sequence and the sequences behind it. -/
theorem takes_rule (hfirst : Takes (sequence scope atom?) symbols (symbols' ++ behind))
    (hothers : Takes (many (alternative? scope atom?)) symbols' behind) :
    Takes (rule scope atom?) (symbols ++ symbols') behind := by
  apply hfirst.bind
  intro first
  have := hothers.bind (f := fun others => pure (Rule.ofAlt (first :: others)))
    fun others => takes_pure _ behind
  rwa [List.append_nil] at this

theorem takesItem_alternative? (h : Takes (sequence scope atom?) symbols behind) :
    TakesItem (alternative? scope atom?) (.mark .bar :: symbols) behind := by
  intro tokens d htokens
  obtain ⟨t, rest, rfl, ht, hrest⟩ := symbolsOf_eq_cons_iff.1 htokens
  rw [Token.symbol_eq_mark_iff (by decide) (by decide)] at ht
  have hbar : headKind? (t :: rest) = some .bar := by simp [headKind?, ht]
  obtain ⟨rule, rest', d', hread, hrest'⟩ := h.mapSome rest d hrest
  refine ⟨rule, rest', d', ?_, hrest'⟩
  rw [alternative?, if_pos hbar]
  exact hread

theorem declines_alternative? (h : behind.head? ≠ some (.mark .bar)) :
    Declines (alternative? scope atom?) behind := by
  intro tokens d htokens
  have hbar := headKind?_ne_some (by decide) (by decide) htokens h
  rw [alternative?, if_neg hbar]

/-- Nothing is taken behind a primary if neither `?` nor `*` is there. -/
theorem takes_quantified_bare (rule : HandleRule) (h : EndsAtom behind) :
    Takes (quantified rule) [] behind := by
  intro tokens d htokens
  rw [List.nil_append] at htokens
  have hquestion := headKind?_ne_some (by decide) (by decide) htokens h.noQuestion
  have hstar := headKind?_ne_some (by decide) (by decide) htokens h.noStar
  refine ⟨rule, tokens, d, ?_, htokens⟩
  rw [quantified_apply, quantify_other rule hquestion hstar]

theorem takes_quantified_opt (rule : HandleRule) (behind : List Symbol) :
    Takes (quantified rule) [.mark .question] behind := by
  intro tokens d htokens
  obtain ⟨t, rest, rfl, ht, hrest⟩ := symbolsOf_eq_cons_iff.1 htokens
  rw [Token.symbol_eq_mark_iff (by decide) (by decide)] at ht
  refine ⟨.opt rule, rest, d, ?_, hrest⟩
  rw [quantified_apply, quantify_question rule ht]

theorem takes_quantified_rep (rule : HandleRule) (behind : List Symbol) :
    Takes (quantified rule) [.mark .star] behind := by
  intro tokens d htokens
  obtain ⟨t, rest, rfl, ht, hrest⟩ := symbolsOf_eq_cons_iff.1 htokens
  rw [Token.symbol_eq_mark_iff (by decide) (by decide)] at ht
  refine ⟨.rep rule, rest, d, ?_, hrest⟩
  rw [quantified_apply, quantify_star rule ht]

end Parts

/-- There is no atom where none starts. -/
theorem declines_atom? (scope : Scope) (room : Nat) {behind : List Symbol}
    (h : startsAtom behind = false) : Declines (atom? scope room) behind := by
  rintro tokens d rfl
  cases tokens with
  | nil => exact atom?_nil scope room d
  | cons t rest =>
    by_cases hname : t.kind = .name
    · -- A name starts no atom only if `=` is behind it.
      have hsymbol : t.symbol = .name t.text := Token.symbol_eq_name_iff.2 ⟨hname, rfl⟩
      rw [symbolsOf_cons, hsymbol, startsAtom_name_eq_false_iff,
        ← headKind?_eq_some_iff (by decide) (by decide)] at h
      cases rest with
      | nil => simp [headKind?] at h
      | cons u rest => exact atom?_definition scope room d hname (by simpa [headKind?] using h)
    · have hliteral : t.kind ≠ .literal := by
        intro hliteral
        simp [Token.symbol, hliteral, startsAtom, Symbol.opens] at h
      have hparen : t.kind ≠ .openParen := by
        intro hparen
        simp [Token.symbol, hparen, startsAtom, Symbol.opens] at h
      exact atom?_other scope room d hname hliteral hparen

/-! ### Phrases

    The atoms of a sequence and the sequences of a choice are read in two
    ways, the first one by itself and the others in a repetition. -/

mutual

/-- A primary is read together with what makes an atom of it. -/
theorem takes_primary (scope : Scope) : ∀ (p : Primary) {room : Nat} {mark behind : List Symbol},
    p.nesting ≤ room → (∀ rule, Takes (quantified rule) mark behind) →
      (mark ++ behind).head? ≠ some (.mark .equals) →
      (mark ++ behind).head? ≠ some (.mark .colon) →
        TakesItem (atom? scope room) (p.symbols ++ mark) behind
  | .node name, room, mark, behind, _, hmark, hequals, hcolon => by
    intro tokens d htokens
    obtain ⟨t, rest, rfl, ht, hrest⟩ := symbolsOf_eq_cons_iff.1 htokens
    obtain ⟨hkind, -⟩ := Token.symbol_eq_name_iff.1 ht
    -- The token behind the name makes neither a label nor a definition of it.
    have hequals' := headKind?_ne_some (by decide) (by decide) hrest hequals
    have hcolon' := headKind?_ne_some (by decide) (by decide) hrest hcolon
    rw [atom?_reference scope room d hkind hequals' hcolon']
    exact (hmark _).mapSome rest _ hrest
  | .token text, room, mark, behind, _, hmark, _, _ => by
    intro tokens d htokens
    obtain ⟨t, rest, rfl, ht, hrest⟩ := symbolsOf_eq_cons_iff.1 htokens
    obtain ⟨hkind, -⟩ := Token.symbol_eq_literal_iff.1 ht
    rw [atom?_literal scope room d hkind]
    exact (hmark _).mapSome rest _ hrest
  | .group body, 0, mark, behind, hroom, _, _, _ => absurd hroom (Nat.not_succ_le_zero _)
  | .group body, room + 1, mark, behind, hroom, hmark, _, _ => by
    intro tokens d htokens
    obtain ⟨t, rest, rfl, ht, hrest⟩ := symbolsOf_eq_cons_iff.1 htokens
    rw [Token.symbol_eq_mark_iff (by decide) (by decide)] at ht
    rw [atom?_group scope room d ht]
    -- Inside the parentheses one place less is left, and the nesting of the body is one less.
    have hbody : Takes (rule scope (atom? scope room)) body.symbols
        ([.mark .closeParen] ++ mark ++ behind) :=
      takes_choice scope body (Nat.le_of_succ_le_succ hroom) (endsChoice_closeParen _)
    have hclose : ∀ rule, TakesItem (expect .closeParen >>= fun _ => some <$> quantified rule)
        ([.mark .closeParen] ++ mark) behind := fun rule =>
      (takes_expect (by decide) (by decide) _).bindItem fun _ => (hmark rule).mapSome
    apply hbody.bindItem hclose rest d
    rw [hrest]
    simp

theorem takes_atom (scope : Scope) : ∀ (a : Atom) {room : Nat} {behind : List Symbol},
    a.nesting ≤ room → EndsAtom behind → TakesItem (atom? scope room) a.symbols behind
  | .labeled label body, 0, behind, hroom, _ => absurd hroom (Nat.not_succ_le_zero _)
  | .labeled label body, room + 1, behind, hroom, hend => by
    intro tokens d htokens
    obtain ⟨t, rest, rfl, ht, hrest⟩ := symbolsOf_eq_cons_iff.1 htokens
    obtain ⟨u, rest, rfl, hu, hrest⟩ := symbolsOf_eq_cons_iff.1 hrest
    obtain ⟨hkind, -⟩ := Token.symbol_eq_name_iff.1 ht
    rw [Token.symbol_eq_mark_iff (by decide) (by decide)] at hu
    rw [atom?_label scope room d hkind hu]
    have hbody := takes_atom scope body (Nat.le_of_succ_le_succ hroom) hend
    obtain ⟨rule, rest', d', hread, hrest'⟩ := hbody rest d hrest
    exact ⟨.labeled t.text rule, rest', d',
      bind_eq_ok_iff.2 ⟨rule, ⟨rest', d'⟩, required_eq_ok_iff.2 hread, rfl⟩, hrest'⟩
  | .bare operand, room, behind, hroom, hend => by
    have := takes_primary scope operand hroom
      (fun rule => takes_quantified_bare rule hend) hend.noEquals hend.noColon
    rwa [List.append_nil] at this
  | .opt operand, room, behind, hroom, hend =>
    takes_primary scope operand hroom (fun rule => takes_quantified_opt rule behind)
      (by simp) (by simp)
  | .rep operand, room, behind, hroom, hend =>
    takes_primary scope operand hroom (fun rule => takes_quantified_rep rule behind)
      (by simp) (by simp)

theorem takes_atoms (scope : Scope) : ∀ (q : Sequence) {room : Nat} {behind : List Symbol},
    q.nesting ≤ room → EndsSequence behind → Takes (many (atom? scope room)) q.symbols behind
  | .last a, room, behind, hroom, hend => by
    have hnil := takes_many_nil (advances_atom? scope room) (declines_atom? scope room hend.noAtom)
    have h : Takes (many (atom? scope room)) (a.symbols ++ []) behind :=
      takes_many_cons (advances_atom? scope room) (takes_atom scope a hroom hend.toEndsAtom) hnil
    rwa [List.append_nil] at h
  | .more a q, room, behind, hroom, hend => by
    obtain ⟨ha, hq⟩ := Nat.max_le.1 hroom
    exact takes_many_cons (advances_atom? scope room)
      (takes_atom scope a ha (q.endsAtom_append behind)) (takes_atoms scope q hq hend)

theorem takes_sequence_of_atoms (scope : Scope) :
    ∀ (q : Sequence) {room : Nat} {behind : List Symbol}, q.nesting ≤ room →
      EndsSequence behind → Takes (sequence scope (atom? scope room)) q.symbols behind
  | .last a, room, behind, hroom, hend => by
    have hnil := takes_many_nil (advances_atom? scope room) (declines_atom? scope room hend.noAtom)
    have h : Takes (sequence scope (atom? scope room)) (a.symbols ++ []) behind :=
      takes_sequence (takes_atom scope a hroom hend.toEndsAtom) hnil
    rwa [List.append_nil] at h
  | .more a q, room, behind, hroom, hend => by
    obtain ⟨ha, hq⟩ := Nat.max_le.1 hroom
    exact takes_sequence (takes_atom scope a ha (q.endsAtom_append behind))
      (takes_atoms scope q hq hend)

theorem takes_alternatives (scope : Scope) : ∀ (c : Choice) {room : Nat} {behind : List Symbol},
    c.nesting ≤ room → EndsChoice behind →
      Takes (many (alternative? scope (atom? scope room))) (.mark .bar :: c.symbols) behind
  | .last q, room, behind, hroom, hend => by
    have hsequence := takes_sequence_of_atoms scope q hroom hend.toEndsSequence
    have hnil := takes_many_nil (advances_alternative? scope room)
      (declines_alternative? hend.noBar)
    have h : Takes (many (alternative? scope (atom? scope room)))
        (.mark .bar :: q.symbols ++ []) behind :=
      takes_many_cons (advances_alternative? scope room) (takesItem_alternative? hsequence) hnil
    rwa [List.append_nil] at h
  | .more q c, room, behind, hroom, hend => by
    obtain ⟨hq, hc⟩ := Nat.max_le.1 hroom
    exact takes_many_cons (advances_alternative? scope room)
      (takesItem_alternative? (takes_sequence_of_atoms scope q hq (endsSequence_bar _)))
      (takes_alternatives scope c hc hend)

theorem takes_choice (scope : Scope) : ∀ (c : Choice) {room : Nat} {behind : List Symbol},
    c.nesting ≤ room → EndsChoice behind →
      Takes (rule scope (atom? scope room)) c.symbols behind
  | .last q, room, behind, hroom, hend => by
    have hsequence := takes_sequence_of_atoms scope q hroom hend.toEndsSequence
    have hnil := takes_many_nil (advances_alternative? scope room)
      (declines_alternative? hend.noBar)
    have h : Takes (rule scope (atom? scope room)) (q.symbols ++ []) behind :=
      takes_rule hsequence hnil
    rwa [List.append_nil] at h
  | .more q c, room, behind, hroom, hend => by
    obtain ⟨hq, hc⟩ := Nat.max_le.1 hroom
    exact takes_rule (takes_sequence_of_atoms scope q hq (endsSequence_bar _))
      (takes_alternatives scope c hc hend)

end

end ReadM

end TreeGrammar
