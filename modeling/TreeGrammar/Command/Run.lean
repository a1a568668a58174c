import TreeGrammar.Command.Files
import TreeGrammar.Command.Log
import TreeGrammar.Command.Options
import TreeGrammar.Grammar.Canonical
import TreeGrammar.Grammar.Export
import TreeGrammar.Grammar.Load
import TreeGrammar.Source.Diagnostic

/-! # Running the command

    The command reads a grammar and writes it in canonical form or as JSON.

    Key idea:
    - `Options.process` is the whole work on a source that could be read;
    - `Options.respond` adds the log of that work, and what is said about a
      source that could not be read;
    - `Surroundings.run` puts all together. What is found at a path and how a
      logger writes are not the command's own, so the surroundings tell them.
-/

namespace TreeGrammar

/-- What a run of the command leaves behind. -/
structure Outcome where
  /-- The exit status. -/
  code : Nat
  /-- What was written to the standard output. -/
  stdout : String
  /-- What was written to the standard error. -/
  stderr : String
  deriving DecidableEq, Repr

namespace Outcome

/-- A run that wrote some output and then failed with a message. -/
def failure (stdout message : String) : Outcome :=
  ⟨1, stdout, message ++ "\n"⟩

/-- A run that wrote some output and succeeded. -/
def success (stdout : String) : Outcome :=
  ⟨0, stdout, ""⟩

/-- A run that was preceded by a note on the standard error. -/
def notedBy (o : Outcome) (note : String) : Outcome :=
  { o with stderr := note ++ o.stderr }

end Outcome

/-- A list of tokens, one on each line. -/
def tokenListing (source : String) (tokens : List Token) : String :=
  String.join (tokens.map fun token => token.listing source ++ "\n")

namespace Options

/-- How strictly the source is to be scanned. -/
def strictness (o : Options) : Strictness :=
  if o.lenient then .lenient else .strict

/-- The form in which the grammar is written. -/
def output (o : Options) (g : Grammar) : String :=
  if o.quiet then ""
  else if o.json then g.exportText ++ "\n"
  else g.canonicalText

/-- The line about an error in the source. -/
def complaint (o : Options) (source : String) (e : LoadError) : String :=
  (Diagnostic.locate o.path source e.span? e.message).render

/-- The work on a source. The tokens are listed even if they make no grammar. -/
def process (o : Options) (source : String) : Outcome :=
  match tokensOf o.strictness source with
  | .error e => .failure "" (o.complaint source (.lexical e))
  | .ok tokens =>
    -- The tokens are written before they are read, so they stand even if that fails.
    let listing := if o.tokens then tokenListing source tokens else ""
    match Grammar.ofTokens tokens with
    | .error e => .failure listing (o.complaint source (.structural e))
    | .ok g => .success (listing ++ o.output g)

/-- How messages name the source. -/
def sourceName (o : Options) : String :=
  if o.path = "-" then "stdin" else s!"`{o.path}`"

/-- What is logged of the work on a source. -/
def logEntries (o : Options) (source : String) : List LogEntry :=
  .sourceRead (byteLength source.toList) o.path ::
    (Grammar.loadLogged o.strictness source).2.map .step

/-- The work on what was found where the source should be, with the log in front of what is said
    about errors. -/
def respond (o : Options) (log : List LogEntry → String) (content : Except ReadFault ByteArray) :
    Outcome :=
  match textOf content with
  | .ok source => (o.process source).notedBy (log (o.logEntries source))
  | .error fault => .failure "" s!"Failed to read {o.sourceName}: {fault.message}"

end Options

/-- What a run of the command meets around it. -/
structure Surroundings where
  /-- What is found at a path, or on the standard input for `-`. -/
  read : String → Except ReadFault ByteArray
  /-- The setting for the log, if there is one. -/
  logSetting? : Option String
  /-- How the logger writes an entry that is shown. -/
  writeEntry : LogEntry → String

/-- A run of the command with some arguments. -/
def Surroundings.run (w : Surroundings) (args : List String) : Outcome :=
  let outcome : Outcome :=
    match Options.ofArgs args with
    | .error e => .failure "" e.message
    | .ok o => o.respond (logText w.logSetting? w.writeEntry) (w.read o.path)
  outcome.notedBy (logNote w.logSetting?)

/-- A run on a directory in memory and a standard input, with a logger that writes nothing. -/
def run (files : FileTree) (stdin : ByteArray) (logSetting? : Option String) (args : List String) :
    Outcome :=
  let read (path : String) : Except ReadFault ByteArray :=
    if path = "-" then .ok stdin else files.read path
  Surroundings.run ⟨read, logSetting?, fun _ => ""⟩ args

end TreeGrammar
