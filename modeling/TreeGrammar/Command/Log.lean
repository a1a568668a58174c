import TreeGrammar.Grammar.Event

/-! # The log of a run

    What the command logs while it works, and how much of it is shown.

    Key idea:
    - a setting names a filter, in letters of any case (`LogFilter.ofName?`);
    - without a setting there is a filter all the same, and with one that
      names none nothing is shown (`LogFilter.ofSetting?`);
    - how an entry is written is up to the logger, which is not part of the
      command.
-/

namespace TreeGrammar

/-- How much of a log is shown. -/
inductive LogFilter where
  | off
  | error
  | warn
  | info
  | debug
  | trace
  deriving DecidableEq, Repr

namespace LogFilter

/-- The filter with a given name. -/
def ofName? (name : String) : Option LogFilter :=
  match name.toLower with
  | "off" => some .off
  | "error" => some .error
  | "warn" => some .warn
  | "info" => some .info
  | "debug" => some .debug
  | "trace" => some .trace
  | _ => none

/-- The filter that a setting asks for, if there is a setting. -/
def ofSetting? : Option String → Option LogFilter
  | none => some .warn
  | some name => ofName? name

/-- Whether what is logged at a level is shown. -/
def shows : LogFilter → LogLevel → Bool
  -- The command logs nothing that the filters from `off` to `info` let through.
  | .trace, _ => true
  | .debug, .debug => true
  | _, _ => false

end LogFilter

/-- What is said about a setting that names no filter. -/
def logNote : Option String → String
  | none => ""
  | some name =>
    match LogFilter.ofName? name with
    | some _ => ""
    | none =>
      s!"Invalid RUST_LOG level `{name}`: " ++
        "attempted to convert a string that doesn't match an existing log level\n"

/-- What the command logs. -/
inductive LogEntry where
  /-- The source was read, and has so many bytes. -/
  | sourceRead (bytes : Nat) (path : String)
  /-- A step of reading the grammar. -/
  | step (event : Event)
  deriving DecidableEq, Repr

namespace LogEntry

/-- The level at which an entry is logged. -/
def level : LogEntry → LogLevel
  | .sourceRead _ _ => .debug
  | .step event => event.level

/-- What an entry says. -/
def message : LogEntry → String
  | .sourceRead bytes path => s!"read {bytes} bytes from {path}"
  | .step event => event.message

end LogEntry

/-- What stands in the log of a run with a setting, where `write` is how the logger writes an
    entry. -/
def logText (setting? : Option String) (write : LogEntry → String) (entries : List LogEntry) :
    String :=
  match LogFilter.ofSetting? setting? with
  | none => ""
  | some filter => String.join ((entries.filter (filter.shows ·.level)).map write)

end TreeGrammar
