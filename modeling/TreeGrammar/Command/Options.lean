/-! # Command line options

    The command takes one file and any of four flags, in any order and any
    number of times.
-/

namespace TreeGrammar

/-- What the command is asked to do. -/
structure Options where
  /-- The file to read, `-` for the standard input. -/
  path : String
  /-- List the tokens first. -/
  tokens : Bool
  /-- Write the grammar as JSON, not as text. -/
  json : Bool
  /-- Go on with the tokens before a fault. -/
  lenient : Bool
  /-- Do not write the grammar. -/
  quiet : Bool
  deriving DecidableEq, Repr

/-- Why arguments are refused. -/
inductive UsageError where
  | unknownFlag (flag : String)
  | noFile
  | severalFiles
  deriving DecidableEq, Repr

/-- What is wrong with the arguments. -/
def UsageError.message : UsageError → String
  | .unknownFlag flag => s!"Unknown flag `{flag}`"
  | .noFile => "No file provided"
  | .severalFiles => "Only one file may be provided"

namespace Options

/-- The flags that the command knows. -/
def flags : List String :=
  ["--tokens", "--json", "--lenient", "--quiet"]

/-- Whether an argument is meant as a flag. A single hyphen is a file. -/
def looksLikeFlag (arg : String) : Bool :=
  match arg.toList with
  | '-' :: _ :: _ => true
  | _ => false

/-- The options that arguments stand for. An unknown flag is a graver fault than a wrong number
    of files, and the first one is reported. -/
def ofArgs (args : List String) : Except UsageError Options :=
  match args.find? fun arg => looksLikeFlag arg && !flags.contains arg with
  | some flag => .error (.unknownFlag flag)
  | none =>
    match args.filter (!looksLikeFlag ·) with
    | [] => .error .noFile
    | [path] =>
      .ok {
        path
        tokens := args.contains "--tokens"
        json := args.contains "--json"
        lenient := args.contains "--lenient"
        quiet := args.contains "--quiet" }
    | _ => .error .severalFiles

end Options

end TreeGrammar
