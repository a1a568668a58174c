import TreeGrammar.Command.Run

/-! # The program

    The outermost layer: it reads the file that the options name, or the
    standard input, and writes what the command answers in these surroundings.
-/

namespace TreeGrammar

/-- The number that the system has for an error, which may come with its sign reversed. -/
def systemCode (code : UInt32) : Nat :=
  (min code (0 - code)).toNat

/-- What an error of the system means for reading a file. -/
def faultOf : IO.Error → ReadFault
  | .noFileOrDirectory .. => .notFound
  | .inappropriateType _ code details =>
    match systemCode code with
    | 20 => .notADirectory
    | 21 => .isADirectory
    | n => .other s!"{details} (os error {n})"
  | .permissionDenied _ code details => .other s!"{details} (os error {systemCode code})"
  | e => .other e.toString

/-- Reads the standard input to its end. -/
def readStdin : IO ByteArray := do
  let stream ← IO.getStdin
  let mut content := ByteArray.empty
  repeat
    let chunk ← stream.read 65536
    if chunk.isEmpty then break
    content := content ++ chunk
  return content

/-- The line of the log for an entry. -/
def entryLine (entry : LogEntry) : String :=
  s!"[{entry.level.tag}] {entry.message}\n"

/-- What is found where the source should be. -/
def readSource (path : String) : IO (Except ReadFault ByteArray) :=
  try
    if path = "-" then return .ok (← readStdin)
    else return .ok (← IO.FS.readBinFile path)
  catch e => return .error (faultOf e)

end TreeGrammar

open TreeGrammar in
/-- Runs the command and returns its exit status. -/
def main (args : List String) : IO UInt32 := do
  -- No other path than that of the options is read.
  let content ←
    match Options.ofArgs args with
    | .error _ => pure (.error .notFound)
    | .ok o => readSource o.path
  let outcome := Surroundings.run ⟨fun _ => content, ← IO.getEnv "RUST_LOG", entryLine⟩ args
  IO.print outcome.stdout
  IO.eprint outcome.stderr
  return outcome.code.toUInt32
