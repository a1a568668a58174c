import TreeGrammar.Source.Position
import TreeGrammar.Source.Span

/-! # Diagnostics

    A diagnostic tells a reader what is wrong with a file and where, in the
    form `path:line:column: message` with numbers that count from one.
-/

namespace TreeGrammar

/-- A message about a place in a file. -/
structure Diagnostic where
  /-- The file as the reader named it. -/
  path : String
  /-- The place in the file. -/
  position : Position
  /-- What is wrong there. -/
  message : String
  deriving DecidableEq, Repr

namespace Diagnostic

/-- The diagnostic for a span of a source, or for the end of the source when there is none. -/
def locate (path source : String) (span? : Option Span) (message : String) : Diagnostic :=
  let offset := (span?.map Span.start).getD (byteLength source.toList)
  ⟨path, positionIn source offset, message⟩

/-- The line that is shown to the reader. -/
def render (d : Diagnostic) : String :=
  s!"{d.path}:{d.position.line + 1}:{d.position.column + 1}: {d.message}"

end Diagnostic

end TreeGrammar
