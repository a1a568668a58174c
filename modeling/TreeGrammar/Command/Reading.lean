/-! # Reading the source

    What may be found where the source of a grammar should be: bytes or a
    fault, and the text that the bytes are the UTF-8 form of.
-/

namespace TreeGrammar

/-- Why a source cannot be read as text. -/
inductive ReadFault where
  | notFound
  | notADirectory
  | isADirectory
  | notText
  | other (reason : String)
  deriving DecidableEq, Repr

/-- What is wrong with the source. -/
def ReadFault.message : ReadFault → String
  | .notFound => "No such file or directory (os error 2)"
  | .notADirectory => "Not a directory (os error 20)"
  | .isADirectory => "Is a directory (os error 21)"
  | .notText => "stream did not contain valid UTF-8"
  | .other reason => reason

/-- The text of what was found. -/
def textOf (content : Except ReadFault ByteArray) : Except ReadFault String := do
  match String.fromUTF8? (← content) with
  | some source => return source
  | none => throw .notText

end TreeGrammar
