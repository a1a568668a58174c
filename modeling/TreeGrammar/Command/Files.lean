import TreeGrammar.Command.Reading

/-! # Files in memory

    A directory that is held in memory, to try the command on without the
    files of a system. It is one way to read a source; the command takes any
    (`Surroundings.read`).

    Key idea:
    - a path is a list of steps, each of which starts in a directory;
    - the working directory is all that there is, so no name is found above
      it.
-/

namespace TreeGrammar

/-- What a name in a directory stands for. -/
inductive FileEntry where
  | file (content : ByteArray)
  | directory

/-- The files and directories below the working directory, each by the names that lead to it. -/
structure FileTree where
  /-- The entries. A directory need not be listed if something in it is. -/
  entries : List (List String × FileEntry)

/-- Where a path has led to so far. -/
inductive FileTree.Place where
  /-- Above the working directory. -/
  | outside
  /-- At the end of some names below the working directory, the last one first. -/
  | inside (names : List String)
  deriving DecidableEq, Repr

namespace FileTree

/-- The names that a path consists of. An empty one stands between two slashes and behind the
    last one. -/
def steps (path : String) : List String :=
  (path.toList.splitOn '/').map String.ofList

/-- What lies at the end of some names below the working directory. -/
def entry? (t : FileTree) (names : List String) : Option FileEntry :=
  if names.isEmpty then some .directory
  else
    match t.entries.find? (·.1 = names) with
    | some (_, entry) => some entry
    | none => if t.entries.any fun (key, _) => names.isPrefixOf key then some .directory else none

/-- Takes one step of a path. -/
def step (t : FileTree) (place : Place) (name : String) : Except ReadFault Place :=
  match place with
  | .outside =>
    if name = "" || name = "." || name = ".." then .ok .outside else .error .notFound
  | .inside names =>
    match t.entry? names.reverse with
    | none => .error .notFound
    | some (.file _) => .error .notADirectory
    | some .directory =>
      if name = "" || name = "." then .ok place
      else if name = ".." then
        match names with
        | [] => .ok .outside
        | _ :: names => .ok (.inside names)
      -- The name has to exist now; whether it is a directory matters at the next step.
      else if (t.entry? (name :: names).reverse).isSome then .ok (.inside (name :: names))
      else .error .notFound

/-- Where a path leads to. -/
def resolve (t : FileTree) (path : String) : Except ReadFault Place :=
  if path = "" then .error .notFound
  else
    let start : Place := if path.toList.head? = some '/' then .outside else .inside []
    (steps path).foldlM t.step start

/-- The content of the file that a path leads to. -/
def read (t : FileTree) (path : String) : Except ReadFault ByteArray := do
  match ← t.resolve path with
  | .outside => throw .isADirectory
  | .inside names =>
    match t.entry? names.reverse with
    | some (.file content) => return content
    | some .directory => throw .isADirectory
    | none => throw .notFound

end FileTree

end TreeGrammar
