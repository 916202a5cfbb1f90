import KeywordAudit.Text.Cut

/-!
# Files

A tree of files and directories.  It holds no links and no devices, so a file has one place: the
names on the way to it from the root.  The current directory and the directories above it exist.

A path is followed step by step, from the root or from the current directory.  Every step but the
last one leads to a directory, and two dots lead to the directory above, which for the root is the
root itself.  So all paths to a file end at its one place, however they are spelled.
-/

namespace KeywordAudit

/-- What a file holds. -/
inductive Content where
  | text (value : String)
  /-- Bytes that are no text. -/
  | binary (bytes : ByteArray)
deriving Inhabited

/-- The content of a file of the given bytes. -/
def Content.ofBytes (bytes : ByteArray) : Content :=
  match String.fromUTF8? bytes with
  | some s => .text s
  | none => .binary bytes

/-- What stands at a place of the tree. -/
inductive FileEntry where
  | file (content : Content)
  | directory
deriving Inhabited

/-- Why a file cannot be read or written. -/
inductive FileError where
  | notFound
  | notDirectory
  | isDirectory
  | notText
deriving DecidableEq, Repr, Inhabited

/-- The wording of the error. -/
def FileError.message : FileError → String
  | notFound => "No such file or directory (os error 2)"
  | notDirectory => "Not a directory (os error 20)"
  | isDirectory => "Is a directory (os error 21)"
  | notText => "stream did not contain valid UTF-8"

/-! ## Paths -/

/-- A place in the tree: the names on the way to it from the root. -/
abbrev Location := List String

/-- The steps of a path: what stands between its slashes. -/
def pathSteps (path : String) : List String :=
  (Text.pieces '/' path.toList).map String.ofList

/-- The part of a file name behind its last dot; a dot in front does not count. -/
def nameExtension (name : String) : String :=
  match Text.cutLast '.' name.toList with
  | some (before, after) => if before.isEmpty then "" else String.ofList after
  | none => ""

/-- The last name of a path, if it ends in one. -/
def fileName? (path : String) : Option String :=
  match ((pathSteps path).filter fun s => s ≠ "" ∧ s ≠ ".").getLast? with
  | some name => if name = ".." then none else some name
  | none => none

/-- The extension of the file that a path leads to. -/
def pathExtension (path : String) : String :=
  ((fileName? path).map nameExtension).getD ""

/-! ## Trees -/

/-- Files and directories. -/
structure FileTree where
  /-- What stands at which place; directories that hold something need not be listed. -/
  entries : List (Location × FileEntry) := []
  /-- The place of the current directory. -/
  current : Location := []
deriving Inhabited

namespace FileTree

/-- What stands at a place. -/
def entryAt? (tree : FileTree) (location : Location) : Option FileEntry :=
  if location.isPrefixOf tree.current then some .directory
  else match tree.entries.lookup location with
    | some entry => some entry
    | none =>
      if tree.entries.any fun e => location.isPrefixOf e.1 then some .directory else none

/-- The place where one step leads from a directory; above the root is the root. -/
def hop (location : Location) (step : String) : Location :=
  if step = "" || step = "." then location
  else if step = ".." then location.dropLast
  else location ++ [step]

/-- Makes sure that a place is a directory. -/
def expectDirectory (tree : FileTree) (location : Location) : Except FileError Unit :=
  match tree.entryAt? location with
  | some .directory => .ok ()
  | some (.file _) => .error .notDirectory
  | none => .error .notFound

/-- Follows steps from a directory; the place they lead to may be empty. -/
def walk (tree : FileTree) : (location : Location) → (steps : List String) →
    Except FileError Location
  | location, [] => .ok location
  | location, step :: steps => do
    tree.expectDirectory location
    tree.walk (hop location step) steps

/-- The place where a path begins, given the current directory, and its steps. -/
def start (current : Location) (path : String) : Location × List String :=
  match pathSteps path with
  | "" :: steps => ([], steps)
  | steps => (current, steps)

/-- The place that a path leads to, where something may stand or not. -/
def resolve (tree : FileTree) (path : String) : Except FileError Location :=
  if path = "" then .error .notFound
  else
    let (location, steps) := start tree.current path
    tree.walk location steps

/-- Finds what a path leads to. -/
def find (tree : FileTree) (path : String) : Except FileError FileEntry := do
  match tree.entryAt? (← tree.resolve path) with
  | some entry => .ok entry
  | none => .error .notFound

/-- Whether a path leads to something. -/
def pathExists (tree : FileTree) (path : String) : Bool :=
  match tree.find path with
  | .ok _ => true
  | .error _ => false

/-- Reads the text of a file. -/
def read (tree : FileTree) (path : String) : Except FileError String := do
  match ← tree.find path with
  | .file (.text s) => .ok s
  | .file (.binary _) => .error .notText
  | .directory => .error .isDirectory

/-- The place that a path names for writing: its directory exists, and it is no directory
itself.  A path that ends in a slash names a directory. -/
def target (tree : FileTree) (path : String) : Except FileError Location := do
  if path = "" then .error .notFound
  else
    let (location, steps) := start tree.current path
    let named := (steps.reverse.dropWhile (· = "")).reverse
    let directory ← tree.walk location named.dropLast
    tree.expectDirectory directory
    match named.getLast? with
    | none => .error .isDirectory
    | some name =>
      if named.length < steps.length || name = "." || name = ".." then .error .isDirectory
      else match tree.entryAt? (directory ++ [name]) with
        | some .directory => .error .isDirectory
        | _ => .ok (directory ++ [name])

/-- The tree with an entry at a place, instead of what stands there. -/
def insert (tree : FileTree) (location : Location) (entry : FileEntry) : FileTree :=
  { tree with entries := (location, entry) :: tree.entries.filter fun e => e.1 ≠ location }

/-- Writes a text into a file, which is made if it does not exist. -/
def write (tree : FileTree) (path text : String) : Except FileError FileTree := do
  let location ← tree.target path
  return tree.insert location (.file (.text text))

/-- The place that the steps of a path name, whatever stands on the way. -/
def locate (current : Location) (path : String) : Location :=
  let (location, steps) := start current path
  steps.foldl hop location

/-- The tree of entries that are listed by their paths, seen from a current directory. -/
def ofList (current : Location) (entries : List (String × FileEntry)) : FileTree :=
  entries.foldl (fun tree (path, entry) => tree.insert (locate current path) entry)
    { current := current }

end FileTree
end KeywordAudit
