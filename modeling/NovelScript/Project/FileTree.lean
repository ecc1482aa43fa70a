import NovelScript.Path
import NovelScript.Text.Quoted

/-!
# File trees

The files and directories that a command works on, as a table from names below the root. Every
directory that a path passes through is in the table.
-/

namespace NovelScript

/-- What stands at a path. -/
inductive FileEntry where
  | file (bytes : List UInt8)
  | directory
  deriving DecidableEq, Repr

/-- Why a file could not be read. -/
inductive AccessFault where
  | notFound
  | notDirectory
  | isDirectory
  | nameTooLong
  deriving DecidableEq, Repr

/-- The message for a path that could not be read. -/
def AccessFault.message (f : AccessFault) (p : Path) : String :=
  let reason := match f with
    | .notFound => "[Errno 2] No such file or directory"
    | .notDirectory => "[Errno 20] Not a directory"
    | .isDirectory => "[Errno 21] Is a directory"
    | .nameTooLong => "[Errno 36] File name too long"
  let path := String.ofList (Text.quoted p.text)
  s!"{reason}: {path}"

/-- How many bytes characters take in UTF-8. -/
def byteLength (cs : List Char) : Nat := cs.foldl (fun n c => n + c.utf8Size) 0

/-- Whether a name is longer than the names of files can be. -/
def isLongName (name : List Char) : Bool := 255 < byteLength name

/-- Whether a path is longer than the paths of files can be. -/
def Path.isLong (p : Path) : Bool := 4095 < byteLength p.text

/-- Files and directories by their names below the root. -/
structure FileTree where
  entries : List (List (List Char) × FileEntry)
  deriving DecidableEq, Repr

namespace FileTree

/-- The directories that the names pass through, from the root on. -/
def ancestors (names : List (List Char)) : List (List (List Char)) :=
  (List.range names.length).map names.take

/-- A tree with the given entries and all directories around them. -/
def ofEntries (entries : List (List (List Char) × FileEntry)) : FileTree :=
  let around := (entries.flatMap fun e => ancestors e.1).map fun names =>
    (names, FileEntry.directory)
  let addNew (known : List (List (List Char) × FileEntry)) (e : List (List Char) × FileEntry) :=
    if (known.lookup e.1).isSome then known else known ++ [e]
  ⟨(entries ++ around).foldl addNew []⟩

/-- What stands at the names below the root. -/
def find? (t : FileTree) (names : List (List Char)) : Option FileEntry := t.entries.lookup names

/-- Whether the names lead to a directory. -/
def isDirectory (t : FileTree) (names : List (List Char)) : Bool :=
  t.find? names = some .directory

/-- Follows names from a directory on, where `..` leads back to the directory around. -/
def follow (t : FileTree) : (names current : List (List Char)) →
    Except AccessFault (List (List Char))
  | [], current => .ok current
  | n :: names, current =>
    match t.find? current with
    | none => .error .notFound
    | some (.file _) => .error .notDirectory
    | some .directory =>
      if isLongName n then .error .nameTooLong
      else follow t names (if n = ['.', '.'] then current.dropLast else current ++ [n])

/-- What stands at a path that is read from the given directory. -/
def access (t : FileTree) (directory p : Path) : Except AccessFault FileEntry :=
  if p.isLong then .error .nameTooLong
  else
    match t.follow (directory.join p).names [] with
    | .error f => .error f
    | .ok names =>
      match t.find? names with
      | some entry => .ok entry
      | none => .error .notFound

/-- Whether nothing can be said of a path because it is too long, or a name on it. -/
def findsTooLong (t : FileTree) (directory p : Path) : Bool :=
  t.access directory p matches .error .nameTooLong

/-- The bytes of the file at a path that is read from the given directory. -/
def read (t : FileTree) (directory p : Path) : Except AccessFault (List UInt8) :=
  match t.access directory p with
  | .error f => .error f
  | .ok .directory => .error .isDirectory
  | .ok (.file bytes) => .ok bytes

end FileTree

end NovelScript
