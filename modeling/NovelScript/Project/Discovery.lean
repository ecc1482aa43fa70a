import NovelScript.Project.Config
import NovelScript.Project.Glob

/-!
# Finding scripts

The scripts of a project are the files that its configuration names, and in the directories that it
names everything at any depth whose name ends with one of the extensions. An extension is a pattern.
They are listed in the order of their names, directory by directory, and each of them once.
-/

namespace NovelScript

/-- Why scripts could not be looked for. -/
inductive DiscoveryFault where
  /-- An extension is no pattern. -/
  | extension (extension : List Char)
  /-- A path holds the null character. -/
  | path (p : Path)
  /-- The system takes no name that is as long as one to be looked for. -/
  | longName
  deriving DecidableEq, Repr

/-- What ends with the extension in a directory or below it. -/
def withExtension (files : FileTree) (directory : List (List Char)) (extension : List Char) :
    Except DiscoveryFault (List (List (List Char))) :=
  match Glob.parse? ('*' :: extension) with
  | none => .error (.extension extension)
  | some glob =>
    if glob.seeksLongName files directory then .error .longName
    else .ok (glob.selectBelow files directory)

/-- What one path of a project stands for: a file, or what is found in a directory. -/
def scriptsAt (files : FileTree) (extensions : List (List Char)) (base : Path) :
    Except DiscoveryFault (List (List (List Char))) :=
  if files.findsTooLong base base then .error .longName
  else match files.find? base.names with
  | none => .ok []
  | some (.file _) => .ok [base.names]
  | some .directory =>
    (extensions.mapM (withExtension files base.names)).map List.flatten

/-- Removes repetitions and sorts by names. -/
def inOrder (found : List (List (List Char))) : List (List (List Char)) :=
  found.eraseDups.mergeSort fun a b => !Path.precedes b a

/-- The scripts of a project, whose paths are read from the directory `root`. -/
def discover (files : FileTree) (root : Path) (scripts : ScriptPaths) :
    Except DiscoveryFault (List Path) := do
  let found ← scripts.paths.mapM fun p =>
    let path := Path.ofText p
    if path.holdsNull then throw (.path path)
    else scriptsAt files scripts.extensions (root.resolve path)
  return (inOrder found.flatten).map fun names => ⟨.absolute, names⟩

end NovelScript
