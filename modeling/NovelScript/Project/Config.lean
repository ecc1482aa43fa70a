import NovelScript.Layout.Offside
import NovelScript.Project.FileTree
import NovelScript.Text.Utf8
import NovelScript.Toml.Document

/-!
# Configuration

A project is configured by a TOML file with a section on the layout of scripts and one on where
scripts are found. Keys that are missing have defaults, and so has a file that is missing.
-/

namespace NovelScript

/-- Where the scripts of a project are: files and directories, and the ends of the names that count
within directories. -/
structure ScriptPaths where
  paths : List (List Char) := ["game/".toList]
  extensions : List (List Char) := [".rpy".toList]
  deriving DecidableEq, Repr

/-- The configuration of a project. Paths are read from the directory of the file. -/
structure Config where
  layout : LayoutRules := {}
  scripts : ScriptPaths := {}
  directory : Path
  deriving DecidableEq, Repr

/-- The name under which a configuration is looked for. -/
def Config.fileName : String := "renparse.toml"

/-- What a setting has to be. -/
inductive SettingType where
  | integer
  | boolean
  | texts
  deriving DecidableEq, Repr

/-- A type of settings in words. -/
def SettingType.phrase : SettingType → String
  | integer => "int"
  | boolean => "bool"
  | texts => "a list of strings"

/-- Why a configuration is refused. -/
inductive ConfigFault where
  | unreadable (cause : AccessFault)
  /-- The system takes no name that is as long as one of the path. -/
  | longName
  /-- The file is no TOML. -/
  | malformed
  /-- The file holds an integer that is too long to be read. -/
  | longInteger
  | notUtf8
  /-- A section is something other than a table. -/
  | notTable (name : String)
  | wrongType (key : String) (type : SettingType) (got : Toml.Value)
  | narrowTab (width : Int)

/-- The message for a file that is refused, for the faults that have one. There is none if it had to
show an integer that is too long to be written. -/
def ConfigFault.message? (path : Path) : ConfigFault → Option String
  | unreadable cause => some s!"Cannot read {path}: {cause.message path}"
  | malformed => some s!"Cannot read {path}"
  | longName | longInteger | notUtf8 | notTable _ => none
  | wrongType key type got =>
    let value := String.ofList got.text
    if got.isWritable then some s!"{path}: '{key}' must be {type.phrase}, got {value}" else none
  | narrowTab width => some s!"{path}: parser.tab_width must be at least 1, got {width}"

namespace Config

/-- The entries of a section, none if it is missing. -/
def sectionOf (document : List (List Char × Toml.Value)) (name : String) :
    Except ConfigFault (List (List Char × Toml.Value)) :=
  match document.lookup name.toList with
  | none => .ok []
  | some (.table entries) => .ok entries
  | some _ => .error (.notTable name)

/-- The setting of a key, or the default if it is missing. -/
def setting {α : Type} (type : SettingType) (read? : Toml.Value → Option α)
    (entries : List (List Char × Toml.Value)) (key : String) (default : α) :
    Except ConfigFault α :=
  match entries.lookup key.toList with
  | none => .ok default
  | some v =>
    match read? v with
    | some a => .ok a
    | none => .error (.wrongType key type v)

/-- The integer that a value is. -/
def integer? : Toml.Value → Option Int
  | .integer n => some n
  | _ => none

/-- The truth value that a value is. -/
def boolean? : Toml.Value → Option Bool
  | .boolean b => some b
  | _ => none

/-- The text that a value is. -/
def text? : Toml.Value → Option (List Char)
  | .string s => some s
  | _ => none

/-- The texts that an array holds, if it holds nothing else. -/
def texts? : Toml.Value → Option (List (List Char))
  | .array items => items.mapM text?
  | _ => none

/-- The configuration that a document describes, for a file in the given directory. -/
def ofDocument (document : List (List Char × Toml.Value)) (directory : Path) :
    Except ConfigFault Config := do
  let layout ← sectionOf document "parser"
  let width ← setting .integer integer? layout "tab_width" 4
  if width < 1 then throw (.narrowTab width)
  let mixed ← setting .boolean boolean? layout "allow_mixed_indentation" false
  let scripts ← sectionOf document "project"
  let paths ← setting .texts texts? scripts "paths" ["game/".toList]
  let extensions ← setting .texts texts? scripts "extensions" [".rpy".toList]
  return ⟨⟨width, mixed⟩, ⟨paths, extensions⟩, directory⟩

/-- The configuration in the bytes of a file in the given directory. -/
def ofBytes (bytes : List UInt8) (directory : Path) : Except ConfigFault Config :=
  match Text.decode bytes with
  | .error _ => .error .notUtf8
  | .ok text =>
    match Toml.parse (Text.unifyLineBreaks text) with
    | .error .malformed => .error .malformed
    | .error .longInteger => .error .longInteger
    | .ok document => ofDocument document directory

/-- The configuration in the file at a path from the root, or the default if there is no file. -/
def load (files : FileTree) (path : Path) : Except ConfigFault Config :=
  if files.findsTooLong path path then .error .longName
  else match files.find? path.names with
  | none => .ok { directory := path.parent }
  | some .directory => .error (.unreadable .isDirectory)
  | some (.file bytes) => ofBytes bytes path.parent

end Config

end NovelScript
