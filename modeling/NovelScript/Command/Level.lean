/-!
# Log levels

The level of the log is the lowest when the program is verbose and else named by the environment. A
name in any case counts; a name that means nothing stands for warnings.
-/

namespace NovelScript.Command

/-- The upper case of a character, as far as it can be part of the name of a level. -/
def upperCase (c : Char) : List Char :=
  if c = 'ı' then ['I']
  else if c = 'ſ' then ['S']
  else if c = '\uFB05' || c = '\uFB06' then ['S', 'T']
  else [c.toUpper]

/-- A name that means something other than a level. -/
inductive LevelFault where
  /-- The name of a text. -/
  | text
  /-- The name of a table. -/
  | table
  deriving DecidableEq, Repr

/-- The level of warnings, which is the default. -/
def warningLevel : Nat := 30

/-- What a name in upper case means. -/
def levelOfName (name : String) : Except LevelFault Nat :=
  match name with
  | "NOTSET" => .ok 0
  | "DEBUG" => .ok 10
  | "INFO" => .ok 20
  | "WARN" | "WARNING" => .ok warningLevel
  | "ERROR" => .ok 40
  | "CRITICAL" | "FATAL" => .ok 50
  | "BASIC_FORMAT" => .error .text
  | "_STYLES" => .error .table
  | _ => .ok warningLevel

/-- The level of the log. -/
def logLevel (verbose : Bool) (name : Option (List Char)) : Except LevelFault Nat :=
  if verbose then .ok 10
  else match name with
    | none => .ok warningLevel
    | some cs => levelOfName (String.ofList (cs.flatMap upperCase))

end NovelScript.Command
