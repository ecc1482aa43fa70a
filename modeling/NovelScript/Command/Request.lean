import NovelScript.Command.Options
import NovelScript.Project.Config

/-!
# Requests

What a command line asks for: one of the three commands, the version, or the completion of command
lines in a shell. Everything else is misuse or a call for help.
-/

namespace NovelScript.Command

/-- The options of the program and of its commands. -/
inductive OptionKey where
  | version | verbose | installCompletion | showCompletion | help | format | config
  deriving DecidableEq, Repr

/-- What a command line asks for. -/
inductive Request where
  | version
  | help
  | misuse
  /-- To install the completion of command lines, or only to show what would be installed. -/
  | completion (install : Bool)
  | parse (file : Path) (format : List Char) (config : Path)
  | check (paths : List Path) (format : List Char) (config : Path)
  | tokens (file : Path) (config : Path)
  deriving DecidableEq, Repr

/-- The option for help, which everything has. -/
def helpOption : OptionSpec OptionKey := { key := .help, long := "help".toList }

/-- The options before a command. -/
def programOptions : List (OptionSpec OptionKey) :=
  [{ key := .version, long := "version".toList, letter := 'V' },
    { key := .verbose, long := "verbose".toList, letter := 'v' },
    { key := .installCompletion, long := "install-completion".toList },
    { key := .showCompletion, long := "show-completion".toList }, helpOption]

/-- The option for the file of the configuration. -/
def configOption : OptionSpec OptionKey :=
  { key := .config, long := "config".toList, letter := 'c', takesValue := true }

/-- The option for the form of the output. -/
def formatOption : OptionSpec OptionKey :=
  { key := .format, long := "format".toList, letter := 'f', takesValue := true }

/-- The path of the configuration that the options name. -/
def configPath (w : Words OptionKey) : Path :=
  Path.ofText ((w.value? .config).getD Config.fileName.toList)

/-- The form of the output that the options name, or the default. -/
def formatOf (w : Words OptionKey) (default : String) : List Char :=
  (w.value? .format).getD default.toList

/-- The paths among the words of a command, if no name in them holds the null character. -/
def pathsOf? (w : Words OptionKey) : Option (List Path) :=
  let paths := w.arguments.map Path.ofText
  if paths.any Path.holdsNull then none else some paths

/-- Reads the words after the name of a command. -/
def commandWords (specs : List (OptionSpec OptionKey)) (args : List (List Char))
    (request : Words OptionKey → Request) : Request :=
  match readWords (helpOption :: specs) true none args with
  | none => .misuse
  | some w => if (w.value? .help).isSome then .help else request w

/-- Reads the words of a command. -/
def readCommand (name : List Char) (args : List (List Char)) : Request :=
  if name = "parse".toList then
    commandWords [formatOption, configOption] args fun w =>
      match pathsOf? w with
      | some [file] => .parse file (formatOf w "tree") (configPath w)
      | _ => .misuse
  else if name = "check".toList then
    commandWords [formatOption, configOption] args fun w =>
      match pathsOf? w with
      | some paths => .check paths (formatOf w "human") (configPath w)
      | none => .misuse
  else if name = "tokens".toList then
    commandWords [configOption] args fun w =>
      match pathsOf? w with
      | some [file] => .tokens file (configPath w)
      | _ => .misuse
  else .misuse

/-- What an option asks for at once: the version or help. -/
def OptionKey.announcement? : OptionKey → Option Request
  | version => some .version
  | help => some .help
  | verbose | installCompletion | showCompletion | format | config => none

/-- What an option asks for about the completion of command lines. -/
def OptionKey.completion? : OptionKey → Option Request
  | installCompletion => some (.completion true)
  | showCompletion => some (.completion false)
  | version | verbose | help | format | config => none

/-- What the options ask for whatever command follows. The version and help come before completion;
apart from that the first option counts. -/
def Words.request? (w : Words OptionKey) : Option Request :=
  (w.options.findSome? fun o => o.1.announcement?) <|>
    w.options.findSome? fun o => o.1.completion?

/-- The names of the commands. -/
def commandNames : List (List Char) := ["parse".toList, "check".toList, "tokens".toList]

/-- Reads a command line. What the options ask for themselves is answered whatever command follows.
Where the name of a command should stand, options may still follow two hyphens. -/
def Request.ofWords (args : List (List Char)) : Request :=
  match readWords programOptions false none args with
  | none => .misuse
  | some w =>
    match w.request?, w.arguments with
    | some request, _ => request
    | none, [] => .misuse
    | none, name :: rest =>
      if commandNames.contains name then readCommand name rest
      else ((readWords programOptions false none (name :: rest)).bind
        Words.request?).getD .misuse

end NovelScript.Command
