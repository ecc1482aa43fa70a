import NovelScript.Command.Request
import NovelScript.Command.Usage
import NovelScript.Project.Discovery
import NovelScript.Script
import NovelScript.Text.Control
import NovelScript.Tree.Document
import NovelScript.Tree.Outline

/-!
# Running commands

`run` answers a command line on the files of a workspace. `parse` shows the tree of one script,
`check` reads every script of a project and reports the first fault of each, and `tokens` lists the
layout of one script.

Plain lines are made for a reader, not for a terminal, so they hold no control sequences.
-/

namespace NovelScript.Command

/-- The files that commands see, the directory they are run in, and what is told of the platform. -/
structure Workspace where
  files : FileTree
  directory : Path
  platform : List Char

/-- A row of a listing of tokens. -/
structure TokenRow where
  position : List Char
  tag : Tag
  value : List Char
  /-- Whether the row is marked as a fault. -/
  marked : Bool
  deriving DecidableEq, Repr

/-- What is shown on a terminal other than plain lines. -/
inductive Display where
  | outline (o : Outline)
  | tokens (title : List Char) (rows : List TokenRow)

/-- Why a command broke off without an answer. -/
inductive Crash where
  | config (fault : ConfigFault)
  | discovery (fault : DiscoveryFault)
  /-- The path of the configuration holds the null character. -/
  | path (p : Path)
  | layout (b : Breakdown)

/-- What came of a command: the exit code, the lines on both outputs and what was shown. -/
structure Outcome where
  exit : Nat := 0
  out : List Char := []
  err : List Char := []
  shown : List Display := []
  /-- Whether the command line was misused, so that its use is explained. -/
  misused : Bool := false
  crash : Option Crash := none

/-- The version of the program. -/
def versionNumber : String := "0.1.0"

/-- The answer to a request for the version. -/
def versionOutcome (w : Workspace) : Outcome :=
  { out := s!"renparse {versionNumber}\n".toList ++ w.platform ++ ['\n'] }

/-- The answer to a call for help. -/
def helpOutcome : Outcome := { out := usage.toList }

/-- The answer to a command line that means nothing. -/
def misuseOutcome : Outcome := { exit := 2, misused := true }

/-- A line of plain output. -/
def lineOf (cs : List Char) : List Char := Text.plain cs ++ ['\n']

/-- An answer of one line on the error output, with an exit code. -/
def failed (message : String) (exit : Nat := 1) : Outcome :=
  { exit, err := lineOf message.toList }

/-- The answer to a call for the completion of command lines. No shell is known here, so there is none
to complete them in. -/
def completionOutcome (install : Bool) : Outcome :=
  if install then { exit := 1, out := lineOf "Shell None is not supported.".toList }
  else failed "Shell  not supported."

/-- An answer of a command that broke off. -/
def crashed (c : Crash) : Outcome := { exit := 1, crash := some c }

/-- The columns of a listing of tokens. -/
def tokenColumns : List String := ["Position", "Type", "Value"]

/-- Requires a form of output to be one of those allowed. -/
def checkFormat (format : List Char) (allowed : List String) : Except Outcome Unit :=
  if allowed.any fun a => a.toList = format then .ok ()
  else
    let known := String.ofList (Text.joinWith [',', ' '] (allowed.map String.toList))
    let name := String.ofList format
    .error (failed s!"Unknown format '{name}', expected one of: {known}" 2)

/-- The answer to a configuration that is refused. The line about a malformed file is left open for
what is to be said about the file's own form. -/
def configFailure (path : Path) (fault : ConfigFault) : Outcome :=
  match fault.message? path with
  | none => crashed (.config fault)
  | some message =>
    match fault with
    | .malformed => { exit := 1, err := Text.plain s!"Error: {message}".toList }
    | _ => failed s!"Error: {message}"

/-- The configuration in the file at a path. -/
def loadConfig (w : Workspace) (path : Path) : Except Outcome Config :=
  if path.holdsNull then .error (crashed (.path path))
  else
    let path := w.directory.resolve path
    (Config.load w.files path).mapError (configFailure path)

/-- The line about a file that could not be read. -/
def unreadable (path : Path) (reason : String) : String :=
  s!"Error: cannot read {path}: {reason}"

/-- What came of reading one script. -/
inductive Reading where
  | tree (t : SourceFile)
  | refused (r : Report)
  | unreadable (f : AccessFault)
  | breakdown (b : Breakdown)

/-- Why the layout of a script could not be read to its end. -/
def Reading.breakdown? : Reading → Option Breakdown
  | .breakdown b => some b
  | .tree _ | .refused _ | .unreadable _ => none

/-- Reads the script at a path. -/
def readScript (w : Workspace) (rules : LayoutRules) (path : Path) : Reading :=
  match w.files.read w.directory path with
  | .error f => .unreadable f
  | .ok bytes =>
    match Script.parseBytes rules bytes path with
    | .ok t => .tree t
    | .error (.refused r) => .refused r
    | .error (.breakdown b) => .breakdown b

/-- The line about a script that is refused. -/
def refusalLine (r : Report) : List Char := "Parse error: ".toList ++ r.text

/-- The line about a script that is refused, for an editor: the path is given from the directory of
the project on if it lies there. -/
def editorLine (directory : Path) (r : Report) : List Char :=
  match r.context with
  | none => s!"::error: {r.message}".toList
  | some c =>
    match c.file with
    | none => s!"::error: {r.message}".toList
    | some file =>
      let path := (file.relativeTo? directory).getD file
      let line := if c.spot.line = 0 then 1 else c.spot.line
      let column := if c.spot.column = 0 then 1 else c.spot.column
      s!"{path}:{line}:{column}: error: {r.message}".toList

/-- Shows the tree of a script. -/
def parse (w : Workspace) (file : Path) (format : List Char) (configFile : Path) :
    Except Outcome Outcome := do
  checkFormat format ["tree", "json"]
  let config ← loadConfig w configFile
  match readScript w config.layout file with
  | .unreadable f => throw (failed (unreadable file (f.message file)))
  | .refused r => throw { exit := 1, err := lineOf (refusalLine r) }
  | .breakdown b => throw (crashed (.layout b))
  | .tree t =>
    if format = "json".toList then return { out := t.json.text ++ ['\n'] }
    else return { shown := [.outline t.outline.shown] }

/-- The files that a check covers: those named, those found in the directories named, or, if none
is named, those of the project. -/
def checkedFiles (w : Workspace) (config : Config) (paths : List Path) :
    Except DiscoveryFault (List Path) :=
  if paths.isEmpty then discover w.files config.directory config.scripts
  else
    (paths.mapM fun p =>
      match w.files.access w.directory p with
      | .ok .directory =>
        let here : ScriptPaths := { paths := [['.']], extensions := config.scripts.extensions }
        discover w.files (w.directory.resolve p) here
      | .error .nameTooLong => .error .longName
      | _ => .ok [w.directory.resolve p]).map List.flatten

/-- The report on one file of a check, nothing if the file is in order. -/
def fileReport (config : Config) (editor : Bool) (path : Path) : Reading → Option (List Char)
  | .tree _ | .breakdown _ => none
  | .refused r => some (if editor then editorLine config.directory r else refusalLine r)
  | .unreadable f => some (unreadable path (f.message path)).toList

/-- Reads every file and reports those that are not in order, up to one whose layout breaks down. -/
def check (w : Workspace) (paths : List Path) (format : List Char) (configFile : Path) :
    Except Outcome Outcome := do
  checkFormat format ["human", "vscode"]
  let config ← loadConfig w configFile
  let files ← (checkedFiles w config paths).mapError fun f => crashed (.discovery f)
  if files.isEmpty then throw (failed "No script files found")
  let editor := format = "vscode".toList
  let readings := files.map fun f => (f, readScript w config.layout f)
  let reports := (readings.takeWhile fun r => r.2.breakdown?.isNone).filterMap fun r =>
    fileReport config editor r.1 r.2
  let err := reports.flatMap lineOf
  match readings.findSome? fun r => r.2.breakdown? with
  | some b => throw { crashed (.layout b) with err }
  | none =>
    let summary :=
      if reports.isEmpty then s!"✓ {files.length} file(s) parsed"
      else s!"✗ {reports.length} of {files.length} file(s) failed to parse"
    return {
      exit := if reports.isEmpty then 0 else 1
      out := if editor then [] else lineOf summary.toList
      err }

/-- The text of a file in UTF-8 with line breaks of any kind. Bytes that are only the start of a
byte order mark are no text. -/
def plainText (bytes : List UInt8) : Except Text.Utf8Fault (List Char) :=
  if bytes.length < 3 && bytes.isPrefixOf Text.byteOrderMark then .ok []
  else (Text.decode (Text.dropByteOrderMark bytes)).map Text.unifyLineBreaks

/-- The message for bytes that are not valid UTF-8. -/
def decodingMessage (f : Text.Utf8Fault) : String :=
  let reason := match f.reason with
    | .invalidStart => "invalid start byte"
    | .invalidContinuation => "invalid continuation byte"
    | .unexpectedEnd => "unexpected end of data"
  let digits := String.ofList (Text.hex 2 f.byte.toNat)
  let what :=
    if f.length = 1 then s!"byte 0x{digits} in position {f.position}"
    else s!"bytes in position {f.position}-{f.position + f.length - 1}"
  s!"'utf-8' codec can't decode {what}: {reason}"

/-- The row of a token. -/
def tokenRow (t : LayoutToken) : TokenRow :=
  let value := match t.mark with
    | .text _ | .fault _ => shownText t.value
    | .indent | .dedent | .newline | .eof => []
  ⟨s!"{t.place.line}:{t.place.column}".toList, t.tag, value, t.tag = .error⟩

/-- Lists the layout of a script. -/
def tokens (w : Workspace) (file : Path) (configFile : Path) : Except Outcome Outcome := do
  let config ← loadConfig w configFile
  match w.files.read w.directory file with
  | .error f => throw (failed (unreadable file (f.message file)))
  | .ok bytes =>
    match plainText bytes with
    | .error f => throw (failed (unreadable file (decodingMessage f)))
    | .ok text =>
      match NovelScript.layout config.layout text with
      | .error b => throw (crashed (.layout b))
      | .ok ts => return { shown := [.tokens file.text (ts.map tokenRow)] }

/-- The outcome of a computation that may end early. -/
def settled : Except Outcome Outcome → Outcome
  | .ok o | .error o => o

/-- Answers a request. -/
def answer (w : Workspace) : Request → Outcome
  | .version => versionOutcome w
  | .help => helpOutcome
  | .misuse => misuseOutcome
  | .completion install => completionOutcome install
  | .parse file format config => settled (parse w file format config)
  | .check paths format config => settled (check w paths format config)
  | .tokens file config => settled (tokens w file config)

/-- Answers a command line. -/
def run (w : Workspace) (args : List (List Char)) : Outcome :=
  answer w (Request.ofWords args)

end NovelScript.Command
