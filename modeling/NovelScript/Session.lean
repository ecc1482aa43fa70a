import NovelScript.Script

/-!
# Reading in steps

A session reads a script step by step. Besides whole statements it can read the parts of one line,
for which a line has to be in progress. A step that fails leaves the progress where it was noticed.
-/

namespace NovelScript

/-- Why a step of a session failed. -/
inductive StepFailure where
  | fault (f : Fault)
  /-- No line is in progress. -/
  | noLine
  /-- Nothing was read on the line in progress. -/
  | noLexeme
  deriving DecidableEq, Repr

/-- The message for a step that was asked for at the wrong time. -/
def StepFailure.message : StepFailure → String
  | fault f => f.cause.message
  | noLine => "No line is being parsed"
  | noLexeme => "No token consumed on this line"

/-- A step of a session. -/
abbrev Session (α : Type) := EStateM StepFailure Progress α

namespace Session

variable {α : Type}

/-- Runs a parser as a step. -/
def run (parser : Parser α) : Session α := fun p =>
  match parser p with
  | .ok a p' => .ok a p'
  | .error f p' => .error (.fault f) p'

/-- The cursor in the line in progress. -/
def cursor : Session Line.Cursor := do
  match (← get).cursor with
  | some c => return c
  | none => throw .noLine

/-- Runs a reader on the line in progress. -/
def onLine (reader : Reader α) : Session α := do
  match reader (← cursor) with
  | .ok a c =>
    modify fun p => { p with cursor := some c }
    return a
  | .error f c =>
    modify fun p => { p with cursor := some c }
    throw (.fault f)

/-- Ends the line in progress, of which nothing may be left. -/
def endLine (construct : String) : Session Unit := do
  onLine (Reader.endOfLine construct)
  modify fun p => { p with cursor := none }

/-- The lexeme read last on the line in progress. -/
def lastLexeme : Session Lexeme := do
  match (← cursor).last with
  | some l => return l
  | none => throw .noLexeme

/-- Reads a statement and the separator after it. Whether it is the last before the closer. -/
def finishedStatement (closer : Tag) : Session Bool :=
  run do
    let s ← Parser.statement
    Parser.finishStatement s closer

end Session

end NovelScript
