import NovelScript.Grammar.Head
import NovelScript.Layout.Offside

/-!
# Blocks and statements

Statements are read from the layout of a script. The lines of a block stand between the opening and
the closing of the block, with a separator after each action that is not the last line. What reads
one statement is written as a function of what reads the blocks below it, and `block` closes this
circle: a block below a line is read from strictly fewer tokens than the block around the line.
-/

namespace NovelScript

/-- How far the layout of a script was read: the tokens that are left, and the cursor in the line
that is being read, if there is one. -/
structure Progress where
  rest : List LayoutToken
  cursor : Option Line.Cursor := none
  deriving DecidableEq, Repr

/-- A computation that reads the layout. The progress made is known also when it fails. -/
abbrev Parser (α : Type) := EStateM Fault Progress α

/-- The next token. A layout without tokens is at its end. -/
def Progress.next (p : Progress) : LayoutToken :=
  p.rest.headD ⟨.eof, ⟨1, 1, 0, 0⟩⟩

/-- Whether nothing but the closing of lines and blocks is left. -/
def Progress.isEnded (p : Progress) : Bool :=
  p.rest.all fun t => t.mark = .newline || t.mark = .dedent || t.mark = .eof

namespace Parser

variable {α : Type}

/-- The next token, which must be no fault. -/
def peek : Parser LayoutToken := do
  let t := (← get).next
  match t.mark with
  | .fault cause => throw ⟨.layout cause, t.place.wideSpot⟩
  | _ => return t

/-- Takes the next token. The end of the script stays where it is. -/
def advance : Parser LayoutToken := do
  let t ← peek
  if t.mark ≠ .eof then modify fun p => { p with rest := p.rest.tail }
  return t

/-- Fails because `what` has to stand where the token is. -/
def refuse (what : String) (t : LayoutToken) : Parser α := do
  let cause := if (← get).isEnded then Cause.ended what else .unexpected what t.found
  throw ⟨cause, t.place.wideSpot⟩

/-- Whether the next token has one of the tags. -/
def sees (tags : List Tag) : Parser Bool := do
  return tags.contains (← peek).tag

/-- Takes a token that must have the given tag. -/
def expect (tag : Tag) : Parser LayoutToken := do
  let t ← peek
  if t.tag = tag then advance else refuse tag.phrase t

/-- Takes the next line and starts to read it. -/
def beginLine : Parser Line.Cursor := do
  let t ← peek
  match t.mark with
  | .text content =>
    let _ ← advance
    let cursor := Line.Cursor.ofContent content t.place
    modify fun p => { p with cursor := some cursor }
    return cursor
  | _ => refuse "a statement" t

/-- A cursor at the start of the next line, which is not taken. -/
def peekLine : Parser (Option Line.Cursor) := do
  let t ← peek
  match t.mark with
  | .text content => return some (Line.Cursor.ofContent content t.place)
  | _ => return none

/-- Takes the next line and reads all of it. If that fails, the line stays in progress. -/
def line (reader : Reader α) : Parser α := do
  let cursor ← beginLine
  match reader cursor with
  | .ok a _ =>
    modify fun p => { p with cursor := none }
    return a
  | .error fault cursor' =>
    modify fun p => { p with cursor := some cursor' }
    throw fault

/-- What a reader finds on the next line, which is not taken. -/
def lookAhead (reader : Reader α) : Parser (Option α) := do
  match ← peekLine with
  | none => return none
  | some cursor =>
    match reader cursor with
    | .ok a _ => return some a
    | .error fault _ => throw fault

/-- Takes the separator after a statement, if one has to follow. Whether the statement was the last
one before a token with the tag `closer`. -/
def finishStatement (s : Statement) (closer : Tag) : Parser Bool := do
  if ← sees [closer] then return true
  if s.isCompound then return false
  let _ ← expect .newline
  return false

/-- Repeats what reads a part of the script. -/
def rounds (round : Parser (Round α)) : Parser (List α) :=
  repeated (fun p => p.rest.length) round

/-- The span from the first to the last of some statements. -/
def extentOf (statements : List Statement) : Span :=
  let spans := statements.map Statement.span
  let first := spans.headD ⟨0, 0, 1, 1, 1, 1⟩
  first.cover (spans.getLastD first)

section

/-! What follows is given `block`, which reads a block, and `statement`, which reads a statement. -/

variable (block : Parser Block) (statement : Parser Statement)

/-- Reads a block: at least one statement between its opening and its closing. -/
def blockOf : Parser Block := do
  let _ ← expect .indent
  let statements ← rounds do
    let s ← statement
    return if ← finishStatement s .dedent then .last s else .more s
  let _ ← expect .dedent
  return ⟨statements, extentOf statements⟩

/-- Reads a further condition of a branch, if one follows. -/
def elifClause? : Parser (Option ElifClause) := do
  match ← lookAhead (Reader.startsClause "elif") with
  | some true =>
    let (condition, keyword) ← line Reader.elifHead
    let body ← block
    return some ⟨condition, body, keyword.cover body.span⟩
  | _ => return none

/-- Reads the last clause of a branch, if one follows. -/
def elseClause? : Parser (Option Block) := do
  match ← lookAhead (Reader.startsClause "else") with
  | some true =>
    line Reader.elseHead
    some <$> block
  | _ => return none

/-- Reads a choice of a menu. -/
def choice : Parser Choice := do
  let (text, condition) ← line Reader.choiceHead
  let body ← block
  return ⟨Reader.literalOf text, condition, body, text.span.cover body.span⟩

/-- Reads the spoken line that may stand over the choices of a menu. A choice has to follow it. -/
def caption? : Parser (Option Say) := do
  match ← lookAhead Reader.say? with
  | some (some _) =>
    let caption ← line Reader.captionHead
    if ← sees [.dedent] then refuse "a menu choice" (← peek)
    let _ ← expect .newline
    return caption
  | _ => return none

/-- Reads the body of a menu: perhaps a caption, and at least one choice. -/
def menuBody : Parser (Option Say × List Choice) := do
  let _ ← expect .indent
  let caption ← caption?
  let choices ← rounds do
    let c ← choice block
    return if ← sees [.dedent] then .last c else .more c
  let _ ← expect .dedent
  return (caption, choices)

/-- Reads the blocks that belong to a head. -/
def statementOf : Head → Parser Statement
  | .simple action span => return .simple action span
  | .label name keyword => do
    let body ← block
    return .label name body (keyword.cover body.span)
  | .branch condition keyword => do
    let body ← block
    let elifs ← rounds (Round.ofOption <$> elifClause? block)
    let otherwise ← elseClause? block
    let last := match otherwise with
      | some b => b.span
      | none => (elifs.map fun e => e.body.span).getLastD body.span
    return .branch condition body elifs otherwise (keyword.cover last)
  | .loop condition keyword => do
    let body ← block
    return .loop condition body (keyword.cover body.span)
  | .menu name keyword => do
    let (caption, choices) ← menuBody block
    let last := (choices.map Choice.span).getLastD keyword
    return .menu name caption choices (keyword.cover last)

/-- Reads a statement: its line and then its blocks. -/
def statementWith : Parser Statement := do
  statementOf block (← line Reader.head)

end

/-- Reads a block. The blocks below its lines are read from fewer tokens. -/
def block : Parser Block := fun p =>
  blockOf (statementWith fun q =>
    if q.rest.length < p.rest.length then block q else refuse Tag.indent.phrase q.next q) p
termination_by p => p.rest.length

/-- Reads a statement. -/
def statement : Parser Statement := statementWith block

/-- Reads all statements of a script, of which there must be one. -/
def script : Parser (List Statement) := do
  if ← sees [.eof] then refuse "at least one statement" (← peek)
  rounds do
    if ← sees [.eof] then return .stop
    let s ← statement
    let _ ← finishStatement s .eof
    return .more s

end Parser

end NovelScript
