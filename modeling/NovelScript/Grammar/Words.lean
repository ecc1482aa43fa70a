import NovelScript.Line.Cursor
import NovelScript.Grammar.Repeat
import NovelScript.Tree.Leaf

/-!
# Words and expressions of a line

The parts from which the lines of all statements are built: required words, string literals, label
names, dotted names and expressions.
-/

namespace NovelScript.Reader

open Line

variable {α : Type}

/-- Fails because `what` has to stand at the cursor. The blanks before the fault are skipped. -/
def refuse (what : String) : Reader α := do
  let ended ← atEnd
  let c ← get
  let first := Text.firstWord c.rest
  let found := if ended || first.isEmpty then Found.endOfLine else .word first
  throw ⟨.unexpected what found, (c.ahead 0).wideSpot⟩

/-- The result of a reader that must find something, which is called `what`. -/
def required (what : String) (reader : Reader (Option α)) : Reader α := do
  match ← reader with
  | some a => return a
  | none => refuse what

/-- Requires the keyword `k`. -/
def expectKeyword (k : String) : Reader Lexeme := required s!"'{k}'" (keyword k.toList)

/-- Requires the punctuation `p`. -/
def expectPunct (p : String) : Reader Lexeme := required s!"'{p}'" (punct p.toList)

/-- Requires a name. -/
def expectName (what : String) : Reader Lexeme := required what name

/-- Requires a string literal. -/
def expectString (what : String) : Reader Lexeme := required what string

/-- Requires that nothing but blanks and a comment is left of a line that holds a `construct`. -/
def endOfLine (construct : String) : Reader Unit := do
  if !(← atEnd) then refuse s!"end of {construct}"

/-- Repeats a reader that may find nothing. -/
def many (reader : Reader (Option α)) : Reader (List α) :=
  repeated (fun c => c.rest.length) (Round.ofOption <$> reader)

/-- The literal that a lexeme is. A lexeme that is no string counts as a literal without source. -/
def literalOf (l : Lexeme) : StringLiteral :=
  let raw := l.word.raw?.getD []
  ⟨l.value, raw.headD '"', raw, l.span⟩

/-- Reads a label name: a name, a name after a dot, or two names with a dot directly after the
first. -/
def labelName : Reader LabelName := do
  match ← punct ['.'] with
  | some dot =>
    let n ← expectName "label name"
    return ⟨.inner, n.value, dot.span.cover n.span⟩
  | none =>
    let first ← expectName "label name"
    if (← char?) = some '.' then
      let _ ← punct ['.']
      let n ← expectName "label name"
      return ⟨.within first.value, n.value, first.span.cover n.span⟩
    else return ⟨.plain, first.value, first.span⟩

/-- Reads a dot at the cursor and the name directly after it. -/
def member : Reader (Option Lexeme) := do
  match (← get).rest with
  | '.' :: rest =>
    if (name? rest).isSome then
      let _ ← punct ['.']
      name
    else return none
  | _ => return none

/-- Reads names joined by dots, without blanks between them. -/
def dottedName (what : String) : Reader (List Char × Span) := do
  let first ← expectName what
  let members ← many member
  let last := members.getLastD first
  let text := first.value ++ members.flatMap fun m => '.' :: m.value
  return (text, first.span.cover last.span)

/-- Reads names joined by dots and a bracket group directly after them, as an expression. -/
def reference? : Reader (Option Expression) := do
  match ← name with
  | none => return none
  | some first =>
    let members ← many member
    let callee := members.getLastD first
    let arguments ←
      if (← char?).any fun c => (closer? c).isSome then group else pure none
    let last := arguments.getD callee
    let kind := if arguments.isSome then ExpressionKind.call else .name
    let c ← get
    let source := c.content.drop (first.place.start - c.start).toNat
    let length := (last.place.stop - first.place.start).toNat
    return some ⟨source.take length, kind, first.span.cover last.span⟩

/-- Reads a simple expression: a string, a bracket group, a number, or names with a bracket group
after them. -/
def simpleExpression? : Reader (Option Expression) := do
  if let some l ← string then
    return some ⟨l.word.raw?.getD [], .string, l.span⟩
  if let some l ← group then
    return some ⟨l.value, .group, l.span⟩
  if let some l ← number then
    return some ⟨l.value, .number, l.span⟩
  reference?

/-- Requires a simple expression. -/
def simpleExpression (what : String) : Reader Expression := required what simpleExpression?

/-- Reads a fragment as an expression. -/
def code? : Reader (Option Expression) := do
  return (← fragment).map fun l => ⟨l.value, .code, l.span⟩

/-- Requires a fragment as an expression. -/
def code (what : String) : Reader Expression := required what code?

end NovelScript.Reader
