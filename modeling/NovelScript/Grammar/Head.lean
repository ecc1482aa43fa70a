import NovelScript.Grammar.Say
import NovelScript.Grammar.Image
import NovelScript.Tree.Statement

/-!
# Heads of statements

The head of a statement is its line. For an action the head is the whole statement; for a label, a
condition, a loop and a menu it is what stands before the blocks. A head is read to the end of its
line.
-/

namespace NovelScript

/-- What a line says as the start of a statement. A head whose blocks are still to come has the
span of its keyword. -/
inductive Head where
  | simple (action : Action) (span : Span)
  | label (name : LabelName) (keyword : Span)
  | branch (condition : Expression) (keyword : Span)
  | loop (condition : Expression) (keyword : Span)
  | menu (name : Option LabelName) (keyword : Span)
  deriving DecidableEq, Repr

namespace Reader

variable {α : Type}

/-- Reads the colon and the end of a line that opens a block. -/
def opensBlock (construct : String) : Reader Unit := do
  let _ ← expectPunct ":"
  endOfLine construct

/-- Reads the condition of a line that opens a block, and the rest of the line. -/
def condition (construct : String) : Reader Expression := do
  let c ← code "condition"
  opensBlock construct
  return c

/-- Reads the value of a definition, and the rest of the line. -/
def assigned (construct : String) : Reader Expression := do
  let _ ← expectPunct "="
  let value ← code "value"
  endOfLine construct
  return value

/-- Reads an image that may be left out, which it is if the line ends or a transition follows. -/
def sceneImage? : Reader (Option ImageSpec) := do
  let ended ← atEnd
  let next ← peekName
  if ended || next = some "with".toList then return none
  else some <$> imageSpec

/-- The span from a keyword to the end of the last part that is there. -/
def extent (keyword : Span) (parts : List (Option Span)) : Span :=
  keyword.cover ((parts.filterMap id).getLastD keyword)

/-- Reads the rest of a line after the keyword of a statement, which has the given span. -/
def afterKeyword (keyword : Span) : StatementKind → Reader Head
  | .say => refuse "a statement"
  | .label => do
    let name ← labelName
    opensBlock "label statement"
    return .label name keyword
  | .branch => do return .branch (← condition "if statement") keyword
  | .loop => do return .loop (← condition "while statement") keyword
  | .menu => do
    let name ← if ← peekPunct [':'] then pure none else some <$> labelName
    opensBlock "menu statement"
    return .menu name keyword
  | .jump => do
    let target ← labelName
    endOfLine "jump statement"
    return .simple (.jump target) (keyword.cover target.span)
  | .call => do
    let target ← labelName
    let site ← match ← Reader.keyword "from".toList with
      | none => pure none
      | some _ => some <$> labelName
    endOfLine "call statement"
    return .simple (.call target site) (extent keyword [target.span, site.map (·.span)])
  | .leave => do
    let value ← code?
    endOfLine "return statement"
    return .simple (.leave value) (extent keyword [value.map (·.span)])
  | .pass => do
    endOfLine "pass statement"
    return .simple .pass (keyword.cover keyword)
  | .showImage => do
    let image ← imageSpec
    let effect ← transition?
    endOfLine "show statement"
    return .simple (.showImage image effect) (extent keyword [image.span, effect.map (·.span)])
  | .hideImage => do
    let image ← imageSpec
    let effect ← transition?
    endOfLine "hide statement"
    return .simple (.hideImage image effect) (extent keyword [image.span, effect.map (·.span)])
  | .scene => do
    let image ← sceneImage?
    let effect ← transition?
    endOfLine "scene statement"
    let parts := [image.map (·.span), effect.map (·.span)]
    return .simple (.scene image effect) (extent keyword parts)
  | .transition => do
    let effect ← simpleExpression "transition"
    endOfLine "with statement"
    return .simple (.transition effect) (keyword.cover effect.span)
  | .define => do
    let (name, _) ← dottedName "variable name"
    let value ← assigned "define statement"
    return .simple (.define name value) (keyword.cover value.span)
  | .default => do
    let (name, _) ← dottedName "variable name"
    let value ← assigned "default statement"
    return .simple (.default name value) (keyword.cover value.span)
  | .image => do
    let first ← expectName "image name"
    let more ← many name
    let value ← assigned "image statement"
    let names := first.value :: more.map Lexeme.value
    return .simple (.image names value) (keyword.cover value.span)

/-- Reads the line of a statement. A spoken line is tried first. -/
def head : Reader Head := do
  match ← say? with
  | some line =>
    endOfLine "say statement"
    return .simple (.say line) line.span
  | none =>
    let next ← peekName
    match StatementKind.keyed.find? fun k => next = some k.text.toList with
    | none => refuse "a statement"
    | some kind =>
      let keyword ← expectKeyword kind.text
      afterKeyword keyword.span kind

/-- Reads the line of a further condition of a branch. -/
def elifHead : Reader (Expression × Span) := do
  let keyword ← expectKeyword "elif"
  return (← condition "elif clause", keyword.span)

/-- Reads the line of the last clause of a branch. -/
def elseHead : Reader Unit := do
  let _ ← expectKeyword "else"
  opensBlock "else clause"

/-- Reads the spoken line over the choices of a menu. -/
def captionHead : Reader (Option Say) := do
  let line ← say?
  endOfLine "menu caption"
  return line

/-- Reads the line of a choice. -/
def choiceHead : Reader (Lexeme × Option Expression) := do
  let text ← expectString "menu choice"
  let condition ← match ← keyword "if".toList with
    | none => pure none
    | some _ => some <$> code "condition"
  opensBlock "menu choice"
  return (text, condition)

/-- Whether the line is a clause that starts with the keyword `k`. A spoken line is not. -/
def startsClause (k : String) : Reader Bool := do
  if (← peekName) = some k.toList then return (← say?).isNone
  else return false

end Reader

end NovelScript
