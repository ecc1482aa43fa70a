import NovelScript.Path
import NovelScript.Tree.Leaf

/-!
# Statements

A script is a sequence of statements. An `Action` is complete on its line. A label, a condition, a
loop and a menu own blocks of statements that are indented below their line.
-/

namespace NovelScript

/-- A statement that is complete on its line. -/
inductive Action where
  | say (line : Say)
  | showImage (image : ImageSpec) (transition : Option Expression)
  | hideImage (image : ImageSpec) (transition : Option Expression)
  /-- Clears the scene and may show an image. -/
  | scene (image : Option ImageSpec) (transition : Option Expression)
  | transition (effect : Expression)
  | jump (target : LabelName)
  /-- Calls a label; `site` names the place to come back to. -/
  | call (target : LabelName) (site : Option LabelName)
  /-- Returns from a call. -/
  | leave (value : Option Expression)
  | pass
  | define (name : List Char) (value : Expression)
  /-- Defines a variable that is saved with the game. -/
  | default (name : List Char) (value : Expression)
  | image (names : List (List Char)) (value : Expression)
  deriving DecidableEq, Repr

mutual

/-- A statement with its span. -/
inductive Statement where
  | simple (action : Action) (span : Span)
  | label (name : LabelName) (body : Block) (span : Span)
  | branch (condition : Expression) (body : Block) (elifs : List ElifClause)
      (otherwise : Option Block) (span : Span)
  | loop (condition : Expression) (body : Block) (span : Span)
  | menu (name : Option LabelName) (caption : Option Say) (choices : List Choice) (span : Span)

/-- The statements indented below a line. -/
structure Block where
  statements : List Statement
  span : Span

/-- A further condition of a branch and what follows from it. -/
structure ElifClause where
  condition : Expression
  body : Block
  span : Span

/-- A choice of a menu, which may have a condition. -/
structure Choice where
  text : StringLiteral
  condition : Option Expression
  body : Block
  span : Span

end

/-- The statements of a script. -/
structure SourceFile where
  statements : List Statement
  file : Option Path
  span : Span

/-- The kinds of statements. -/
inductive StatementKind where
  | label | say | showImage | hideImage | scene | transition | branch | loop | menu | jump | call
  | leave | pass | define | default | image
  deriving DecidableEq, Repr

/-- The word for a kind of statement: its keyword, or `say`. -/
def StatementKind.text : StatementKind → String
  | label => "label"
  | say => "say"
  | showImage => "show"
  | hideImage => "hide"
  | scene => "scene"
  | transition => "with"
  | branch => "if"
  | loop => "while"
  | menu => "menu"
  | jump => "jump"
  | call => "call"
  | leave => "return"
  | pass => "pass"
  | define => "define"
  | default => "default"
  | image => "image"

/-- The kinds that a keyword at the start of a line tells apart: all but `say`. -/
def StatementKind.keyed : List StatementKind :=
  [.label, .branch, .loop, .menu, .jump, .call, .leave, .pass, .showImage, .hideImage, .scene,
    .transition, .define, .default, .image]

/-- The kind of an action. -/
def Action.kind : Action → StatementKind
  | say _ => .say
  | showImage .. => .showImage
  | hideImage .. => .hideImage
  | scene .. => .scene
  | transition _ => .transition
  | jump _ => .jump
  | call .. => .call
  | leave _ => .leave
  | pass => .pass
  | define .. => .define
  | default .. => .default
  | image .. => .image

namespace Statement

/-- The kind of a statement. -/
def kind : Statement → StatementKind
  | simple action _ => action.kind
  | label .. => .label
  | branch .. => .branch
  | loop .. => .loop
  | menu .. => .menu

/-- The span of a statement, with the blocks it owns. -/
def span : Statement → Span
  | simple _ span | label _ _ span | branch _ _ _ _ span | loop _ _ span | menu _ _ _ span => span

/-- Whether the statement owns blocks. The last of them ends the statement, so no line break has to
follow it. -/
def isCompound : Statement → Bool
  | simple .. => false
  | label .. | branch .. | loop .. | menu .. => true

end Statement

end NovelScript
