import NovelScript.Tree.Walk
import NovelScript.Tree.Summary

/-!
# Outlines

An outline shows the blocks of a script as a tree of labels. Each statement has its summary and its
position as label; the clauses of a branch and the choices of a menu are branches of their own.
-/

namespace NovelScript

/-- A tree of labels. -/
inductive Outline where
  | node (label : List Char) (children : List Outline)

/-- The label of a statement: its summary and where it starts. -/
def Statement.outlineLabel (s : Statement) : List Char :=
  s.summary ++ s!"  [{s.span.line}:{s.span.column}]".toList

/-- The label of a choice. -/
def Choice.outlineLabel (c : Choice) : List Char :=
  spaced ("choice".toList :: c.text.raw ::
    match c.condition with
    | none => []
    | some e => ["if".toList, e.text])

mutual

/-- The outline of a statement. -/
def Statement.outline : Statement → Outline
  | .simple action span => .node (Statement.simple action span).outlineLabel []
  | .label name body span => .node (Statement.label name body span).outlineLabel body.outline
  | .branch condition body elifs none span =>
    .node (Statement.branch condition body elifs none span).outlineLabel
      (body.outline ++ outlineElifs elifs)
  | .branch condition body elifs (some block) span =>
    .node (Statement.branch condition body elifs (some block) span).outlineLabel
      (body.outline ++ outlineElifs elifs ++ [.node "else".toList block.outline])
  | .loop condition body span => .node (Statement.loop condition body span).outlineLabel body.outline
  | .menu name caption choices span =>
    let captions := caption.map fun s => Outline.node s.statement.outlineLabel []
    .node (Statement.menu name caption choices span).outlineLabel
      (captions.toList ++ outlineChoices choices)

/-- The outlines of the statements of a block. -/
def Block.outline : Block → List Outline
  | ⟨statements, _⟩ => outlineAll statements

/-- The outlines of statements. -/
def outlineAll : List Statement → List Outline
  | [] => []
  | s :: rest => s.outline :: outlineAll rest

/-- The outlines of the further conditions of a branch. -/
def outlineElifs : List ElifClause → List Outline
  | [] => []
  | ⟨condition, body, _⟩ :: rest =>
    .node (spaced ["elif".toList, condition.text]) body.outline :: outlineElifs rest

/-- The outlines of the choices of a menu. -/
def outlineChoices : List Choice → List Outline
  | [] => []
  | ⟨text, condition, body, span⟩ :: rest =>
    .node (Choice.outlineLabel ⟨text, condition, body, span⟩) body.outline :: outlineChoices rest

end

/-- The outline of a script, with the file as label of the root. -/
def SourceFile.outline (f : SourceFile) : Outline :=
  let label := match f.file with
    | some path => path.text
    | none => "<string>".toList
  .node label (outlineAll f.statements)

/-- Whether a terminal would act on the character instead of showing it. -/
def isTerminalControl (c : Char) : Bool :=
  let n := c.toNat
  n == 0x07 || n == 0x08 || n == 0x0B || n == 0x0C || n == 0x0D

/-- The text as a terminal may show it. -/
def shownText (cs : List Char) : List Char := cs.filter fun c => !isTerminalControl c

mutual

/-- The outline as a terminal may show it. -/
def Outline.shown : Outline → Outline
  | .node label children => .node (shownText label) (shownAll children)

/-- The outlines as a terminal may show them. -/
def shownAll : List Outline → List Outline
  | [] => []
  | o :: rest => o.shown :: shownAll rest

end

end NovelScript
