import NovelScript.Tree.Statement

/-!
# Walking the tree

`Statement.blocks` gives the blocks that a statement owns, in the order of the source.
`Statement.walk` visits a statement and everything below it, each statement before what lies within
it, and the caption of a menu before its choices.
-/

namespace NovelScript

/-- The caption of a menu as a statement. -/
def Say.statement (s : Say) : Statement := .simple (.say s) s.span

/-- The blocks that a statement owns. -/
def Statement.blocks : Statement → List Block
  | .simple .. => []
  | .label _ body _ | .loop _ body _ => [body]
  | .branch _ body elifs otherwise _ => body :: elifs.map ElifClause.body ++ otherwise.toList
  | .menu _ _ choices _ => choices.map Choice.body

mutual

/-- The statement and all statements within it. -/
def Statement.walk : Statement → List Statement
  | .simple action span => [.simple action span]
  | .label name body span => .label name body span :: body.walk
  | .branch condition body elifs none span =>
    .branch condition body elifs none span :: (body.walk ++ walkElifs elifs)
  | .branch condition body elifs (some block) span =>
    .branch condition body elifs (some block) span :: (body.walk ++ walkElifs elifs ++ block.walk)
  | .loop condition body span => .loop condition body span :: body.walk
  | .menu name caption choices span =>
    .menu name caption choices span ::
      ((caption.map Say.statement).toList ++ walkChoices choices)

/-- All statements within a block. -/
def Block.walk : Block → List Statement
  | ⟨statements, _⟩ => walkAll statements

/-- All statements within the given ones, these included. -/
def walkAll : List Statement → List Statement
  | [] => []
  | s :: rest => s.walk ++ walkAll rest

/-- All statements within the bodies of clauses. -/
def walkElifs : List ElifClause → List Statement
  | [] => []
  | ⟨_, body, _⟩ :: rest => body.walk ++ walkElifs rest

/-- All statements within the bodies of choices. -/
def walkChoices : List Choice → List Statement
  | [] => []
  | ⟨_, _, body, _⟩ :: rest => body.walk ++ walkChoices rest

end

/-- All statements of a script. -/
def SourceFile.walk (f : SourceFile) : List Statement := walkAll f.statements

end NovelScript
