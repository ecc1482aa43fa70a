import NovelScript.Proofs.Computation
import NovelScript.Script

/-!
# Putting a tree together token by token

`Assembly` is the state of a reader that takes one token of the layout after the other: the
statements read so far, the blocks that are open around them, and what has to come next. What an
assembly does with a token does not depend on the tokens after it; only the fault of a token that
does not fit asks whether the script has ended. `Assembly.finish` carries an assembly through a
whole layout.
-/

namespace NovelScript

/-- A menu of which some lines were read. -/
structure OpenMenu where
  name : Option LabelName
  keyword : Span
  caption : Option Say := none
  choices : List Choice := []

/-- The menu as a statement. -/
def OpenMenu.statement (m : OpenMenu) : Statement :=
  .menu m.name m.caption m.choices
    (m.keyword.cover ((m.choices.map Choice.span).getLastD m.keyword))

/-- A branch of which the first block and some further conditions were read. -/
structure OpenBranch where
  condition : Expression
  keyword : Span
  body : Block
  elifs : List ElifClause := []

/-- The branch as a statement, with its last clause if there is one. -/
def OpenBranch.statement (b : OpenBranch) (otherwise : Option Block) : Statement :=
  let last := match otherwise with
    | some block => block.span
    | none => (b.elifs.map fun e => e.body.span).getLastD b.body.span
  .branch b.condition b.body b.elifs otherwise (b.keyword.cover last)

/-- The line that a block belongs to. -/
inductive Owner where
  | label (name : LabelName) (keyword : Span)
  | loop (condition : Expression) (keyword : Span)
  | branch (condition : Expression) (keyword : Span)
  | elif (branch : OpenBranch) (condition : Expression) (keyword : Span)
  | otherwise (branch : OpenBranch)
  | choice (menu : OpenMenu) (text : Lexeme) (condition : Option Expression)

/-- What has to come next. -/
inductive Stage where
  /-- The line of a statement. -/
  | line
  /-- Whatever follows a statement. -/
  | after (statement : Statement)
  /-- A further clause of a branch, or whatever follows the branch. -/
  | clause (branch : OpenBranch)
  /-- The opening of the block of a line. -/
  | block (owner : Owner)
  /-- The opening of a menu. -/
  | menu (menu : OpenMenu)
  /-- The caption of a menu or its first choice. -/
  | caption (menu : OpenMenu)
  /-- The separator between the caption and the choices. -/
  | captioned (menu : OpenMenu)
  /-- The line of a choice. -/
  | choice (menu : OpenMenu)
  /-- A further choice or the closing of the menu. -/
  | chosen (menu : OpenMenu)

/-- What comes after a line. -/
def Head.stage : Head → Stage
  | simple action span => .after (.simple action span)
  | label name keyword => .block (.label name keyword)
  | branch condition keyword => .block (.branch condition keyword)
  | loop condition keyword => .block (.loop condition keyword)
  | menu name keyword => .menu { name, keyword }

/-- What comes after the block of a line. -/
def Owner.close (block : Block) : Owner → Stage
  | label name keyword => .after (.label name block (keyword.cover block.span))
  | loop condition keyword => .after (.loop condition block (keyword.cover block.span))
  | branch condition keyword => .clause { condition, keyword, body := block }
  | elif b condition keyword =>
    .clause { b with elifs := b.elifs ++ [⟨condition, block, keyword.cover block.span⟩] }
  | otherwise b => .after (b.statement (some block))
  | choice m text condition =>
    let c : Choice := ⟨Reader.literalOf text, condition, block, text.span.cover block.span⟩
    .chosen { m with choices := m.choices ++ [c] }

/-- A tree of which some tokens were read: what has to come next, the statements of the innermost
open block before it, and for each block around it the line it belongs to and the statements before
that line. -/
structure Assembly where
  stage : Stage
  done : List Statement
  outer : List (Owner × List Statement)

/-- What a token comes to. -/
inductive Move where
  /-- The token fits. -/
  | on (a : Assembly)
  /-- The script is complete. -/
  | complete (statements : List Statement)
  /-- Something else has to stand where the token is. -/
  | refuse (what : String)
  /-- The token is at fault, or the line it holds. -/
  | fault (f : Fault)

namespace Assembly

/-- The state before the first token. -/
def initial : Assembly := ⟨.line, [], []⟩

/-- Reads the line in a token and goes on to what follows it. -/
def readLine {α : Type} (reader : Reader α) (next : α → Move) (what : String) (t : LayoutToken) :
    Move :=
  match t.mark with
  | .text content =>
    match reader (.ofContent content t.place) with
    | .ok a _ => next a
    | .error f _ => .fault f
  | _ => .refuse what

/-- Takes a token that must have the given tag. -/
def require (tag : Tag) (next : Assembly) (t : LayoutToken) : Move :=
  if t.tag = tag then .on next else .refuse tag.phrase

/-- Looks at the line in a token, which is read as `other` if the reader finds nothing there. -/
def lookAt (reader : Reader Bool) (next other : LayoutToken → Move) (t : LayoutToken) : Move :=
  match t.mark with
  | .text content =>
    match reader (.ofContent content t.place) with
    | .ok true _ => next t
    | .ok false _ => other t
    | .error f _ => .fault f
  | _ => other t

/-- The tag of the token that closes the innermost sequence of statements. -/
def closer (a : Assembly) : Tag := if a.outer.isEmpty then .eof else .dedent

/-- Takes a token where a statement has to start. -/
def onLine (a : Assembly) (t : LayoutToken) : Move :=
  if t.mark = .eof ∧ a.outer = [] then
    if a.done.isEmpty then .refuse "at least one statement" else .complete a.done
  else readLine Reader.head (fun h => .on { a with stage := h.stage }) "a statement" t

/-- Takes the token that closes the innermost sequence of statements. -/
def close (a : Assembly) : Move :=
  match a.outer with
  | [] => .complete a.done
  | (owner, done) :: outer =>
    .on ⟨owner.close ⟨a.done, Parser.extentOf a.done⟩, done, outer⟩

/-- Takes the token after a statement. -/
def onEnd (a : Assembly) (s : Statement) (t : LayoutToken) : Move :=
  let a' : Assembly := ⟨.line, a.done ++ [s], a.outer⟩
  if t.tag = a.closer then a'.close
  else if s.isCompound then a'.onLine t
  else require .newline a' t

/-- Takes the token after the last further condition of a branch. -/
def onElse (a : Assembly) (b : OpenBranch) (t : LayoutToken) : Move :=
  lookAt (Reader.startsClause "else")
    (readLine Reader.elseHead (fun _ => .on { a with stage := .block (.otherwise b) })
      "a statement")
    (a.onEnd (b.statement none)) t

/-- Takes the token after a block of a branch. -/
def onElif (a : Assembly) (b : OpenBranch) (t : LayoutToken) : Move :=
  lookAt (Reader.startsClause "elif")
    (readLine Reader.elifHead
      (fun (condition, keyword) => .on { a with stage := .block (.elif b condition keyword) })
      "a statement")
    (a.onElse b) t

/-- Takes the line of a choice. -/
def onChoice (a : Assembly) (m : OpenMenu) (t : LayoutToken) : Move :=
  readLine Reader.choiceHead
    (fun (text, condition) => .on { a with stage := .block (.choice m text condition) })
    "a statement" t

/-- Takes a token that is no fault of the indentation. -/
def take (a : Assembly) (t : LayoutToken) : Move :=
  match a.stage with
  | .line => a.onLine t
  | .after s => a.onEnd s t
  | .clause b => a.onElif b t
  | .block owner => require .indent ⟨.line, [], (owner, a.done) :: a.outer⟩ t
  | .menu m => require .indent { a with stage := .caption m } t
  | .caption m =>
    lookAt (Option.isSome <$> Reader.say?)
      (readLine Reader.captionHead
        (fun caption => .on { a with stage := .captioned { m with caption } }) "a statement")
      (a.onChoice m) t
  | .captioned m =>
    if t.mark = .dedent then .refuse "a menu choice"
    else require .newline { a with stage := .choice m } t
  | .choice m => a.onChoice m t
  | .chosen m =>
    if t.mark = .dedent then .on { a with stage := .after m.statement } else a.onChoice m t

/-- Takes the next token. -/
def move (a : Assembly) (t : LayoutToken) : Move :=
  match t.mark with
  | .fault cause => .fault ⟨.layout cause, t.place.wideSpot⟩
  | _ => a.take t

/-- Takes all tokens. A layout without tokens is at its end. -/
def finish (a : Assembly) : List LayoutToken → Except Fault (List Statement)
  | [] =>
    match a.move (Progress.next { rest := [] }) with
    | .on _ => .error (Progress.refusal { rest := [] } "a statement")
    | .complete statements => .ok statements
    | .refuse what => .error (Progress.refusal { rest := [] } what)
    | .fault f => .error f
  | t :: ts =>
    match a.move t with
    | .on a' => a'.finish ts
    | .complete statements => .ok statements
    | .refuse what => .error (Progress.refusal { rest := t :: ts } what)
    | .fault f => .error f

end Assembly

end NovelScript
