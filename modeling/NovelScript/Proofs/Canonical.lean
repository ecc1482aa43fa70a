import NovelScript.Grammar.Head
import NovelScript.Proofs.Indented
import NovelScript.Tree.Summary

/-!
# The canonical form of a script

A tree can be written as a script again. Its canonical form has one line for each head, with one
space between the words of the head and four spaces of indentation for each block around it. Trees
that differ in their spans only have the same `bare` tree.
-/

namespace NovelScript

/-! Lines. -/

/-- A spoken line as it stands in a script. -/
def Say.written (s : Say) : List Char :=
  match s.speaker with
  | some speaker => speaker.summary ++ ' ' :: s.what.raw
  | none => s.what.raw

/-- The line of an action. -/
def Action.written : Action → List Char
  | .say line => line.written
  | a => a.summary

/-- The line of a statement, without the blocks it owns. -/
def Statement.heading : Statement → List Char
  | .simple action _ => action.written
  | s => s.summary ++ [':']

/-- The line of a head. -/
def Head.written : Head → List Char
  | simple action _ => action.written
  | label name _ => spaced ["label".toList, name.text] ++ [':']
  | branch condition _ => spaced ["if".toList, condition.text] ++ [':']
  | loop condition _ => spaced ["while".toList, condition.text] ++ [':']
  | menu name _ => spaced ("menu".toList :: (name.map LabelName.text).toList) ++ [':']

/-- The line of a further condition of a branch. -/
def elifLine (condition : Expression) : List Char :=
  spaced ["elif".toList, condition.text] ++ [':']

/-- The line of the last clause of a branch. -/
def elseLine : List Char := "else:".toList

/-- The line of a choice. -/
def choiceLine (text : StringLiteral) (condition : Option Expression) : List Char :=
  let words := match condition with
    | some c => ["if".toList, c.text]
    | none => []
  spaced (text.raw :: words) ++ [':']

/-! Scripts, as lines with the number of blocks around them. -/

/-- The caption of a menu. -/
def writtenCaption (depth : Nat) : Option Say → List (Nat × List Char)
  | some line => [(depth, line.written)]
  | none => []

mutual

/-- The lines of a statement. -/
def Statement.written (depth : Nat) : Statement → List (Nat × List Char)
  | .simple action span => [(depth, (Statement.simple action span).heading)]
  | .label name body span =>
    (depth, (Statement.label name body span).heading) :: body.written (depth + 1)
  | .loop condition body span =>
    (depth, (Statement.loop condition body span).heading) :: body.written (depth + 1)
  | .branch condition body elifs none span =>
    (depth, (Statement.branch condition body elifs none span).heading) ::
      (body.written (depth + 1) ++ writtenElifs depth elifs)
  | .branch condition body elifs (some block) span =>
    (depth, (Statement.branch condition body elifs (some block) span).heading) ::
      (body.written (depth + 1) ++ writtenElifs depth elifs ++
        (depth, elseLine) :: block.written (depth + 1))
  | .menu name caption choices span =>
    (depth, (Statement.menu name caption choices span).heading) ::
      (writtenCaption (depth + 1) caption ++ writtenChoices (depth + 1) choices)

/-- The lines of a block. -/
def Block.written (depth : Nat) : Block → List (Nat × List Char)
  | ⟨statements, _⟩ => writtenAll depth statements

/-- The lines of statements. -/
def writtenAll (depth : Nat) : List Statement → List (Nat × List Char)
  | [] => []
  | s :: rest => s.written depth ++ writtenAll depth rest

/-- The lines of the further conditions of a branch. -/
def writtenElifs (depth : Nat) : List ElifClause → List (Nat × List Char)
  | [] => []
  | ⟨condition, body, _⟩ :: rest =>
    (depth, elifLine condition) :: (body.written (depth + 1) ++ writtenElifs depth rest)

/-- The lines of the choices of a menu. -/
def writtenChoices (depth : Nat) : List Choice → List (Nat × List Char)
  | [] => []
  | ⟨text, condition, body, _⟩ :: rest =>
    (depth, choiceLine text condition) :: (body.written (depth + 1) ++ writtenChoices depth rest)

end

/-- The text of lines that are indented by four spaces for each block around them. -/
def textOf (lines : List (Nat × List Char)) : List Char :=
  lines.flatMap fun l => indented (4 * l.1) l.2 ++ ['\n']

/-- A script in its canonical form. -/
def SourceFile.canonical (f : SourceFile) : List Char := textOf (writtenAll 0 f.statements)

/-! Trees without spans. -/

/-- A span that says nothing. -/
def Span.blank : Span := ⟨0, 0, 0, 0, 0, 0⟩

def Expression.bare (e : Expression) : Expression := { e with span := .blank }

def StringLiteral.bare (l : StringLiteral) : StringLiteral := { l with span := .blank }

def LabelName.bare (n : LabelName) : LabelName := { n with span := .blank }

def SayAttribute.bare (a : SayAttribute) : SayAttribute := { a with span := .blank }

def Speaker.bare (s : Speaker) : Speaker :=
  ⟨s.name, s.attributes.map SayAttribute.bare, s.temporary.map SayAttribute.bare⟩

def Say.bare (s : Say) : Say := ⟨s.speaker.map Speaker.bare, s.what.bare, .blank⟩

def ModifierClause.bare : ModifierClause → ModifierClause
  | .transform e => .transform e.bare
  | .order e => .order e.bare
  | c => c

def Modifier.bare (m : Modifier) : Modifier := ⟨m.clause.bare, .blank⟩

def ImageSpec.bare (i : ImageSpec) : ImageSpec := ⟨i.names, i.modifiers.map Modifier.bare, .blank⟩

def Action.bare : Action → Action
  | .say line => .say line.bare
  | .showImage spec effect => .showImage spec.bare (effect.map Expression.bare)
  | .hideImage spec effect => .hideImage spec.bare (effect.map Expression.bare)
  | .scene spec effect => .scene (spec.map ImageSpec.bare) (effect.map Expression.bare)
  | .transition effect => .transition effect.bare
  | .jump target => .jump target.bare
  | .call target site => .call target.bare (site.map LabelName.bare)
  | .leave value => .leave (value.map Expression.bare)
  | .pass => .pass
  | .define name value => .define name value.bare
  | .default name value => .default name value.bare
  | .image names value => .image names value.bare

/-- A head without its spans. -/
def Head.bare : Head → Head
  | simple action _ => .simple action.bare .blank
  | label name _ => .label name.bare .blank
  | branch condition _ => .branch condition.bare .blank
  | loop condition _ => .loop condition.bare .blank
  | menu name _ => .menu (name.map LabelName.bare) .blank

mutual

def Statement.bare : Statement → Statement
  | .simple action _ => .simple action.bare .blank
  | .label name body _ => .label name.bare body.bare .blank
  | .loop condition body _ => .loop condition.bare body.bare .blank
  | .branch condition body elifs none _ =>
    .branch condition.bare body.bare (bareElifs elifs) none .blank
  | .branch condition body elifs (some block) _ =>
    .branch condition.bare body.bare (bareElifs elifs) (some block.bare) .blank
  | .menu name caption choices _ =>
    .menu (name.map LabelName.bare) (caption.map Say.bare) (bareChoices choices) .blank

def Block.bare : Block → Block
  | ⟨statements, _⟩ => ⟨bareAll statements, .blank⟩

def bareAll : List Statement → List Statement
  | [] => []
  | s :: rest => s.bare :: bareAll rest

def bareElifs : List ElifClause → List ElifClause
  | [] => []
  | ⟨condition, body, _⟩ :: rest => ⟨condition.bare, body.bare, .blank⟩ :: bareElifs rest

def bareChoices : List Choice → List Choice
  | [] => []
  | ⟨text, condition, body, _⟩ :: rest =>
    ⟨text.bare, condition.map Expression.bare, body.bare, .blank⟩ :: bareChoices rest

end

/-- A script without its spans and its file. -/
def SourceFile.bare (f : SourceFile) : SourceFile := ⟨bareAll f.statements, none, .blank⟩

theorem bareAll_eq_map (ss : List Statement) : bareAll ss = ss.map Statement.bare := by
  induction ss with
  | nil => rfl
  | cons s ss ih => rw [bareAll, ih, List.map_cons]

def ElifClause.bare (e : ElifClause) : ElifClause := ⟨e.condition.bare, e.body.bare, .blank⟩

def Choice.bare (c : Choice) : Choice :=
  ⟨c.text.bare, c.condition.map Expression.bare, c.body.bare, .blank⟩

theorem bareElifs_eq_map (es : List ElifClause) : bareElifs es = es.map ElifClause.bare := by
  induction es with
  | nil => rfl
  | cons e es ih =>
    cases e
    rw [bareElifs, ih]
    rfl

theorem bareChoices_eq_map (cs : List Choice) : bareChoices cs = cs.map Choice.bare := by
  induction cs with
  | nil => rfl
  | cons c cs ih =>
    cases c
    rw [bareChoices, ih]
    rfl

/-! The words of a line. -/

/-- Words with a space before each. -/
def following (ws : List (List Char)) : List Char := ws.flatMap (' ' :: ·)

theorem spaced_cons (w : List Char) (ws : List (List Char)) :
    spaced (w :: ws) = w ++ following ws := by
  induction ws generalizing w with
  | nil => simp [spaced, Text.joinWith, following]
  | cons v ws ih =>
    have hjoin : spaced (w :: v :: ws) = w ++ [' '] ++ spaced (v :: ws) :=
      Text.joinWith_cons [' '] (List.cons_ne_nil v ws)
    rw [hjoin, ih]
    simp [following]

@[simp] theorem following_nil : following [] = [] := rfl

@[simp] theorem following_cons (w : List Char) (ws : List (List Char)) :
    following (w :: ws) = ' ' :: (w ++ following ws) := rfl

@[simp] theorem following_append (ws vs : List (List Char)) :
    following (ws ++ vs) = following ws ++ following vs := List.flatMap_append ..

end NovelScript
