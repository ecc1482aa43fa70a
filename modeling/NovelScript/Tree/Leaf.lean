import NovelScript.Span

/-!
# Leaves of the syntax tree

The parts of a statement that hold no statements themselves: expressions, string literals, label
names, spoken lines and image specifications. An expression belongs to another language and is kept
as it is written.
-/

namespace NovelScript

/-- How the extent of an expression was found. -/
inductive ExpressionKind where
  | name
  | string
  | number
  /-- A bracket group. -/
  | group
  /-- A name with a bracket group directly after it. -/
  | call
  /-- Everything up to the end of the line or a colon. -/
  | code
  deriving DecidableEq, Repr

/-- An expression as written. -/
structure Expression where
  text : List Char
  kind : ExpressionKind
  span : Span
  deriving DecidableEq, Repr

/-- A string literal: its value, the mark around it and the literal as written. -/
structure StringLiteral where
  value : List Char
  quote : Char
  raw : List Char
  span : Span
  deriving DecidableEq, Repr

/-- How a label is named. -/
inductive LabelScope where
  /-- A plain name, for a label of the whole script. -/
  | plain
  /-- A name after a dot, for a label within the label before it. -/
  | inner
  /-- A name within the label of another name. -/
  | within (scope : List Char)
  deriving DecidableEq, Repr

/-- The name of a label, where it is defined or referred to. -/
structure LabelName where
  scope : LabelScope
  name : List Char
  span : Span
  deriving DecidableEq, Repr

/-- Whether the label name is written with the name of another label before it. -/
def LabelName.isQualified (l : LabelName) : Bool :=
  match l.scope with
  | .within _ => true
  | .plain | .inner => false

/-- The label name as it is written. -/
def LabelName.text (l : LabelName) : List Char :=
  match l.scope with
  | .plain => l.name
  | .inner => '.' :: l.name
  | .within scope => scope ++ '.' :: l.name

/-- An attribute of the image of a speaker; a negated one is taken away. -/
structure SayAttribute where
  name : List Char
  negated : Bool
  span : Span
  deriving DecidableEq, Repr

/-- The attribute as it is written. -/
def SayAttribute.text (a : SayAttribute) : List Char :=
  if a.negated then '-' :: a.name else a.name

/-- The one who speaks, with the attributes of the image, those that stay and those that hold for
one line. -/
structure Speaker where
  name : List Char
  attributes : List SayAttribute
  temporary : List SayAttribute
  deriving DecidableEq, Repr

/-- A spoken line; narration has no speaker. -/
structure Say where
  speaker : Option Speaker
  what : StringLiteral
  span : Span
  deriving DecidableEq, Repr

/-- The words that start an image modifier. -/
inductive ModifierKind where
  | at | onlayer | as | zorder | behind
  deriving DecidableEq, Repr

namespace ModifierKind

/-- All modifiers. -/
def all : List ModifierKind := [.at, .onlayer, .as, .zorder, .behind]

/-- The keyword of a modifier. -/
def keyword : ModifierKind → List Char
  | .at => "at".toList
  | .onlayer => "onlayer".toList
  | .as => "as".toList
  | .zorder => "zorder".toList
  | .behind => "behind".toList

end ModifierKind

/-- What a modifier of an image says. -/
inductive ModifierClause where
  /-- Where the image is shown. -/
  | transform (expression : Expression)
  /-- On which layer. -/
  | layer (name : List Char)
  /-- Under which tag. -/
  | tag (name : List Char)
  /-- At which height in the stack. -/
  | order (expression : Expression)
  /-- Behind which images. -/
  | behind (tags : List (List Char))
  deriving DecidableEq, Repr

/-- The kind of a modifier. -/
def ModifierClause.kind : ModifierClause → ModifierKind
  | transform _ => .at
  | layer _ => .onlayer
  | tag _ => .as
  | order _ => .zorder
  | behind _ => .behind

/-- A modifier of an image. -/
structure Modifier where
  clause : ModifierClause
  span : Span
  deriving DecidableEq, Repr

/-- The name of an image, which has one word or more, and the modifiers in the order written. -/
structure ImageSpec where
  names : List (List Char)
  modifiers : List Modifier
  span : Span
  deriving DecidableEq, Repr

namespace ImageSpec

/-- The tag of an image: the first word of its name. -/
def tag (i : ImageSpec) : List Char := i.names.headD []

/-- The modifiers of one kind. -/
def modifiersOf (i : ImageSpec) (kind : ModifierKind) : List Modifier :=
  i.modifiers.filter fun m => m.clause.kind = kind

end ImageSpec

end NovelScript
