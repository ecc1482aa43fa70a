import NovelScript.Json
import NovelScript.Tree.Statement

/-!
# Trees as JSON

Every node of a tree is an object. Its span comes first, then its kind if it has one, then its
parts; a part that is absent is null.
-/

namespace NovelScript

/-- A span as an object. -/
def Span.json (s : Span) : Json :=
  .object [("start", .int s.start), ("end", .int s.stop), ("line", .int s.line),
    ("column", .int s.column), ("end_line", .int s.endLine), ("end_column", .int s.endColumn)]

/-- A node with its span before its other fields. -/
def nodeJson (span : Span) (fields : List (String × Json)) : Json :=
  .object (("span", span.json) :: fields)

/-- A list of words. -/
def wordsJson (words : List (List Char)) : Json := .array (words.map .string)

/-- The word for a kind of expression. -/
def ExpressionKind.text : ExpressionKind → String
  | name => "name"
  | string => "string"
  | number => "number"
  | group => "group"
  | call => "call"
  | code => "python"

/-- An expression as an object. -/
def Expression.json (e : Expression) : Json :=
  nodeJson e.span [("text", .string e.text), ("kind", .string e.kind.text.toList)]

/-- A string literal as an object. -/
def StringLiteral.json (l : StringLiteral) : Json :=
  nodeJson l.span [("value", .string l.value), ("quote", .string [l.quote]), ("raw", .string l.raw)]

/-- A label name as an object. -/
def LabelName.json (l : LabelName) : Json :=
  let scope := match l.scope with
    | .within scope => Json.string scope
    | .plain | .inner => .null
  nodeJson l.span
    [("scope", scope), ("name", .string l.name), ("is_local", .bool (l.scope = .inner))]

/-- An attribute as an object. -/
def SayAttribute.json (a : SayAttribute) : Json :=
  nodeJson a.span [("name", .string a.name), ("negated", .bool a.negated)]

/-- What is said, and by whom, as an object. -/
def Say.contentJson (s : Say) : Json :=
  match s.speaker with
  | some speaker =>
    nodeJson s.span
      [("kind", .string "dialogue".toList), ("who", .string speaker.name),
        ("attributes", .array (speaker.attributes.map SayAttribute.json)),
        ("temporary_attributes", .array (speaker.temporary.map SayAttribute.json)),
        ("what", s.what.json)]
  | none => nodeJson s.span [("kind", .string "narration".toList), ("what", s.what.json)]

/-- A modifier as an object. -/
def Modifier.json (m : Modifier) : Json :=
  let detail := match m.clause with
    | .transform e => ("transform", e.json)
    | .layer name => ("layer", .string name)
    | .tag name => ("tag", .string name)
    | .order e => ("order", e.json)
    | .behind tags => ("tags", wordsJson tags)
  nodeJson m.span [("kind", .string m.clause.kind.keyword), detail]

/-- An image as an object. -/
def ImageSpec.json (i : ImageSpec) : Json :=
  nodeJson i.span
    [("names", wordsJson i.names), ("modifiers", .array (i.modifiers.map Modifier.json))]

/-- The parts of an action. -/
def Action.fields : Action → List (String × Json)
  | say line => [("content", line.contentJson)]
  | showImage spec effect | hideImage spec effect =>
    [("image", spec.json), ("transition", .ofOption Expression.json effect)]
  | scene spec effect =>
    [("image", .ofOption ImageSpec.json spec), ("transition", .ofOption Expression.json effect)]
  | transition effect => [("transition", effect.json)]
  | jump target => [("target", target.json)]
  | call target site =>
    [("target", target.json), ("from_label", .ofOption LabelName.json site)]
  | leave value => [("value", .ofOption Expression.json value)]
  | pass => []
  | define name value | default name value => [("name", .string name), ("value", value.json)]
  | image names value => [("names", wordsJson names), ("value", value.json)]

/-- A statement of the given kind as an object. -/
def StatementKind.node (kind : StatementKind) (span : Span) (fields : List (String × Json)) :
    Json :=
  nodeJson span (("kind", .string kind.text.toList) :: fields)

/-- A spoken line as a statement. -/
def Say.json (s : Say) : Json :=
  StatementKind.say.node s.span (Action.say s).fields

mutual

/-- A statement as an object. -/
def Statement.json : Statement → Json
  | .simple action span => action.kind.node span action.fields
  | .label name body span =>
    StatementKind.label.node span [("name", name.json), ("block", body.json)]
  | .branch condition body elifs none span =>
    StatementKind.branch.node span
      [("condition", condition.json), ("block", body.json), ("elifs", .array (elifsJson elifs)),
        ("else_block", .null)]
  | .branch condition body elifs (some block) span =>
    StatementKind.branch.node span
      [("condition", condition.json), ("block", body.json), ("elifs", .array (elifsJson elifs)),
        ("else_block", block.json)]
  | .loop condition body span =>
    StatementKind.loop.node span [("condition", condition.json), ("block", body.json)]
  | .menu name caption choices span =>
    StatementKind.menu.node span
      [("name", .ofOption LabelName.json name), ("caption", .ofOption Say.json caption),
        ("choices", .array (choicesJson choices))]

/-- A block as an object. -/
def Block.json : Block → Json
  | ⟨statements, span⟩ => nodeJson span [("statements", .array (statementsJson statements))]

/-- Statements as objects. -/
def statementsJson : List Statement → List Json
  | [] => []
  | s :: rest => s.json :: statementsJson rest

/-- A clause of a branch as an object. -/
def ElifClause.json : ElifClause → Json
  | ⟨condition, body, span⟩ =>
    nodeJson span [("condition", condition.json), ("block", body.json)]

/-- Clauses of a branch as objects. -/
def elifsJson : List ElifClause → List Json
  | [] => []
  | e :: rest => e.json :: elifsJson rest

/-- A choice of a menu as an object. -/
def Choice.json : Choice → Json
  | ⟨text, condition, body, span⟩ =>
    nodeJson span
      [("text", text.json), ("condition", .ofOption Expression.json condition),
        ("block", body.json)]

/-- Choices of a menu as objects. -/
def choicesJson : List Choice → List Json
  | [] => []
  | c :: rest => c.json :: choicesJson rest

end

/-- A script as an object. -/
def SourceFile.json (f : SourceFile) : Json :=
  nodeJson f.span
    [("statements", .array (statementsJson f.statements)),
      ("file", .ofOption (fun p => .string p.text) f.file)]

end NovelScript
