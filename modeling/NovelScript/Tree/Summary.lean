import NovelScript.Text.Lines
import NovelScript.Tree.Statement

/-!
# Summaries of statements

A summary tells a statement on one line, without the blocks it owns. It has the wording of the
source, with one space between its parts.
-/

namespace NovelScript

/-- Joins words with spaces. -/
def spaced (words : List (List Char)) : List Char := Text.joinWith [' '] words

/-- The words of a modifier. -/
def ModifierClause.words (c : ModifierClause) : List (List Char) :=
  c.kind.keyword :: match c with
    | .transform e | .order e => [e.text]
    | .layer name | .tag name => [name]
    | .behind tags => tags

namespace ImageSpec

/-- The name of an image. -/
def name (i : ImageSpec) : List Char := spaced i.names

/-- The name of an image and its modifiers. -/
def summary (i : ImageSpec) : List Char :=
  spaced (i.name :: i.modifiers.map fun m => spaced m.clause.words)

end ImageSpec

/-- The speaker and the attributes; an at sign stands before those that hold for one line. -/
def Speaker.summary (s : Speaker) : List Char :=
  let temporary :=
    if s.temporary.isEmpty then [] else ['@'] :: s.temporary.map SayAttribute.text
  spaced (s.name :: s.attributes.map SayAttribute.text ++ temporary)

/-- The summary of a spoken line. -/
def Say.summary (s : Say) : List Char :=
  match s.speaker with
  | some speaker => "say ".toList ++ speaker.summary ++ ": ".toList ++ s.what.raw
  | none => "say ".toList ++ s.what.raw

/-- The words that a transition adds to a summary. -/
def transitionWords : Option Expression → List (List Char)
  | none => []
  | some e => ["with".toList, e.text]

/-- The summary of an action. -/
def Action.summary (a : Action) : List Char :=
  let keyword := a.kind.text.toList
  match a with
  | .say line => line.summary
  | .showImage spec effect | .hideImage spec effect =>
    spaced (keyword :: spec.summary :: transitionWords effect)
  | .scene spec effect =>
    spaced (keyword :: (spec.map ImageSpec.summary).toList ++ transitionWords effect)
  | .transition effect => spaced [keyword, effect.text]
  | .jump target => spaced [keyword, target.text]
  | .call target site =>
    let from? := match site with
      | none => []
      | some l => ["from".toList, l.text]
    spaced (keyword :: target.text :: from?)
  | .leave value => spaced (keyword :: (value.map Expression.text).toList)
  | .pass => keyword
  | .define name value | .default name value => spaced [keyword, name, ['='], value.text]
  | .image names value => spaced [keyword, spaced names, ['='], value.text]

/-- The summary of a statement. -/
def Statement.summary (s : Statement) : List Char :=
  let keyword := s.kind.text.toList
  match s with
  | .simple action _ => action.summary
  | .label name _ _ => spaced [keyword, name.text]
  | .branch condition .. | .loop condition _ _ => spaced [keyword, condition.text]
  | .menu name _ _ _ => spaced (keyword :: (name.map LabelName.text).toList)

end NovelScript
