import NovelScript.Grammar.Words

/-!
# Images

An image is named by one word or more, up to a word that starts a modifier or the transition. The
modifiers may come in any order and may be repeated.
-/

namespace NovelScript.Reader

/-- The words that end the name of an image. -/
def isStopWord (n : List Char) : Bool :=
  ModifierKind.all.any (fun k => k.keyword == n) || n == "with".toList

/-- Reads one word of the name of an image. -/
def imageWord? : Reader (Option Lexeme) := do
  match ← peekName with
  | none => return none
  | some n => if isStopWord n then return none else name

/-- Reads the words of the name of an image, which are called `what`. -/
def imageWords (what : String) : Reader (Lexeme × List Lexeme) := do
  let first ← required what imageWord?
  return (first, ← many imageWord?)

/-- Reads what follows the keyword of a modifier, with its span. -/
def modifierClause : ModifierKind → Reader (ModifierClause × Span)
  | .at => do
    let e ← simpleExpression "transform"
    return (.transform e, e.span)
  | .onlayer => do
    let l ← expectName "layer name"
    return (.layer l.value, l.span)
  | .as => do
    let t ← expectName "image tag"
    return (.tag t.value, t.span)
  | .zorder => do
    let e ← simpleExpression "zorder expression"
    return (.order e, e.span)
  | .behind => do
    let (first, more) ← imageWords "image tag"
    return (.behind (first.value :: more.map Lexeme.value), (more.getLastD first).span)

/-- Reads a modifier. -/
def modifier? : Reader (Option Modifier) := do
  let next ← peekName
  match ModifierKind.all.find? fun k => next = some k.keyword with
  | none => return none
  | some kind =>
    let start ← expectKeyword (String.ofList kind.keyword)
    let (clause, span) ← modifierClause kind
    return some ⟨clause, start.span.cover span⟩

/-- Reads an image with its modifiers. -/
def imageSpec : Reader ImageSpec := do
  let (first, more) ← imageWords "image name"
  let modifiers ← many modifier?
  let named := (more.getLastD first).span
  let last := (modifiers.map Modifier.span).getLastD named
  return ⟨first.value :: more.map Lexeme.value, modifiers, first.span.cover last⟩

/-- Reads the transition after the word `with`, if there is one. -/
def transition? : Reader (Option Expression) := do
  match ← keyword "with".toList with
  | none => return none
  | some _ => some <$> simpleExpression "transition"

end NovelScript.Reader
