import NovelScript.Grammar.Words

/-!
# Spoken lines

A line is spoken when it is a string literal, or a name with attributes and then a string literal,
and nothing else. This is tried before everything else, so any keyword can be the name of a speaker.
-/

namespace NovelScript.Reader

/-- Reads an attribute of a speaker, which a minus sign negates. -/
def sayAttribute? : Reader (Option SayAttribute) := do
  let mark := (← get).pos
  let minus ← punct ['-']
  match ← name with
  | none =>
    modify fun c => { c with pos := mark }
    return none
  | some n =>
    return some ⟨n.value, minus.isSome, (minus.getD n).span.cover n.span⟩

/-- Reads the attributes after an `@`. Without an attribute the `@` is left where it is. -/
def temporaryAttributes : Reader (List SayAttribute) := do
  let mark := (← get).pos
  match ← punct ['@'] with
  | none => return []
  | some _ =>
    let attributes ← many sayAttribute?
    if attributes.isEmpty then modify fun c => { c with pos := mark }
    return attributes

/-- Reads the whole line as a spoken line, if it is one. If not, the cursor returns. -/
def say? : Reader (Option Say) := do
  let mark := (← get).pos
  match ← string with
  | some what =>
    if ← atEnd then return some ⟨none, literalOf what, what.span⟩
    modify fun c => { c with pos := mark }
    return none
  | none =>
    match ← name with
    | none => return none
    | some who =>
      let attributes ← many sayAttribute?
      let temporary ← temporaryAttributes
      match ← string with
      | some what =>
        if ← atEnd then
          let speaker : Speaker := ⟨who.value, attributes, temporary⟩
          return some ⟨some speaker, literalOf what, who.span.cover what.span⟩
        modify fun c => { c with pos := mark }
        return none
      | none =>
        modify fun c => { c with pos := mark }
        return none

end NovelScript.Reader
