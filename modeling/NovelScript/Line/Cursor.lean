import NovelScript.Line.Number
import NovelScript.Line.Bracket

/-!
# Reading a line

A `Cursor` is a position in the text of one line. Each reader skips blanks and then either takes a
lexeme or finds none, in which case the cursor stays where the blanks end. Readers are run on
demand, so the same characters may be read as a keyword in one place and as a name in another.
-/

namespace NovelScript.Line

/-- A position in the content of a line, and the lexeme read last. -/
structure Cursor where
  content : List Char
  /-- The place of the content. -/
  line : Int
  column : Int
  start : Int
  pos : Nat := 0
  last : Option Lexeme := none
  deriving DecidableEq, Repr

namespace Cursor

/-- A cursor at the start of a content that stands at the given place. -/
def ofContent (content : List Char) (place : Place) : Cursor :=
  { content, line := place.line, column := place.column, start := place.start }

/-- The text from the cursor on. -/
def rest (c : Cursor) : List Char := c.content.drop c.pos

/-- The place of the next `n` characters. -/
def ahead (c : Cursor) (n : Nat) : Place :=
  ⟨c.line, c.column + c.pos, c.start + c.pos, c.start + c.pos + n⟩

/-- The spot `n` characters ahead of the cursor. -/
def spotAt (c : Cursor) (n : Nat) : Spot :=
  { line := c.line, column := c.column + c.pos + n, offset := some (c.start + c.pos + n) }

/-- The cursor after the blanks that lie ahead. -/
def skipBlanks (c : Cursor) : Cursor :=
  { c with pos := c.pos + (c.rest.takeWhile Text.isInline).length }

/-- The cursor after the next `n` characters, which are the given word, and that lexeme. -/
def take (c : Cursor) (n : Nat) (word : Word) : Lexeme × Cursor :=
  let lexeme : Lexeme := ⟨word, c.ahead n⟩
  (lexeme, { c with pos := c.pos + n, last := some lexeme })

end Cursor

end NovelScript.Line

namespace NovelScript

open Line

/-- A computation that reads a line. The cursor reached is known also when it fails. -/
abbrev Reader (α : Type) := EStateM Fault Cursor α

namespace Reader

/-- Skips the blanks ahead. -/
def skip : Reader Unit := modify Cursor.skipBlanks

/-- The character at the cursor. -/
def char? : Reader (Option Char) := do return (← get).rest.head?

/-- Whether nothing but blanks and a comment is left. Skips the blanks. -/
def atEnd : Reader Bool := do
  skip
  return match ← char? with
    | none => true
    | some c => c == '#'

/-- Takes the next `n` characters as the given word. -/
def take (n : Nat) (word : Word) : Reader Lexeme :=
  modifyGet fun c => c.take n word

/-- Fails because of something noticed ahead of the cursor. -/
def failAt {α : Type} (stray : Stray) : Reader α := do
  throw ⟨stray.cause, (← get).spotAt stray.position⟩

/-- The name at the cursor, which stays there. -/
def peekName : Reader (Option (List Char)) := do
  skip
  return name? (← get).rest

/-- Reads a name. -/
def name : Reader (Option Lexeme) := do
  match ← peekName with
  | some n => some <$> take n.length (.name n)
  | none => return none

/-- Reads the name `k` as a keyword. -/
def keyword (k : List Char) : Reader (Option Lexeme) := do
  if (← peekName) = some k then some <$> take k.length (.keyword k)
  else return none

/-- Whether the punctuation `p` is at the cursor. The sign `=` is not found within `==`. -/
def peekPunct (p : List Char) : Reader Bool := do
  skip
  let c ← get
  return c.pos ≤ c.content.length && p.isPrefixOf c.rest
    && !(p == ['='] && ['=', '='].isPrefixOf c.rest)

/-- Reads the punctuation `p`. -/
def punct (p : List Char) : Reader (Option Lexeme) := do
  if ← peekPunct p then some <$> take p.length (.punct p)
  else return none

/-- Reads a string literal. -/
def string : Reader (Option Lexeme) := do
  skip
  let c ← get
  match c.rest with
  | [] => return none
  | q :: rest =>
    if isQuote q then
      match Literal.body? q rest with
      | some (value, n) => some <$> take (n + 1) (.string value (c.rest.take (n + 1)))
      | none => failAt ⟨0, .unterminatedString⟩
    else return none

/-- Reads a number. -/
def number : Reader (Option Lexeme) := do
  skip
  match number? (← get).rest with
  | some n => some <$> take n.length (.fragment n)
  | none => return none

/-- Takes a fragment of the length that was found, if any was found. -/
def takeFragment : Except Stray (Option (List Char)) → Reader (Option Lexeme)
  | .ok (some source) => some <$> take source.length (.fragment source)
  | .ok none => return none
  | .error stray => failAt stray

/-- Reads a bracket group. -/
def group : Reader (Option Lexeme) := do
  skip
  takeFragment (group? (← get).rest)

/-- Reads a fragment up to a colon outside brackets, a comment or the end of the line. -/
def fragment : Reader (Option Lexeme) := do
  skip
  takeFragment (fragment? (← get).rest)

end Reader

end NovelScript
