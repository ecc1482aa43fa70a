import NovelScript.Span
import NovelScript.Text.Blank
import NovelScript.Text.Lines

/-!
# Content lines

The layout of a script is decided by its content lines, the lines that hold more than blanks and a
comment. `contentLines` finds them with their numbers and offsets.
-/

namespace NovelScript

/-- A line with content: its number, the offset of its first character, the white space that
indents it and what follows up to the end of the line. -/
structure ContentLine where
  number : Nat
  lineStart : Nat
  indent : List Char
  content : List Char
  deriving DecidableEq, Repr

namespace ContentLine

/-- The offset of the first character of the content. -/
def start (l : ContentLine) : Nat := l.lineStart + l.indent.length

/-- The place of the content. -/
def place (l : ContentLine) : Place :=
  ⟨l.number, l.indent.length + 1, l.start, l.start + l.content.length⟩

/-- The place of the indentation. -/
def indentPlace (l : ContentLine) : Place :=
  ⟨l.number, 1, l.lineStart, l.start⟩

/-- Reads a line that ends before a line feed. A carriage return at its end belongs to the line
break. Lines of blanks and lines with nothing but a comment have no content. -/
def ofLine? (number lineStart : Nat) (line : List Char) : Option ContentLine :=
  let line := if line.getLast? = some '\r' then line.dropLast else line
  let content := line.dropWhile Text.isIndent
  if content.all Text.isBlank || content.head? = some '#' then none
  else some ⟨number, lineStart, line.takeWhile Text.isIndent, content⟩

end ContentLine

/-- The content lines among the lines from the given number and offset on. -/
def contentLinesFrom : (number lineStart : Nat) → List (List Char) → List ContentLine
  | _, _, [] => []
  | number, lineStart, line :: rest =>
    let later := contentLinesFrom (number + 1) (lineStart + line.length + 1) rest
    match ContentLine.ofLine? number lineStart line with
    | some l => l :: later
    | none => later

/-- The content lines of a script. -/
def contentLines (text : List Char) : List ContentLine :=
  contentLinesFrom 1 0 (Text.lines text)

end NovelScript
