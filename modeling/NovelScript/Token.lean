import NovelScript.Span
import NovelScript.Text.Quoted

/-!
# Tokens

A script is read in two layers. Its layout is a sequence of `LayoutToken`s: openings and closings of
blocks, separators between lines, and the text of each line. The text of one line is read into
`Lexeme`s. Both kinds of token have a tag, which names what they are.
-/

namespace NovelScript

/-- What a token of either layer is called. -/
inductive Tag where
  | indent | dedent | newline | error | text | eof
  | name | string | keyword | punct | fragment
  deriving DecidableEq, Repr

namespace Tag

/-- All tags, those of the layout first. -/
def all : List Tag :=
  [indent, dedent, newline, error, text, eof, name, string, keyword, punct, fragment]

/-- The tag in capitals, as token listings show it. -/
def label : Tag → String
  | indent => "INDENT"
  | dedent => "DEDENT"
  | newline => "NEWLINE"
  | error => "ERROR"
  | text => "TEXT"
  | eof => "EOF"
  | name => "NAME"
  | string => "STRING"
  | keyword => "KEYWORD"
  | punct => "PUNCT"
  | fragment => "EXPR_FRAGMENT"

/-- The tag in plain words, as messages name what was expected. -/
def phrase : Tag → String
  | indent => "indent"
  | dedent => "dedent"
  | newline => "newline"
  | eof => "end of input"
  | t => t.label

end Tag

/-- Why the leading white space of a line is no valid indentation. -/
inductive LayoutFault where
  /-- The white space holds both tabs and spaces. -/
  | mixed
  /-- The line returns to a width at which no block is open. -/
  | inconsistent (expected width : Int)
  deriving DecidableEq, Repr

/-- The message that goes with a fault of the layout. -/
def LayoutFault.message : LayoutFault → String
  | mixed => "Indentation mixes tabs and spaces"
  | inconsistent expected width =>
    s!"Inconsistent indentation (expected {expected} columns, got {width})"

/-- What a token of the layout says. -/
inductive LayoutMark where
  /-- A block opens. -/
  | indent
  /-- A block closes. -/
  | dedent
  /-- Two lines of one block are apart. -/
  | newline
  /-- The indentation is at fault. -/
  | fault (cause : LayoutFault)
  /-- A line has this content. -/
  | text (content : List Char)
  /-- The script ends. -/
  | eof
  deriving DecidableEq, Repr

/-- A token of the layout. -/
structure LayoutToken where
  mark : LayoutMark
  place : Place
  deriving DecidableEq, Repr

/-- The tag of a mark. -/
def LayoutMark.tag : LayoutMark → Tag
  | indent => .indent
  | dedent => .dedent
  | newline => .newline
  | fault _ => .error
  | text _ => .text
  | eof => .eof

namespace LayoutToken

/-- The tag of a token of the layout. -/
def tag (t : LayoutToken) : Tag := t.mark.tag

/-- The text that a listing shows for the token. -/
def value (t : LayoutToken) : List Char :=
  match t.mark with
  | .newline => ['\\', 'n']
  | .fault cause => cause.message.toList
  | .text content => content
  | .indent | .dedent | .eof => []

end LayoutToken

/-- What a lexeme is and says. -/
inductive Word where
  | name (spelling : List Char)
  /-- A quoted string: the value with its escapes resolved and the literal as written. -/
  | string (value raw : List Char)
  | keyword (spelling : List Char)
  | punct (spelling : List Char)
  /-- A piece of an expression, as written. -/
  | fragment (source : List Char)
  deriving DecidableEq, Repr

namespace Word

/-- The tag of a word. -/
def tag : Word → Tag
  | name _ => .name
  | string .. => .string
  | keyword _ => .keyword
  | punct _ => .punct
  | fragment _ => .fragment

/-- What the word stands for: the value of a string, the spelling of anything else. -/
def value : Word → List Char
  | name s | keyword s | punct s | fragment s => s
  | string v _ => v

/-- The literal as written, for strings only. -/
def raw? : Word → Option (List Char)
  | string _ raw => some raw
  | _ => none

end Word

/-- A token within one line. -/
structure Lexeme where
  word : Word
  place : Place
  deriving DecidableEq, Repr

namespace Lexeme

/-- The span of a lexeme. -/
def span (l : Lexeme) : Span := l.place.span

/-- What the lexeme stands for. -/
def value (l : Lexeme) : List Char := l.word.value

end Lexeme

/-- One line about a token: its tag, its text in quotation marks and where it starts. -/
def summarizeToken (tag : Tag) (value : List Char) (place : Place) : String :=
  s!"Token({tag.label}, {String.ofList (Text.quoted value)}, {place.line}:{place.column})"

end NovelScript
