import NovelScript.Token
import NovelScript.Text.Blank

/-!
# Faults

A script is refused for a `Cause` at a `Spot`. The class of a fault, its reason and its message are
functions of the cause alone.
-/

namespace NovelScript

/-- The kind of failure that a caller can branch on. -/
inductive Reason where
  | unterminatedString
  | unterminatedFragment
  | inconsistentDedent
  | mixedIndentation
  | unexpectedToken
  | unexpectedEnd
  | invalidEncoding
  deriving DecidableEq, Repr

namespace Reason

/-- All reasons. -/
def all : List Reason :=
  [unterminatedString, unterminatedFragment, inconsistentDedent, mixedIndentation,
    unexpectedToken, unexpectedEnd, invalidEncoding]

/-- The reason in words. -/
def text : Reason → String
  | unterminatedString => "unterminated string"
  | unterminatedFragment => "unterminated fragment"
  | inconsistentDedent => "inconsistent dedent"
  | mixedIndentation => "mixed indentation"
  | unexpectedToken => "unexpected token"
  | unexpectedEnd => "unexpected end of input"
  | invalidEncoding => "invalid encoding"

end Reason

/-- The layer of the language that refuses a script. -/
inductive FaultClass where
  | general
  /-- A line holds something that is no token. -/
  | lexical
  /-- White space at the start of a line describes no block structure. -/
  | layout
  /-- The tokens fit no statement. -/
  | grammar
  /-- The script ends inside a statement or a block. -/
  | premature
  deriving DecidableEq, Repr

/-- The reason given when none is stated. -/
def FaultClass.defaultReason : FaultClass → Reason
  | general | grammar => .unexpectedToken
  | lexical => .unterminatedString
  | layout => .inconsistentDedent
  | premature => .unexpectedEnd

/-- What a message says was found. -/
inductive Found where
  | endOfLine
  /-- A token of the layout with this tag. -/
  | layout (tag : Tag)
  /-- A piece of text. -/
  | word (w : List Char)
  deriving DecidableEq, Repr

/-- What was found, in words. -/
def Found.text : Found → String
  | endOfLine => "end of line"
  | layout tag => tag.phrase
  | word w => String.ofList (Text.quoted w)

/-- What a message says of a token of the layout: the first word of a line, or the tag. -/
def LayoutToken.found (t : LayoutToken) : Found :=
  match t.mark with
  | .indent | .dedent | .newline | .eof => .layout t.tag
  | .text _ | .fault _ =>
    let first := Text.firstWord t.value
    .word (if first.isEmpty then t.value else first)

/-- Why a script is refused. -/
inductive Cause where
  | unterminatedString
  /-- A bracket closes where another one was open. -/
  | mismatchedBracket (found expected : Char)
  /-- The line ends before a bracket is closed. -/
  | unclosedBracket (expected : Char)
  | layout (fault : LayoutFault)
  /-- Something else stands where `what` has to stand. -/
  | unexpected (what : String) (found : Found)
  /-- The script ends where `what` has to stand. -/
  | ended (what : String)
  /-- The bytes are not valid UTF-8. -/
  | invalidByte (byte : UInt8)
  deriving DecidableEq, Repr

namespace Cause

/-- The class of a fault with this cause. -/
def faultClass : Cause → FaultClass
  | unterminatedString | mismatchedBracket .. | unclosedBracket _ | invalidByte _ => .lexical
  | layout _ => .layout
  | unexpected .. => .grammar
  | ended _ => .premature

/-- The reason of a fault with this cause. -/
def reason : Cause → Reason
  | unterminatedString => .unterminatedString
  | mismatchedBracket .. | unclosedBracket _ => .unterminatedFragment
  | layout .mixed => .mixedIndentation
  | layout (.inconsistent ..) => .inconsistentDedent
  | unexpected .. => .unexpectedToken
  | ended _ => .unexpectedEnd
  | invalidByte _ => .invalidEncoding

/-- The message of a fault with this cause. -/
def message : Cause → String
  | unterminatedString => "Unterminated string literal"
  | mismatchedBracket found expected =>
    let f := String.ofList (Text.quoted [found])
    let e := String.ofList (Text.quoted [expected])
    s!"Mismatched {f} in expression, expected {e}"
  | unclosedBracket expected =>
    let e := String.ofList (Text.quoted [expected])
    s!"Unterminated expression, missing {e}"
  | layout fault => fault.message
  | unexpected what found => s!"Expected {what}, got {found.text}"
  | ended what => s!"Unexpected end of input, expected {what}"
  | invalidByte byte =>
    let digits := String.ofList (Text.hex 2 byte.toNat)
    s!"Invalid UTF-8 byte 0x{digits}"

end Cause

/-- Where a fault lies. The offset and the end are known for some faults only. -/
structure Spot where
  line : Int
  column : Int
  offset : Option Int := none
  endLine : Option Int := none
  endColumn : Option Int := none
  deriving DecidableEq, Repr

/-- The spot where a place starts. -/
def Place.spot (p : Place) : Spot :=
  { line := p.line, column := p.column, offset := some p.start }

/-- The spot of a place with its end. -/
def Place.wideSpot (p : Place) : Spot :=
  { p.spot with endLine := some p.line, endColumn := some p.endColumn }

/-- A cause and where it lies. -/
structure Fault where
  cause : Cause
  spot : Spot
  deriving DecidableEq, Repr

end NovelScript
