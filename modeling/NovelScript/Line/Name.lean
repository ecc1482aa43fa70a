/-!
# Names

A name starts with a letter of ASCII or an underscore and goes on with letters, digits and
underscores. Keywords are names too; what a name means depends on where it stands.
-/

namespace NovelScript.Line

/-- The characters that may start a name. -/
def isNameStart (c : Char) : Bool := c.isAlpha || c == '_'

/-- The characters that a name may hold. -/
def isNameChar (c : Char) : Bool := c.isAlphanum || c == '_'

/-- The name at the start of the text. -/
def name? (cs : List Char) : Option (List Char) :=
  match cs with
  | [] => none
  | c :: _ => if isNameStart c then some (cs.takeWhile isNameChar) else none

end NovelScript.Line
