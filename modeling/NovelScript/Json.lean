import NovelScript.Text.Quoted

/-!
# JSON

Values of JSON whose objects keep the order of their keys, and the text of a value with one item to
a line. The text is ASCII: every other character is written as its UTF-16 units.
-/

namespace NovelScript

/-- A JSON value. -/
inductive Json where
  | null
  | bool (b : Bool)
  | int (n : Int)
  | string (s : List Char)
  | array (items : List Json)
  | object (fields : List (String × Json))

namespace Json

/-- A string that may be missing. -/
def ofOption {α : Type} (f : α → Json) : Option α → Json
  | none => null
  | some a => f a

/-- The escape of one UTF-16 unit. -/
def unitEscape (n : Nat) : List Char := '\\' :: 'u' :: Text.hex 4 n

/-- One character as it stands in a string. -/
def escape (c : Char) : List Char :=
  let n := c.toNat
  if c = '"' || c = '\\' then ['\\', c]
  else if c = '\n' then ['\\', 'n']
  else if c = '\r' then ['\\', 'r']
  else if c = '\t' then ['\\', 't']
  else if n = 8 then ['\\', 'b']
  else if n = 12 then ['\\', 'f']
  else if 0x20 ≤ n && n ≤ 0x7E then [c]
  else if n < 0x10000 then unitEscape n
  else unitEscape (0xD800 + (n - 0x10000) / 0x400) ++ unitEscape (0xDC00 + (n - 0x10000) % 0x400)

/-- The text of a string. -/
def stringText (s : List Char) : List Char := '"' :: s.flatMap escape ++ ['"']

/-- A line break and the white space before an item at the given depth. -/
def lineBreak (depth : Nat) : List Char := '\n' :: List.replicate (2 * depth) ' '

/-- Items between brackets at the given depth, each on a line of its own. -/
def bracketed (opening closing : Char) (depth : Nat) (items : List (List Char)) : List Char :=
  match items with
  | [] => [opening, closing]
  | first :: rest =>
    opening :: lineBreak (depth + 1) ++ first
      ++ rest.flatMap (fun item => ',' :: lineBreak (depth + 1) ++ item)
      ++ lineBreak depth ++ [closing]

mutual

/-- The text of a value that stands at the given depth. -/
def textAt (depth : Nat) : Json → List Char
  | null => "null".toList
  | bool b => (if b then "true" else "false").toList
  | int n => (toString n).toList
  | string s => stringText s
  | array items => bracketed '[' ']' depth (itemTexts depth items)
  | object fields => bracketed '\x7b' '\x7d' depth (fieldTexts depth fields)

/-- The texts of the items of an array that stands at the given depth. -/
def itemTexts (depth : Nat) : List Json → List (List Char)
  | [] => []
  | item :: rest => textAt (depth + 1) item :: itemTexts depth rest

/-- The texts of the fields of an object that stands at the given depth. -/
def fieldTexts (depth : Nat) : List (String × Json) → List (List Char)
  | [] => []
  | (key, item) :: rest =>
    (stringText key.toList ++ ':' :: ' ' :: textAt (depth + 1) item) :: fieldTexts depth rest

end

/-- The text of a value. -/
def text (j : Json) : List Char := textAt 0 j

end Json

end NovelScript
