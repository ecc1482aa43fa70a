import NovelScript.Decimal
import NovelScript.Numeral
import NovelScript.Text.Quoted
import NovelScript.Toml.Moment

/-!
# TOML values

The values that a TOML document can hold, and their text in messages.
-/

namespace NovelScript.Toml

/-- A TOML value. A table keeps the order of its keys. -/
inductive Value where
  | string (s : List Char)
  | integer (n : Int)
  | float (x : Float)
  | boolean (b : Bool)
  | moment (m : Moment)
  | array (items : List Value)
  | table (entries : List (List Char × Value))

namespace Value

/-- Joins texts with commas. -/
def commaSeparated : List (List Char) → List Char
  | [] => []
  | [t] => t
  | t :: ts => t ++ ',' :: ' ' :: commaSeparated ts

mutual

/-- A value as messages show it. -/
def text : Value → List Char
  | string s => Text.quoted s
  | integer n => (toString n).toList
  | float x => Decimal.text x
  | boolean b => (if b then "True" else "False").toList
  | moment m => m.text.toList
  | array items => '[' :: commaSeparated (texts items) ++ [']']
  | table entries => '\x7b' :: commaSeparated (entryTexts entries) ++ ['\x7d']

/-- The texts of the items of an array. -/
def texts : List Value → List (List Char)
  | [] => []
  | v :: rest => v.text :: texts rest

/-- The texts of the entries of a table. -/
def entryTexts : List (List Char × Value) → List (List Char)
  | [] => []
  | (key, v) :: rest => (Text.quoted key ++ ':' :: ' ' :: v.text) :: entryTexts rest

end

mutual

/-- Whether messages can show a value: no integer in it is too long to be written. -/
def isWritable : Value → Bool
  | integer n => Numeral.isShort n
  | array items => areWritable items
  | table entries => entriesAreWritable entries
  | string _ | float _ | boolean _ | moment _ => true

/-- Whether messages can show the items of an array. -/
def areWritable : List Value → Bool
  | [] => true
  | v :: rest => v.isWritable && areWritable rest

/-- Whether messages can show the entries of a table. -/
def entriesAreWritable : List (List Char × Value) → Bool
  | [] => true
  | (_, v) :: rest => v.isWritable && entriesAreWritable rest

end

end Value

end NovelScript.Toml
