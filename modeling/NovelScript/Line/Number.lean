import NovelScript.Line.Name
import NovelScript.Text.Digit

/-!
# Numbers

A number is digits with an optional sign before them and an optional fraction after a point; either
side of the point may lack digits, but not both. It must not run into a name, so of all the
numbers at the start of a text `number?` takes the longest one that no character of a name follows.
-/

namespace NovelScript.Line

/-- The bounds of the numbers at the start of the text: its first `n` characters are a number when
`n` is above the first bound and at most the second. -/
def numberBounds (cs : List Char) : Nat × Nat :=
  let sign := if cs.head? = some '+' || cs.head? = some '-' then 1 else 0
  let whole := ((cs.drop sign).takeWhile Text.isDigit).length
  match cs.drop (sign + whole) with
  | '.' :: rest =>
    let fraction := (rest.takeWhile Text.isDigit).length
    (if whole = 0 then sign + 1 else sign, sign + whole + 1 + fraction)
  | _ => (sign, sign + whole)

/-- The largest length above `low`, by at most `k`, at which no name continues the text. -/
def freeLength? (cs : List Char) (low : Nat) : (k : Nat) → Option Nat
  | 0 => none
  | k + 1 =>
    if (cs.drop (low + (k + 1))).head?.any isNameChar then freeLength? cs low k
    else some (low + (k + 1))

/-- The number at the start of the text. -/
def number? (cs : List Char) : Option (List Char) :=
  let (low, high) := numberBounds cs
  (freeLength? cs low (high - low)).map cs.take

end NovelScript.Line
