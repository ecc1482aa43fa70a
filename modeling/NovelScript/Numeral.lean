/-!
# Whole numbers in decimal

Whole numbers are read and written with a limited number of decimal digits. The sign of a number is
no digit.
-/

namespace NovelScript.Numeral

/-- The most digits that a whole number is read or written with. -/
def maxDigits : Nat := 4300

/-- Whether a whole number has few enough digits. -/
def isShort (n : Int) : Bool := n.natAbs < Nat.pow 10 maxDigits

end NovelScript.Numeral
