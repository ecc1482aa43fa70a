/-!
# Shortest decimals

A floating-point number stands for all reals that round to it. `shortest` finds the decimal with
the fewest digits among them, and of several such decimals the one nearest to the number itself.
All comparisons are made exactly, between natural numbers.
-/

namespace NovelScript.Decimal

/-- A positive number `mantissa * 2 ^ exponent`, with the mantissa as it is stored. -/
structure Binary where
  mantissa : Nat
  exponent : Int
  /-- Whether the next number below is only half as far away as the next number above. -/
  narrow : Bool
  deriving DecidableEq, Repr

/-- The number with the given bits, without its sign, unless it is infinite or no number. -/
def Binary.ofBits (bits : UInt64) : Binary :=
  let fraction := (bits &&& 0xFFFFFFFFFFFFF).toNat
  let biased := (bits >>> 52 &&& 0x7FF).toNat
  if biased = 0 then ⟨fraction, -1074, false⟩
  else ⟨0x10000000000000 + fraction, (biased : Int) - 1075, fraction = 0 && 1 < biased⟩

/-- The sides of the comparison of `a * 10 ^ j` with `x * 2 ^ k`, with all powers made natural. -/
def sides (a : Nat) (j : Int) (x : Nat) (k : Int) : Nat × Nat :=
  (a * Nat.pow 10 j.toNat * Nat.pow 2 (-k).toNat, x * Nat.pow 2 k.toNat * Nat.pow 10 (-j).toNat)

/-- Whether `a * 10 ^ j` rounds to the number. A real halfway between two numbers rounds to the one
with the even mantissa. -/
def Binary.readsBack (b : Binary) (a : Nat) (j : Int) : Bool :=
  let (x, low) := sides a j (4 * b.mantissa - if b.narrow then 1 else 2) (b.exponent - 2)
  let (y, high) := sides a j (4 * b.mantissa + 2) (b.exponent - 2)
  if b.mantissa % 2 = 0 then low ≤ x && y ≤ high else low < x && y < high

/-- Whether the number is below `10 ^ k`. -/
def Binary.isBelow (b : Binary) (k : Int) : Bool :=
  let (power, x) := sides 1 k b.mantissa b.exponent
  x < power

/-- The least of `k`, `k + 1`, …, `k + steps` whose power of ten is above the number. -/
def Binary.scaleFrom (b : Binary) (k : Int) : (steps : Nat) → Int
  | 0 => k
  | steps + 1 => if b.isBelow k then k else b.scaleFrom (k + 1) steps

/-- The least `k` for which the number is below `10 ^ k`. The search starts just below it. -/
def Binary.scale (b : Binary) : Int :=
  let log := b.exponent + Nat.log2 b.mantissa
  b.scaleFrom ((log * 30103).fdiv 100000 - 1) 4

/-- The multiple of `10 ^ j` nearest to the number among the two next to it that read back; on a
tie the even one. -/
def Binary.onGrid? (b : Binary) (j : Int) : Option Nat :=
  let (den, num) := sides 1 j b.mantissa b.exponent
  let a := num / den
  match b.readsBack a j, b.readsBack (a + 1) j with
  | false, false => none
  | true, false => some a
  | false, true => some (a + 1)
  | true, true =>
    let middle := (2 * a + 1) * den
    if 2 * num < middle then some a
    else if middle < 2 * num then some (a + 1)
    else some (a + a % 2)

/-- The first multiple found with `n`, `n + 1`, …, `n + more` digits, and its power of ten. -/
def Binary.search (b : Binary) (k : Int) (n : Nat) : (more : Nat) → Nat × Int
  | 0 => ((b.onGrid? (k - n)).getD 0, k - n)
  | more + 1 =>
    match b.onGrid? (k - n) with
    | some a => (a, k - n)
    | none => b.search k (n + 1) more

/-- The digits of a natural number. -/
def digitsOf (n : Nat) : List Char := (toString n).toList

/-- The digits of the shortest decimal, without zeros at their end, and where the point stands,
counted from before the first digit. -/
def Binary.shortest (b : Binary) : List Char × Int :=
  let (a, j) := b.search b.scale 1 16
  let digits := digitsOf a
  (((digits.reverse).dropWhile (· == '0')).reverse, digits.length + j)

/-- Writes digits whose point stands at `point` with the point in its place. -/
def positional (digits : List Char) (point : Int) : List Char :=
  if point ≤ 0 then "0.".toList ++ List.replicate (-point).toNat '0' ++ digits
  else
    let whole := digits.take point.toNat
    let zeros := List.replicate (point.toNat - digits.length) '0'
    let fraction := digits.drop point.toNat
    whole ++ zeros ++ '.' :: if fraction.isEmpty then ['0'] else fraction

/-- Writes digits whose point stands at `point` with one digit before the point and an exponent of
two digits or more. -/
def scientific (digits : List Char) (point : Int) : List Char :=
  let fraction := if digits.length ≤ 1 then [] else '.' :: digits.drop 1
  let power := digitsOf (point - 1).natAbs
  let sign := if point - 1 < 0 then '-' else '+'
  digits.take 1 ++ fraction ++ 'e' :: sign :: List.replicate (2 - power.length) '0' ++ power

/-- Writes a number with the fewest digits, positionally from `0.0001` up to below `10 ^ 16`. -/
def text (x : Float) : List Char :=
  let bits := x.toBits
  let sign := if bits >>> 63 = 1 then ['-'] else []
  let magnitude := bits &&& 0x7FFFFFFFFFFFFFFF
  let infinite := 0x7FF0000000000000
  if infinite < magnitude then "nan".toList
  else if magnitude = infinite then sign ++ "inf".toList
  else if magnitude = 0 then sign ++ "0.0".toList
  else
    let (digits, point) := (Binary.ofBits bits).shortest
    sign ++ if -4 < point && point ≤ 16 then positional digits point else scientific digits point

end NovelScript.Decimal
