/-!
# UTF-8

`decode` reads bytes as characters. It is strict: overlong forms, surrogates and numbers beyond
the last character are no characters. Bytes that are refused are located by the first byte of the
character that could not be read.
-/

namespace NovelScript.Text

/-- Why bytes are no character. -/
inductive Utf8Reason where
  /-- No character starts with this byte. -/
  | invalidStart
  /-- A byte that has to continue the character does not. -/
  | invalidContinuation
  /-- The bytes end within the character. -/
  | unexpectedEnd
  deriving DecidableEq, Repr

/-- The first bytes that are no character: what was read before them, their position, how many of
them are at fault, the first of them and the reason. -/
structure Utf8Fault where
  before : List Char
  position : Nat
  length : Nat
  byte : UInt8
  reason : Utf8Reason
  deriving DecidableEq, Repr

/-- What the first byte of a character announces: the bits it holds, how many bytes follow, and the
bounds of the byte right after it. -/
structure Utf8Lead where
  bits : Nat
  tails : Nat
  low : UInt8 := 0x80
  high : UInt8 := 0xBF
  deriving DecidableEq, Repr

/-- Reads the first byte of a character. -/
def utf8Lead? (b : UInt8) : Option Utf8Lead :=
  if b < 0x80 then some { bits := b.toNat, tails := 0 }
  else if b < 0xC2 then none
  else if b < 0xE0 then some { bits := b.toNat - 0xC0, tails := 1 }
  else if b = 0xE0 then some { bits := 0, tails := 2, low := 0xA0 }
  else if b = 0xED then some { bits := 0xD, tails := 2, high := 0x9F }
  else if b < 0xF0 then some { bits := b.toNat - 0xE0, tails := 2 }
  else if b = 0xF0 then some { bits := 0, tails := 3, low := 0x90 }
  else if b < 0xF4 then some { bits := b.toNat - 0xF0, tails := 3 }
  else if b = 0xF4 then some { bits := 4, tails := 3, high := 0x8F }
  else none

/-- Reads `n` bytes that continue a character whose first bits are `bits`. The next of them has to
lie between `low` and `high`. A failure says how many bytes were read before it. -/
def utf8Tails (bits : Nat) (low high : UInt8) :
    (n : Nat) → List UInt8 → Except (Nat × Utf8Reason) Nat
  | 0, _ => .ok bits
  | _ + 1, [] => .error (0, .unexpectedEnd)
  | n + 1, b :: bs =>
    if low ≤ b && b ≤ high then
      match utf8Tails (bits * 64 + (b.toNat - 0x80)) 0x80 0xBF n bs with
      | .ok bits => .ok bits
      | .error (k, reason) => .error (k + 1, reason)
    else .error (0, .invalidContinuation)

/-- Reads bytes as characters. -/
def decode (bytes : List UInt8) : Except Utf8Fault (List Char) :=
  match bytes with
  | [] => .ok []
  | b :: rest =>
    match utf8Lead? b with
    | none => .error ⟨[], 0, 1, b, .invalidStart⟩
    | some lead =>
      match utf8Tails lead.bits lead.low lead.high lead.tails rest with
      | .error (k, reason) => .error ⟨[], 0, k + 1, b, reason⟩
      | .ok bits =>
        let c := Char.ofNat bits
        match decode (rest.drop lead.tails) with
        | .ok cs => .ok (c :: cs)
        | .error f =>
          .error { f with before := c :: f.before, position := f.position + 1 + lead.tails }
termination_by bytes.length

/-- The mark that may stand at the start of a file in UTF-8. -/
def byteOrderMark : List UInt8 := [0xEF, 0xBB, 0xBF]

/-- The bytes without the mark at their start. -/
def dropByteOrderMark (bytes : List UInt8) : List UInt8 :=
  if byteOrderMark.isPrefixOf bytes then bytes.drop byteOrderMark.length else bytes

end NovelScript.Text
