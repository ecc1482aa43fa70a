/-!
# Blank characters

Three sets of blank characters matter to a script. `isIndent` holds those that may open a line,
`isInline` those that may separate the words of a line, and `isBlank` all white space of Unicode,
which decides whether a line is empty and where a quoted word of a message ends.
-/

namespace NovelScript.Text

/-- White space in the sense of Unicode. -/
def isBlank (c : Char) : Bool :=
  let n := c.toNat
  (0x09 ≤ n && n ≤ 0x0D) || (0x1C ≤ n && n ≤ 0x20) || n == 0x85 || n == 0xA0 || n == 0x1680 ||
    (0x2000 ≤ n && n ≤ 0x200A) || n == 0x2028 || n == 0x2029 || n == 0x202F || n == 0x205F ||
    n == 0x3000

/-- The characters that separate words within a line: space, tab, carriage return, form feed. -/
def isInline (c : Char) : Bool :=
  c == ' ' || c == '\t' || c == '\r' || c == '\x0c'

/-- The characters that indent a line: space, tab and form feed. -/
def isIndent (c : Char) : Bool :=
  c == ' ' || c == '\t' || c == '\x0c'

theorem isInline_of_isIndent {c : Char} (h : isIndent c) : isInline c := by
  simp only [isIndent, isInline, Bool.or_eq_true] at h ⊢
  obtain (h | h) | h := h <;> simp [h]

theorem isBlank_of_isInline {c : Char} (h : isInline c) : isBlank c := by
  simp only [isInline, Bool.or_eq_true, beq_iff_eq] at h
  obtain ((rfl | rfl) | rfl) | rfl := h <;> rfl

section

variable {p : Char → Bool} {cs : List Char}

theorem not_of_head?_dropWhile {x : Char} (h : (cs.dropWhile p).head? = some x) : p x = false := by
  have hn := List.head?_dropWhile_not p cs
  rw [h] at hn
  simpa using hn

theorem takeWhile_eq_nil_of_head? (h : ∀ x, cs.head? = some x → p x = false) :
    cs.takeWhile p = [] := by
  cases cs with
  | nil => rfl
  | cons x cs => exact List.takeWhile_cons_of_neg (by simp [h x rfl])

theorem dropWhile_eq_self_of_head? (h : ∀ x, cs.head? = some x → p x = false) :
    cs.dropWhile p = cs := by
  cases cs with
  | nil => rfl
  | cons x cs => exact List.dropWhile_cons_of_neg (by simp [h x rfl])

end

/-- The text without the blanks at its end. -/
def trimEnd (cs : List Char) : List Char :=
  (cs.reverse.dropWhile isBlank).reverse

/-- The text up to the first blank after its leading blanks; empty only if all of it is blank. -/
def firstWord (cs : List Char) : List Char :=
  (cs.dropWhile isBlank).takeWhile fun c => !isBlank c

end NovelScript.Text
