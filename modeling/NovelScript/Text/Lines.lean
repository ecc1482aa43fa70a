/-!
# Lines of a text

A script is numbered by its line feeds alone, which `lines` follows. The excerpt shown with an
error breaks its lines at every line boundary of Unicode, which `boundaryLines` follows.
-/

namespace NovelScript.Text

/-- The pieces of the text between its line feeds; there is one more piece than line feeds. -/
def lines : List Char → List (List Char)
  | [] => [[]]
  | c :: cs =>
    if c = '\n' then [] :: lines cs
    else match lines cs with
      | l :: ls => (c :: l) :: ls
      | [] => [[c]]

@[simp] theorem lines_ne_nil (cs : List Char) : lines cs ≠ [] := by
  fun_cases lines cs <;> simp_all

theorem length_lines (cs : List Char) : (lines cs).length = cs.count '\n' + 1 := by
  fun_induction lines cs <;> simp_all

/-- Whether a line ends at the character. -/
def isLineBoundary (c : Char) : Bool :=
  let n := c.toNat
  (0x0A ≤ n && n ≤ 0x0D) || (0x1C ≤ n && n ≤ 0x1E) || n == 0x85 || n == 0x2028 || n == 0x2029

/-- The lines of the text, each ended by a boundary or by the end of the text. A carriage return
and the line feed after it are one boundary. -/
def boundaryLines : List Char → List (List Char)
  | [] => []
  | '\r' :: '\n' :: cs => [] :: boundaryLines cs
  | c :: cs =>
    if isLineBoundary c then [] :: boundaryLines cs
    else match boundaryLines cs with
      | l :: ls => (c :: l) :: ls
      | [] => [[c]]

/-- The text with every line break written as a line feed, where a carriage return, alone or with a
line feed after it, is a line break too. -/
def unifyLineBreaks : List Char → List Char
  | [] => []
  | '\r' :: '\n' :: cs => '\n' :: unifyLineBreaks cs
  | c :: cs => (if c = '\r' then '\n' else c) :: unifyLineBreaks cs

/-- Joins the pieces with one separator between neighbours. -/
def joinWith (sep : List Char) : List (List Char) → List Char
  | [] => []
  | [l] => l
  | l :: ls => l ++ sep ++ joinWith sep ls

theorem joinWith_cons {l : List Char} {ls : List (List Char)} (sep : List Char) (h : ls ≠ []) :
    joinWith sep (l :: ls) = l ++ sep ++ joinWith sep ls := by
  cases ls with
  | nil => exact absurd rfl h
  | cons => rfl

/-- Nothing is lost between the lines. -/
theorem joinWith_lines (cs : List Char) : joinWith ['\n'] (lines cs) = cs := by
  fun_induction lines cs with
  | case1 => rfl
  | case2 cs ih => rw [joinWith_cons _ (lines_ne_nil cs), ih]; rfl
  | case3 c cs _ l ls h ih =>
    rw [h] at ih
    rw [← ih]
    cases ls <;> rfl
  | case4 c cs _ h => exact absurd h (lines_ne_nil cs)

/-- How many characters stand after the last line feed. -/
def tailLength (cs : List Char) : Nat :=
  (cs.reverse.takeWhile (· != '\n')).length

end NovelScript.Text
