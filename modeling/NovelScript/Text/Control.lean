/-!
# Control sequences

A control sequence tells a terminal how to go on. It starts with the escape character and an opening
bracket, goes on with parameters and ends with a letter. Text that is not shown on a terminal has no
use for control sequences, and `plain` leaves them out.
-/

namespace NovelScript.Text

/-- The characters between the bracket and the letter of a control sequence. -/
def isParameter (c : Char) : Bool := c == ';' || c == '?' || c.isDigit

/-- What follows the control sequence that the text starts with. -/
def afterControl? (cs : List Char) : Option (List Char) :=
  match cs with
  | '\x1b' :: '[' :: rest =>
    match rest.dropWhile isParameter with
    | c :: rest => if c.isAlpha then some rest else none
    | [] => none
  | _ => none

theorem length_lt_of_afterControl? {cs rest : List Char} (h : afterControl? cs = some rest) :
    rest.length < cs.length := by
  unfold afterControl? at h
  split at h
  · next body =>
    split at h
    · next c tail hd =>
      have hl := (List.dropWhile_suffix isParameter (l := body)).length_le
      rw [hd] at hl
      simp only [Option.ite_none_right_eq_some, Option.some.injEq] at h
      obtain ⟨-, rfl⟩ := h
      simp only [List.length_cons] at hl ⊢
      omega
    · simp at h
  · simp at h

/-- The text without its control sequences. -/
def plain (cs : List Char) : List Char :=
  match _h : afterControl? cs with
  | some rest => plain rest
  | none =>
    match cs with
    | [] => []
    | c :: cs => c :: plain cs
termination_by cs.length
decreasing_by
  · exact length_lt_of_afterControl? ‹_›
  · simp

end NovelScript.Text
