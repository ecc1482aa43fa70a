import Mathlib.Data.List.Forall2
import NovelScript.Proofs.Shape

/-!
# The contents of a text

A content line is the indentation and the content of one line of the text, at a place that the lines
before it decide. `contentsOf` leaves the places out, so it does not depend on lines without
content.
-/

namespace NovelScript

namespace Text

/-- The line without the carriage return at its end. -/
def body (line : List Char) : List Char :=
  if line.getLast? = some '\r' then line.dropLast else line

/-- The indentation and the content of a line that has content. -/
def parts? (line : List Char) : Option (List Char × List Char) :=
  let content := (body line).dropWhile isIndent
  if content.all isBlank || content.head? = some '#' then none
  else some ((body line).takeWhile isIndent, content)

/-- The indentation and the content of each line that has content. -/
def contentsOf (text : List Char) : List (List Char × List Char) := (lines text).filterMap parts?

variable {line indent content : List Char}

theorem body_of_ne (h : line.getLast? ≠ some '\r') : body line = line := if_neg h

theorem body_concat (line : List Char) : body (line ++ ['\r']) = line := by
  simp [body]

theorem body_of_not_mem (h : '\r' ∉ line) : body line = line :=
  body_of_ne fun hlast => h (List.mem_of_getLast? hlast)

theorem eq_body_or (line : List Char) : line = body line ∨ line = body line ++ ['\r'] := by
  unfold body
  split
  · next h =>
    obtain ⟨u, rfl⟩ := List.getLast?_eq_some_iff.mp h
    simp
  · exact .inl rfl

theorem isPrefix_body (line : List Char) : body line <+: line := by
  unfold body
  split
  · exact List.dropLast_prefix line
  · exact List.prefix_rfl

theorem body_append (s : List Char) {t : List Char} (h : t ≠ []) :
    body (s ++ t) = s ++ body t := by
  rw [body, body, List.getLast?_append_of_ne_nil _ h]
  split
  · exact List.dropLast_append_of_ne_nil h
  · rfl

theorem parts?_eq_some : parts? line = some (indent, content) ↔
    body line = indent ++ content ∧ (∀ c ∈ indent, isIndent c) ∧
      (∀ c, content.head? = some c → isIndent c = false) ∧ content.all isBlank = false ∧
      content.head? ≠ some '#' := by
  unfold parts?
  generalize body line = b
  simp only
  constructor
  · intro h
    split at h
    · cases h
    · next hc =>
      cases h
      simp only [Bool.or_eq_true, decide_eq_true_eq, not_or, Bool.not_eq_true] at hc
      refine ⟨List.takeWhile_append_dropWhile.symm, fun c hc => List.mem_takeWhile_imp hc,
        fun c hhead => not_of_head?_dropWhile hhead, hc.1, hc.2⟩
  · rintro ⟨rfl, hindent, hhead, hblank, hcomment⟩
    have hdrop : (indent ++ content).dropWhile isIndent = content := by
      rw [List.dropWhile_append_of_pos hindent, dropWhile_eq_self_of_head? hhead]
    have htake : (indent ++ content).takeWhile isIndent = indent := by
      rw [List.takeWhile_append_of_pos hindent, takeWhile_eq_nil_of_head? hhead, List.append_nil]
    rw [hdrop, htake, if_neg (by simp [hblank, hcomment])]

theorem ne_nil_of_parts? {p : List Char × List Char} (h : parts? line = some p) : p.2 ≠ [] := by
  obtain ⟨-, -, -, hblank, -⟩ := parts?_eq_some.mp h
  intro hnil
  rw [hnil] at hblank
  cases hblank

theorem infix_joinWith {sep : List Char} {ls : List (List Char)} (h : line ∈ ls) :
    line <:+: joinWith sep ls := by
  induction ls with
  | nil => cases h
  | cons l ls ih =>
    cases ls with
    | nil =>
      obtain rfl := List.mem_singleton.mp h
      exact List.infix_rfl
    | cons m ms =>
      rw [joinWith_cons sep (List.cons_ne_nil m ms)]
      obtain rfl | h := List.mem_cons.mp h
      · exact ((List.prefix_append _ _).trans (List.prefix_append _ _)).isInfix
      · exact (ih h).trans (List.suffix_append _ _).isInfix

theorem infix_of_mem_lines {text : List Char} (h : line ∈ lines text) : line <:+: text := by
  have hjoin : line <:+: joinWith ['\n'] (lines text) := infix_joinWith h
  rwa [joinWith_lines] at hjoin

end Text

namespace ContentLine

/-- The indentation and the content. -/
def parts (l : ContentLine) : List Char × List Char := (l.indent, l.content)

theorem ofLine?_eq (number lineStart : Nat) (line : List Char) :
    ofLine? number lineStart line =
      (Text.parts? line).map fun p => ⟨number, lineStart, p.1, p.2⟩ := by
  unfold ofLine? Text.parts? Text.body
  simp only
  split <;> split <;> rfl

end ContentLine

theorem map_parts_contentLinesFrom (number lineStart : Nat) (ls : List (List Char)) :
    (contentLinesFrom number lineStart ls).map ContentLine.parts = ls.filterMap Text.parts? := by
  induction ls generalizing number lineStart with
  | nil => rfl
  | cons line ls ih =>
    rw [contentLinesFrom, ContentLine.ofLine?_eq, List.filterMap_cons]
    cases Text.parts? line with
    | none => exact ih _ _
    | some p => exact congrArg (p :: ·) (ih _ _)

theorem map_parts_contentLines (text : List Char) :
    (contentLines text).map ContentLine.parts = Text.contentsOf text :=
  map_parts_contentLinesFrom _ _ _

theorem forall₂_contentLines {R : List Char × List Char → List Char × List Char → Prop}
    {text text' : List Char}
    (h : List.Forall₂ R (Text.contentsOf text) (Text.contentsOf text')) :
    List.Forall₂ (fun l l' => R l.parts l'.parts) (contentLines text) (contentLines text') := by
  rwa [← map_parts_contentLines, ← map_parts_contentLines, List.forall₂_map_left_iff,
    List.forall₂_map_right_iff] at h

end NovelScript
