import NovelScript.Proofs.OpenBlocks

/-!
# Lines indented with spaces

A line that is indented with spaces alone has as many columns as spaces, under all rules. It is a
content line when what follows the spaces is a `Solid` content.
-/

namespace NovelScript

/-- A content that is neither blank nor a comment and that loses no character at its ends. -/
structure Solid (content : List Char) : Prop where
  head : ∃ c cs, content = c :: cs ∧ Text.isBlank c = false ∧ c ≠ '#'
  last : content.getLast? ≠ some '\r'

/-- `n` spaces and then the content. -/
def indented (n : Nat) (content : List Char) : List Char := List.replicate n ' ' ++ content

theorem not_mem_indented {content : List Char} (h : '\n' ∉ content) (n : Nat) :
    '\n' ∉ indented n content := by
  intro hm
  obtain hm | hm := List.mem_append.mp hm
  · exact absurd (List.eq_of_mem_replicate hm) (by decide)
  · exact h hm

namespace Solid

variable {content : List Char}

theorem isIndent_head (h : Solid content) : ∀ c, content.head? = some c → Text.isIndent c = false := by
  obtain ⟨c, cs, rfl, hb, -⟩ := h.head
  intro d hd
  cases hd
  by_contra hi
  have := Text.isBlank_of_isInline (Text.isInline_of_isIndent (by simpa using hi))
  simp [hb] at this

theorem isIndent_replicate (n : Nat) : ∀ c ∈ List.replicate n ' ', Text.isIndent c := by
  intro c hc
  rw [List.eq_of_mem_replicate hc]
  rfl

theorem ofLine?_indented (h : Solid content) (number lineStart n : Nat) :
    ContentLine.ofLine? number lineStart (indented n content) =
      some ⟨number, lineStart, List.replicate n ' ', content⟩ := by
  obtain ⟨c, cs, rfl, hb, hh⟩ := h.head
  have hi : Text.isIndent c = false := h.isIndent_head c rfl
  have hl : (indented n (c :: cs)).getLast? ≠ some '\r' := by
    have := h.last
    simpa [indented] using this
  have hd : (indented n (c :: cs)).dropWhile Text.isIndent = c :: cs := by
    rw [indented, List.dropWhile_append_of_pos (isIndent_replicate n)]
    simp [hi]
  have ht : (indented n (c :: cs)).takeWhile Text.isIndent = List.replicate n ' ' := by
    rw [indented, List.takeWhile_append_of_pos (isIndent_replicate n)]
    simp [hi]
  rw [ContentLine.ofLine?, if_neg hl]
  simp [hd, ht, hb, hh]

end Solid

theorem LayoutRules.widthFrom_replicate (rules : LayoutRules) (n : Nat) (w : Int) :
    rules.widthFrom w (List.replicate n ' ') = .ok (w + n) := by
  induction n generalizing w with
  | zero => simp [widthFrom]
  | succ n ih =>
    rw [List.replicate_succ, widthFrom, if_pos rfl, ih]
    congr 1
    omega

theorem LayoutRules.width_replicate (rules : LayoutRules) (n : Nat) :
    rules.width (List.replicate n ' ') = .ok (n : Int) := by
  rw [width, widthFrom_replicate, Int.zero_add]

theorem isMixed_replicate (n : Nat) : isMixed (List.replicate n ' ') = false := by
  have h : (List.replicate n ' ').contains '\t' = false := by
    simp [List.contains_eq_mem, List.mem_replicate]
  rw [isMixed, h, Bool.false_and]

namespace Offside

variable {rules : LayoutRules} {s : Offside} {l : ContentLine} {n : Nat} {w : Int} {rest : List Int}

/-- A line that is indented with spaces relates their number to the open blocks. -/
theorem line_eq_of_replicate (h : l.indent = List.replicate n ' ') :
    s.line rules l = (s.indentTo n l.place.opening).andThen fun s' =>
      ⟨[⟨.text l.content, l.place⟩], { s' with started := true }, none⟩ := by
  rw [line, h, rules.width_replicate]
  simp only [isMixed_replicate, Bool.false_and, Bool.false_eq_true, if_false]
  rfl

theorem line_deeper (h : l.indent = List.replicate n ' ') (hs : s.widths = w :: rest)
    (hw : w < n) : s.line rules l =
      ⟨[⟨.indent, l.place.opening⟩, ⟨.text l.content, l.place⟩], ⟨n :: w :: rest, true⟩, none⟩ := by
  rw [line_eq_of_replicate h, indentTo, hs]
  simp only [hw, if_true]
  rfl

theorem line_level (h : l.indent = List.replicate n ' ') (hs : s.widths = (n : Int) :: rest)
    (hst : s.started = true) : s.line rules l =
      ⟨[⟨.newline, l.place.opening⟩, ⟨.text l.content, l.place⟩], ⟨n :: rest, true⟩, none⟩ := by
  rw [line_eq_of_replicate h, indentTo, hs]
  simp only [Int.lt_irrefl, hst, if_false, if_true]
  rw [Emission.andThen_of_none rfl, hs]
  rfl

end Offside

end NovelScript
