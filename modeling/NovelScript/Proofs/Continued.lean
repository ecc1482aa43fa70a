import NovelScript.Proofs.OpenBlocks

/-!
# Texts that are continued

When a text that ends with a line feed is continued, its content lines stay as they are and further
ones follow. So the layout of the longer text begins with what the offside rule made of the lines
of the shorter one.
-/

namespace NovelScript

theorem Text.lines_append (u v : List Char) : lines (u ++ '\n' :: v) = lines u ++ lines v := by
  induction u with
  | nil => simp [lines]
  | cons c u ih =>
    rw [List.cons_append, lines, lines, ih]
    by_cases hc : c = '\n'
    · simp [hc]
    · obtain ⟨l, ls, hl⟩ := List.exists_cons_of_ne_nil (lines_ne_nil u)
      simp [hc, hl]

theorem Text.lines_of_not_mem {u : List Char} (h : '\n' ∉ u) : lines u = [u] := by
  induction u with
  | nil => rfl
  | cons c u ih =>
    have hc : c ≠ '\n' := fun he => h (he ▸ List.mem_cons_self)
    rw [lines, if_neg hc, ih fun hm => h (List.mem_cons_of_mem _ hm)]

theorem Text.not_mem_of_mem_lines {u l : List Char} (h : l ∈ lines u) : '\n' ∉ l := by
  induction u generalizing l with
  | nil =>
    rw [List.mem_singleton.mp h]
    simp
  | cons c u ih =>
    obtain ⟨k, ks, hk⟩ := List.exists_cons_of_ne_nil (lines_ne_nil u)
    rw [lines] at h
    by_cases hc : c = '\n'
    · rw [if_pos hc] at h
      obtain rfl | h := List.mem_cons.mp h
      · simp
      · exact ih h
    · rw [if_neg hc, hk] at h
      obtain rfl | h := List.mem_cons.mp h
      · intro hm
        obtain hm | hm := List.mem_cons.mp hm
        · exact hc hm.symm
        · exact ih (by rw [hk]; exact List.mem_cons_self) hm
      · exact ih (by rw [hk]; exact List.mem_cons_of_mem _ h)

/-- How many characters lines take up, with a line feed after each. -/
def Text.totalLength : List (List Char) → Nat
  | [] => 0
  | l :: ls => l.length + 1 + totalLength ls

theorem Text.totalLength_lines (u : List Char) : totalLength (lines u) = u.length + 1 := by
  induction u with
  | nil => rfl
  | cons c u ih =>
    obtain ⟨l, ls, hl⟩ := List.exists_cons_of_ne_nil (lines_ne_nil u)
    rw [hl, totalLength] at ih
    by_cases hc : c = '\n'
    · simp only [lines, hc, if_true, hl, totalLength, List.length_cons, List.length_nil]
      omega
    · simp only [lines, hc, if_false, hl, totalLength, List.length_cons]
      omega

theorem contentLinesFrom_append (number lineStart : Nat) (ls ms : List (List Char)) :
    contentLinesFrom number lineStart (ls ++ ms) = contentLinesFrom number lineStart ls ++
      contentLinesFrom (number + ls.length) (lineStart + Text.totalLength ls) ms := by
  induction ls generalizing number lineStart with
  | nil => rfl
  | cons l ls ih =>
    have hn : number + 1 + ls.length = number + (l :: ls).length := by
      rw [List.length_cons]
      omega
    have hs : lineStart + l.length + 1 + Text.totalLength ls =
        lineStart + Text.totalLength (l :: ls) := by
      rw [Text.totalLength]
      omega
    rw [List.cons_append, contentLinesFrom, contentLinesFrom, ih, hn, hs]
    cases ContentLine.ofLine? number lineStart l <;> rfl

/-- A text that is empty or ends with a line feed keeps its content lines when it is continued. -/
theorem contentLines_append {t : List Char} (ht : t = [] ∨ t.getLast? = some '\n')
    (s : List Char) : contentLines (t ++ s) =
      contentLines t ++ contentLinesFrom (t.count '\n' + 1) t.length (Text.lines s) := by
  obtain rfl | ht := ht
  · rfl
  · obtain ⟨u, rfl⟩ := List.getLast?_eq_some_iff.mp ht
    have hlast : ∀ number lineStart, contentLinesFrom number lineStart [[]] = [] := by
      intro number lineStart
      rfl
    have hlines : Text.lines (u ++ ['\n']) = Text.lines u ++ [[]] := Text.lines_append u []
    have hcount : 1 + (Text.lines u).length = (u ++ ['\n']).count '\n' + 1 := by
      rw [Text.length_lines, List.count_append, List.count_singleton_self]
      omega
    have hlength : 0 + Text.totalLength (Text.lines u) = (u ++ ['\n']).length := by
      rw [Text.totalLength_lines, List.length_append, List.length_singleton]
      omega
    rw [contentLines, contentLines, List.append_assoc, List.singleton_append, Text.lines_append,
      hlines, contentLinesFrom_append, contentLinesFrom_append, hlast, List.append_nil, hcount,
      hlength]

namespace Offside

variable {rules : LayoutRules} {s : Offside}

theorem lines_append (ls ms : List ContentLine) :
    s.lines rules (ls ++ ms) = (s.lines rules ls).andThen (lines rules ms) := by
  induction ls generalizing s with
  | nil => rfl
  | cons l ls ih =>
    rw [List.cons_append, lines, lines, Emission.andThen_assoc]
    congr 1
    funext s'
    exact ih

theorem finish_breakdown (text : List Char) (lastLine : Int) (s : Offside) :
    (s.finish text lastLine).breakdown = none := rfl

end Offside

/-- The tokens of a layout are those of its lines and those of its end. -/
theorem layout_eq_ok {rules : LayoutRules} {text : List Char} {tokens : List LayoutToken} :
    layout rules text = .ok tokens ↔
      (Offside.initial.lines rules (contentLines text)).breakdown = none ∧
      tokens = (Offside.initial.lines rules (contentLines text)).tokens ++
        ((Offside.initial.lines rules (contentLines text)).state.finish text
          (Text.lines text).length).tokens := by
  rw [layout, Offside.scan, Emission.toExcept_eq_ok, Emission.andThen_breakdown]
  constructor
  · rintro ⟨⟨hb, -⟩, rfl⟩
    exact ⟨hb, by rw [Emission.andThen_of_none hb]; rfl⟩
  · rintro ⟨hb, rfl⟩
    exact ⟨⟨hb, rfl⟩, by rw [Emission.andThen_of_none hb]; rfl⟩

/-- The layout of a text breaks down where the offside rule breaks down at one of its lines. -/
theorem layout_eq_error {rules : LayoutRules} {text : List Char} {b : Breakdown} :
    layout rules text = .error b ↔
      (Offside.initial.lines rules (contentLines text)).breakdown = some b := by
  rw [layout, Offside.scan, Emission.toExcept]
  cases h : (Offside.initial.lines rules (contentLines text)).breakdown with
  | none => simp [Emission.andThen_of_none h, Offside.finish_breakdown]
  | some b' => simp [Emission.andThen_of_some h, h]

end NovelScript
