import NovelScript.Proofs.Shape

/-!
# Where the tokens of a layout lie

The tokens of a line lie on that line, and each token of a layout ends before the next one starts.
The tokens that close a script lie behind all of its lines. So the place of a token says which
tokens come before it.
-/

namespace NovelScript

/-- The token belongs to the line. -/
structure LayoutToken.LiesOn (t : LayoutToken) (l : ContentLine) : Prop where
  unended : t.mark ≠ .eof
  line : t.place.line = l.number
  lineStart_le : l.lineStart ≤ t.place.start
  start_le : t.place.start ≤ t.place.stop
  stop_le : t.place.stop ≤ l.start + l.content.length

/-- The token `t` can stand before `u`. -/
structure LayoutToken.Precedes (t u : LayoutToken) : Prop where
  unended : t.mark ≠ .eof
  line : t.place.line ≤ u.place.line
  stop : t.place.stop ≤ u.place.start

theorem LayoutToken.LiesOn.precedes {t u : LayoutToken} {l m : ContentLine} (ht : t.LiesOn l)
    (hu : u.LiesOn m) (h : l.Before m) : t.Precedes u where
  unended := ht.unended
  line := by
    have := h.number
    rw [ht.line, hu.line]
    omega
  stop := by
    have h₁ := ht.stop_le
    have h₂ := h.stop
    have h₃ := hu.lineStart_le
    omega

namespace Offside

variable {rules : LayoutRules} {s : Offside} {l : ContentLine} {ls : List ContentLine}

theorem liesOn_mixedFaults {t : LayoutToken} (h : t ∈ mixedFaults rules l) :
    t.LiesOn l ∧ t.place.stop = l.start := by
  unfold mixedFaults at h
  split at h
  · rw [List.mem_singleton.mp h]
    have hs : l.start = l.lineStart + l.indent.length := rfl
    refine ⟨⟨nofun, rfl, Int.le_refl _, ?_, ?_⟩, rfl⟩
    · change (l.lineStart : Int) ≤ l.start
      omega
    · change (l.start : Int) ≤ l.start + l.content.length
      omega
  · exact nomatch h

theorem liesOn_indentTo {w : Int} {t : LayoutToken}
    (h : t ∈ (s.indentTo w l.place.opening).tokens) : t.LiesOn l ∧ t.place = l.place.opening := by
  obtain ⟨hp, hm⟩ := place_of_mem_indentTo h
  have hs : l.start = l.lineStart + l.indent.length := rfl
  refine ⟨⟨?_, by rw [hp]; rfl, ?_, by rw [hp]; exact Int.le_refl _, ?_⟩, hp⟩
  · obtain hm | hm | hm | ⟨cause, hm⟩ := hm <;> simp [hm]
  · rw [hp]
    change (l.lineStart : Int) ≤ l.start
    omega
  · rw [hp]
    change (l.start : Int) ≤ l.start + l.content.length
    omega

theorem liesOn_token (l : ContentLine) : l.token.LiesOn l := by
  have hs : l.start = l.lineStart + l.indent.length := rfl
  refine ⟨nofun, rfl, ?_, ?_, Int.le_refl _⟩
  · change (l.lineStart : Int) ≤ l.start
    omega
  · change (l.start : Int) ≤ l.start + l.content.length
    omega

/-- The tokens of a line: a fault of its white space, what relates it to the open blocks, and its
text. After a breakdown some of them are missing. -/
theorem exists_tokens_line (rules : LayoutRules) (s : Offside) (l : ContentLine) :
    (s.line rules l).tokens = [] ∨ ∃ w last, List.Sublist last [l.token] ∧ (s.line rules l).tokens =
      mixedFaults rules l ++ (s.indentTo w l.place.opening).tokens ++ last := by
  cases hw : rules.width l.indent with
  | error b =>
    refine .inl ?_
    rw [line, hw]
  | ok w =>
    refine .inr ⟨w, ?_⟩
    rw [line_of_width hw]
    cases hb : (s.indentTo w l.place.opening).breakdown with
    | none =>
      refine ⟨[l.token], List.Sublist.refl _, ?_⟩
      rw [Emission.andThen_of_none (e := (s.indentTo w l.place.opening).after _) hb]
      rfl
    | some b =>
      refine ⟨[], List.nil_sublist _, ?_⟩
      rw [Emission.andThen_of_some (e := (s.indentTo w l.place.opening).after _) hb,
        List.append_nil]
      rfl

theorem liesOn_line {t : LayoutToken} (h : t ∈ (s.line rules l).tokens) : t.LiesOn l := by
  obtain hnil | ⟨w, last, hlast, he⟩ := exists_tokens_line rules s l
  · rw [hnil] at h
    exact nomatch h
  · rw [he] at h
    obtain h | h := List.mem_append.mp h
    · obtain h | h := List.mem_append.mp h
      · exact (liesOn_mixedFaults h).1
      · exact (liesOn_indentTo h).1
    · rw [List.mem_singleton.mp (hlast.subset h)]
      exact liesOn_token l

theorem pairwise_precedes_line (rules : LayoutRules) (s : Offside) (l : ContentLine) :
    (s.line rules l).tokens.Pairwise LayoutToken.Precedes := by
  have hsame : ∀ t u : LayoutToken, t.LiesOn l → u.LiesOn l → t.place.stop ≤ u.place.start →
      t.Precedes u := fun t u ht hu h => ⟨ht.unended, Int.le_of_eq (ht.line.trans hu.line.symm), h⟩
  obtain hnil | ⟨w, last, hlast, he⟩ := exists_tokens_line rules s l
  · rw [hnil]
    exact .nil
  · rw [he]
    have hmixed : (mixedFaults rules l).Pairwise LayoutToken.Precedes := by
      unfold mixedFaults
      split <;> simp
    have hturn : (s.indentTo w l.place.opening).tokens.Pairwise LayoutToken.Precedes := by
      refine List.Pairwise.imp_of_mem (R := fun _ _ => True) (fun ht hu _ => ?_)
        (List.pairwise_of_forall fun _ _ => trivial)
      obtain ⟨hlt, hpt⟩ := liesOn_indentTo ht
      obtain ⟨hlu, hpu⟩ := liesOn_indentTo hu
      exact hsame _ _ hlt hlu (by rw [hpt, hpu]; exact Int.le_refl _)
    have htext : ∀ t : LayoutToken, t.LiesOn l → t.place.stop ≤ l.start → ∀ u ∈ last,
        t.Precedes u := by
      intro t ht hstop u hu
      rw [List.mem_singleton.mp (hlast.subset hu)]
      exact hsame _ _ ht (liesOn_token l) hstop
    have hlast' : last.Pairwise LayoutToken.Precedes :=
      (List.pairwise_singleton _ _).sublist hlast
    refine List.pairwise_append.mpr ⟨List.pairwise_append.mpr ⟨hmixed, hturn, ?_⟩, hlast', ?_⟩
    · intro t ht u hu
      obtain ⟨hlt, hst⟩ := liesOn_mixedFaults ht
      obtain ⟨hlu, hpu⟩ := liesOn_indentTo hu
      exact hsame _ _ hlt hlu (by rw [hst, hpu]; exact Int.le_refl _)
    · intro t ht u hu
      obtain ht | ht := List.mem_append.mp ht
      · obtain ⟨hlt, hst⟩ := liesOn_mixedFaults ht
        exact htext t hlt (Int.le_of_eq hst) u hu
      · obtain ⟨hlt, hpt⟩ := liesOn_indentTo ht
        exact htext t hlt (by rw [hpt]; exact Int.le_refl _) u hu

theorem exists_liesOn_lines {t : LayoutToken} (h : t ∈ (s.lines rules ls).tokens) :
    ∃ l ∈ ls, t.LiesOn l := by
  induction ls generalizing s with
  | nil => exact nomatch h
  | cons l ls ih =>
    have hline : t ∈ (s.line rules l).tokens → ∃ m ∈ l :: ls, t.LiesOn m :=
      fun h => ⟨l, List.mem_cons_self, liesOn_line h⟩
    rw [lines] at h
    cases hb : (s.line rules l).breakdown with
    | some b =>
      rw [Emission.andThen_of_some hb] at h
      exact hline h
    | none =>
      rw [Emission.andThen_of_none hb] at h
      obtain h | h := List.mem_append.mp h
      · exact hline h
      · obtain ⟨m, hm, hlies⟩ := ih h
        exact ⟨m, List.mem_cons_of_mem _ hm, hlies⟩

theorem pairwise_precedes_lines (h : ls.Pairwise ContentLine.Before) :
    (s.lines rules ls).tokens.Pairwise LayoutToken.Precedes := by
  induction ls generalizing s with
  | nil => exact .nil
  | cons l ls ih =>
    obtain ⟨hl, hls⟩ := List.pairwise_cons.mp h
    rw [lines]
    cases hb : (s.line rules l).breakdown with
    | some b =>
      rw [Emission.andThen_of_some hb]
      exact pairwise_precedes_line rules s l
    | none =>
      rw [Emission.andThen_of_none hb]
      refine List.pairwise_append.mpr ⟨pairwise_precedes_line rules s l, ih hls, fun t ht u hu => ?_⟩
      obtain ⟨m, hm, hu⟩ := exists_liesOn_lines hu
      exact (liesOn_line ht).precedes hu (hl m hm)

/-- The place where a text ends. -/
def endPlace (text : List Char) : Place :=
  ⟨max ((Text.lines text).length : Int) 1, Text.tailLength text + 1, text.length, text.length⟩

/-- A script is closed by separators and closings at its end. -/
theorem finish_eq (text : List Char) (s : Offside) : ∃ closers,
    (s.finish text (Text.lines text).length).tokens = closers ++ [⟨.eof, endPlace text⟩] ∧
      ∀ t ∈ closers, t.place = endPlace text ∧ (t.mark = .newline ∨ t.mark = .dedent) := by
  refine ⟨_, rfl, fun t ht => ?_⟩
  split at ht
  · rw [List.eq_of_mem_replicate ht]
    exact ⟨rfl, .inr rfl⟩
  · split at ht
    · rw [List.mem_singleton.mp ht]
      exact ⟨rfl, .inl rfl⟩
    · exact nomatch ht

end Offside

/-- Content lines lie before the end of their text. -/
theorem ContentLine.le_end {text : List Char} {l : ContentLine} (h : l ∈ contentLines text) :
    (l.number : Int) ≤ (Offside.endPlace text).line ∧ l.start + l.content.length ≤ text.length := by
  obtain ⟨-, -, hn, hs⟩ := (contentLinesFrom_ordered 1 0 (Text.lines text)).2 l h
  rw [Text.totalLength_lines] at hs
  refine ⟨?_, by omega⟩
  simp only [Offside.endPlace]
  omega

theorem start_le_stop_of_layout {rules : LayoutRules} {text : List Char}
    {tokens : List LayoutToken} (h : layout rules text = .ok tokens) :
    ∀ t ∈ tokens, t.place.start ≤ t.place.stop := by
  obtain ⟨-, rfl⟩ := layout_eq_ok.mp h
  obtain ⟨closers, hf, hclosers⟩ := Offside.finish_eq text
    (Offside.initial.lines rules (contentLines text)).state
  intro t ht
  rw [hf] at ht
  obtain ht | ht := List.mem_append.mp ht
  · obtain ⟨l, -, ht⟩ := Offside.exists_liesOn_lines ht
    exact ht.start_le
  · obtain ht | ht := List.mem_append.mp ht
    · rw [(hclosers t ht).1]
      exact Int.le_refl _
    · rw [List.mem_singleton.mp ht]
      exact Int.le_refl _

/-- Each token of a layout ends before the next one starts. -/
theorem pairwise_precedes_of_layout {rules : LayoutRules} {text : List Char}
    {tokens : List LayoutToken} (h : layout rules text = .ok tokens) :
    tokens.Pairwise LayoutToken.Precedes := by
  obtain ⟨-, rfl⟩ := layout_eq_ok.mp h
  obtain ⟨closers, hf, hclosers⟩ := Offside.finish_eq text
    (Offside.initial.lines rules (contentLines text)).state
  have hend : ∀ t ∈ closers ++ [⟨.eof, Offside.endPlace text⟩],
      t.place = Offside.endPlace text := by
    intro t ht
    obtain ht | ht := List.mem_append.mp ht
    · exact (hclosers t ht).1
    · rw [List.mem_singleton.mp ht]
  have hclose : ∀ t ∈ closers, ∀ u ∈ closers ++ [⟨.eof, Offside.endPlace text⟩],
      t.Precedes u := by
    intro t ht u hu
    obtain ⟨hp, hm⟩ := hclosers t ht
    refine ⟨by obtain hm | hm := hm <;> simp [hm], ?_, ?_⟩
    · exact Int.le_of_eq (by rw [hp, hend u hu])
    · rw [hp, hend u hu]
      exact Int.le_refl _
  rw [hf]
  refine List.pairwise_append.mpr ⟨Offside.pairwise_precedes_lines
    (contentLinesFrom_ordered 1 0 (Text.lines text)).1, List.pairwise_append.mpr ⟨?_,
      List.pairwise_singleton _ _, fun t ht u hu => hclose t ht u (List.mem_append_right _ hu)⟩,
    fun t ht u hu => ?_⟩
  · exact List.Pairwise.imp_of_mem (R := fun _ _ => True)
      (fun ht hu _ => hclose _ ht _ (List.mem_append_left _ hu))
      (List.pairwise_of_forall fun _ _ => trivial)
  · obtain ⟨l, hl, ht⟩ := Offside.exists_liesOn_lines ht
    obtain ⟨hline, hstop⟩ := ContentLine.le_end hl
    have hs := ht.stop_le
    rw [← hend u hu] at hline
    refine ⟨ht.unended, by rw [ht.line]; exact hline, ?_⟩
    have hstart : u.place.start = text.length := by rw [hend u hu]; rfl
    omega

end NovelScript
