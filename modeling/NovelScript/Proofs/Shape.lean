import NovelScript.Proofs.Continued

/-!
# The shape of a layout

The texts in a layout are the content lines of the script, in their order and each of them once, and
every line ends before the next one starts. The end of the script is the last token and comes right
after a separator or the closing of a block, unless the script has no content line at all.
-/

namespace NovelScript

/-- The token of a content line. -/
def ContentLine.token (l : ContentLine) : LayoutToken := ⟨.text l.content, l.place⟩

/-- The tokens that hold a line. -/
def textsOf (ts : List LayoutToken) : List LayoutToken := ts.filter (·.tag == .text)

@[simp] theorem textsOf_nil : textsOf [] = [] := rfl

@[simp] theorem textsOf_append (ts us : List LayoutToken) :
    textsOf (ts ++ us) = textsOf ts ++ textsOf us := List.filter_append ..

theorem textsOf_cons_of_text {t : LayoutToken} (h : t.tag = .text) (ts : List LayoutToken) :
    textsOf (t :: ts) = t :: textsOf ts := List.filter_cons_of_pos (by simp [h])

theorem textsOf_cons_of_ne {t : LayoutToken} (h : t.tag ≠ .text) (ts : List LayoutToken) :
    textsOf (t :: ts) = textsOf ts := List.filter_cons_of_neg (by simp [h])

theorem textsOf_eq_nil {ts : List LayoutToken} (h : ∀ t ∈ ts, t.tag ≠ .text) : textsOf ts = [] := by
  rw [textsOf, List.filter_eq_nil_iff]
  simpa using h

namespace Offside

variable {rules : LayoutRules} {s : Offside} {w : Int} {place : Place}

/-- To relate a line to the open blocks gives openings, closings and separators only, all of them at
the place of the line. -/
theorem place_of_mem_indentTo {t : LayoutToken} (h : t ∈ (s.indentTo w place).tokens) :
    t.place = place ∧ (t.mark = .indent ∨ t.mark = .newline ∨ t.mark = .dedent ∨
      ∃ cause, t.mark = .fault cause) := by
  have hd : ∀ {xs : List Int}, t ∈ (xs.map fun _ => LayoutToken.mk .dedent place) →
      t.place = place ∧ (t.mark = .indent ∨ t.mark = .newline ∨ t.mark = .dedent ∨
        ∃ cause, t.mark = .fault cause) := by
    intro xs hm
    obtain ⟨x, -, rfl⟩ := List.mem_map.mp hm
    exact ⟨rfl, .inr (.inr (.inl rfl))⟩
  unfold indentTo at h
  split at h
  · simp at h
  · split at h
    · simp_all
    · split at h
      · split at h <;> simp_all
      · simp only at h
        split at h
        · exact hd h
        · split at h
          · exact hd h
          · split at h
            · obtain h | h := List.mem_append.mp h
              · exact hd h
              · rw [List.mem_singleton.mp h]
                exact ⟨rfl, .inr (.inr (.inr ⟨_, rfl⟩))⟩
            · exact hd h

/-- What comes before the text of a line is no text and no end. -/
theorem line_split {l : ContentLine} (h : (s.line rules l).breakdown = none) :
    ∃ front, (s.line rules l).tokens = front ++ [l.token] ∧
      ∀ t ∈ front, t.tag ≠ .text ∧ t.tag ≠ .eof := by
  obtain ⟨-, w, htokens⟩ := line_of_none h
  refine ⟨_, htokens, fun t ht => ?_⟩
  rw [LayoutToken.tag]
  obtain ht | ht := List.mem_append.mp ht
  · simp [mark_of_mem_mixedFaults ht, LayoutMark.tag]
  · obtain ⟨-, h | h | h | ⟨cause, h⟩⟩ := place_of_mem_indentTo ht <;> simp [h, LayoutMark.tag]

/-- The texts among the tokens of lines are those lines, and no end is among the tokens. -/
theorem lines_split {ls : List ContentLine} (h : (s.lines rules ls).breakdown = none) :
    textsOf (s.lines rules ls).tokens = ls.map ContentLine.token ∧
      ∀ t ∈ (s.lines rules ls).tokens, t.tag ≠ .eof := by
  induction ls generalizing s with
  | nil => exact ⟨rfl, by simp [lines]⟩
  | cons l ls ih =>
    rw [lines] at h ⊢
    obtain ⟨hl, hr⟩ := Emission.andThen_breakdown.mp h
    obtain ⟨front, hfront, hmem⟩ := line_split hl
    obtain ⟨htexts, hend⟩ := ih hr
    rw [Emission.andThen_of_none hl, Emission.after_tokens, textsOf_append, htexts, hfront,
      textsOf_append, textsOf_eq_nil fun t ht => (hmem t ht).1]
    refine ⟨rfl, fun t ht => ?_⟩
    obtain ht | ht := List.mem_append.mp ht
    · obtain ht | ht := List.mem_append.mp ht
      · exact (hmem t ht).2
      · rw [List.mem_singleton.mp ht]
        simp [ContentLine.token, LayoutToken.tag, LayoutMark.tag]
    · exact hend t ht

/-- Only separators and closings stand before the end. -/
theorem finish_split (text : List Char) (lastLine : Int) (s : Offside) :
    ∃ closers place, (s.finish text lastLine).tokens = closers ++ [⟨.eof, place⟩] ∧
      (∀ t ∈ closers, t.tag = .newline ∨ t.tag = .dedent) ∧ (s.started = true → closers ≠ []) := by
  unfold finish
  refine ⟨_, _, rfl, fun t ht => ?_, fun hst => ?_⟩
  · split at ht
    · rw [List.eq_of_mem_replicate ht]
      exact .inr rfl
    · split at ht
      · rw [List.mem_singleton.mp ht]
        exact .inl rfl
      · simp at ht
  · split
    · simp only [ne_eq, List.replicate_eq_nil_iff]
      omega
    · simp

end Offside

/-- A content line is a line, perhaps without the carriage return at its end, taken apart. -/
theorem ContentLine.exists_of_ofLine? {number lineStart : Nat} {line : List Char} {l : ContentLine}
    (h : ofLine? number lineStart line = some l) :
    ∃ body : List Char, body <+: line ∧
      l = ⟨number, lineStart, body.takeWhile Text.isIndent, body.dropWhile Text.isIndent⟩ ∧
      l.content.all Text.isBlank = false ∧ l.content.head? ≠ some '#' := by
  have hbody : (if line.getLast? = some '\r' then line.dropLast else line) <+: line := by
    split
    · exact List.dropLast_prefix line
    · exact List.prefix_refl line
  rw [ofLine?] at h
  generalize (if line.getLast? = some '\r' then line.dropLast else line) = body at h hbody
  refine ⟨body, hbody, ?_⟩
  by_cases hc : (body.dropWhile Text.isIndent).all Text.isBlank ||
      (body.dropWhile Text.isIndent).head? = some '#'
  · simp [hc] at h
  · simp only [hc] at h
    cases h
    simp only [Bool.or_eq_true, decide_eq_true_eq, not_or, Bool.not_eq_true] at hc
    exact ⟨rfl, hc.1, hc.2⟩

theorem exists_ofLine?_of_mem {number lineStart : Nat} {ls : List (List Char)} {l : ContentLine}
    (h : l ∈ contentLinesFrom number lineStart ls) :
    ∃ n k, ∃ line ∈ ls, ContentLine.ofLine? n k line = some l := by
  induction ls generalizing number lineStart with
  | nil => simp [contentLinesFrom] at h
  | cons line ls ih =>
    have hrest : l ∈ contentLinesFrom (number + 1) (lineStart + line.length + 1) ls →
        ∃ n k, ∃ line' ∈ line :: ls, ContentLine.ofLine? n k line' = some l := by
      intro hm
      obtain ⟨n, k, line', hmem, he⟩ := ih hm
      exact ⟨n, k, line', List.mem_cons_of_mem _ hmem, he⟩
    rw [contentLinesFrom] at h
    cases hl : ContentLine.ofLine? number lineStart line with
    | none =>
      rw [hl] at h
      exact hrest h
    | some m =>
      rw [hl] at h
      obtain rfl | h := List.mem_cons.mp h
      · exact ⟨_, _, line, List.mem_cons_self, hl⟩
      · exact hrest h

/-- A content starts with no white space that indents a line. -/
theorem isIndent_head_content {text : List Char} {l : ContentLine} (h : l ∈ contentLines text)
    {c : Char} (hc : l.content.head? = some c) : Text.isIndent c = false := by
  obtain ⟨n, k, line, -, he⟩ := exists_ofLine?_of_mem h
  obtain ⟨body, -, rfl, -, -⟩ := ContentLine.exists_of_ofLine? he
  exact Text.not_of_head?_dropWhile hc

/-- The line `l` is over before the line `m` starts. -/
structure ContentLine.Before (l m : ContentLine) : Prop where
  number : l.number < m.number
  stop : l.start + l.content.length < m.lineStart

/-- Content lines lie one after the other, within the lines they come from. -/
theorem contentLinesFrom_ordered (number lineStart : Nat) (ls : List (List Char)) :
    (contentLinesFrom number lineStart ls).Pairwise ContentLine.Before ∧
      ∀ l ∈ contentLinesFrom number lineStart ls, number ≤ l.number ∧ lineStart ≤ l.lineStart ∧
        l.number < number + ls.length ∧
        l.start + l.content.length < lineStart + Text.totalLength ls := by
  induction ls generalizing number lineStart with
  | nil => simp [contentLinesFrom]
  | cons line ls ih =>
    obtain ⟨hp, hbounds⟩ := ih (number + 1) (lineStart + line.length + 1)
    have hlater : ∀ l ∈ contentLinesFrom (number + 1) (lineStart + line.length + 1) ls,
        number ≤ l.number ∧ lineStart ≤ l.lineStart ∧ l.number < number + (line :: ls).length ∧
          l.start + l.content.length < lineStart + Text.totalLength (line :: ls) := by
      intro l hm
      have := hbounds l hm
      simp only [List.length_cons, Text.totalLength]
      omega
    rw [contentLinesFrom]
    cases hl : ContentLine.ofLine? number lineStart line with
    | none => exact ⟨hp, hlater⟩
    | some l =>
      have hstart : l.number = number ∧ l.lineStart = lineStart ∧
          l.indent.length + l.content.length ≤ line.length := by
        obtain ⟨body, hbody, rfl, -, -⟩ := ContentLine.exists_of_ofLine? hl
        refine ⟨rfl, rfl, ?_⟩
        rw [← List.length_append, List.takeWhile_append_dropWhile]
        exact hbody.length_le
      have hstop : l.start = lineStart + l.indent.length := by rw [ContentLine.start, hstart.2.1]
      refine ⟨List.pairwise_cons.mpr ⟨fun m hm => ?_, hp⟩, fun m hm => ?_⟩
      · have := hbounds m hm
        exact ⟨by omega, by omega⟩
      · obtain rfl | hm := List.mem_cons.mp hm
        · simp only [List.length_cons, Text.totalLength]
          omega
        · exact hlater m hm

/-- The shape of every layout. -/
structure Shaped (text : List Char) (tokens : List LayoutToken) : Prop where
  texts : textsOf tokens = (contentLines text).map ContentLine.token
  split : ∃ front place, tokens = front ++ [⟨.eof, place⟩] ∧ (∀ t ∈ front, t.tag ≠ .eof) ∧
    (front = [] ∨ ∃ front' t, front = front' ++ [t] ∧ (t.tag = .newline ∨ t.tag = .dedent))

/-- The texts before the end are the content lines. -/
theorem Shaped.textsOf_front {text : List Char} {front : List LayoutToken} {place : Place}
    (h : Shaped text (front ++ [⟨.eof, place⟩])) :
    textsOf front = (contentLines text).map ContentLine.token := by
  have htexts := h.texts
  rwa [textsOf_append, show textsOf [⟨.eof, place⟩] = [] from rfl, List.append_nil] at htexts

theorem shaped_of_layout {rules : LayoutRules} {text : List Char} {tokens : List LayoutToken}
    (h : layout rules text = .ok tokens) : Shaped text tokens := by
  obtain ⟨hb, rfl⟩ := layout_eq_ok.mp h
  obtain ⟨htexts, hend⟩ := Offside.lines_split hb
  obtain ⟨closers, place, hf, hclosers, hne⟩ := Offside.finish_split text (Text.lines text).length
    (Offside.initial.lines rules (contentLines text)).state
  have hplain : ∀ t ∈ closers ++ [⟨.eof, place⟩], t.tag ≠ .text := by
    intro t ht
    obtain ht | ht := List.mem_append.mp ht
    · obtain h | h := hclosers t ht <;> simp [h]
    · rw [List.mem_singleton.mp ht]
      simp [LayoutToken.tag, LayoutMark.tag]
  rw [hf]
  refine ⟨?_, _, place, (List.append_assoc ..).symm, fun t ht => ?_, ?_⟩
  · rw [textsOf_append, htexts, textsOf_eq_nil hplain, List.append_nil]
  · obtain ht | ht := List.mem_append.mp ht
    · exact hend t ht
    · obtain h | h := hclosers t ht <;> simp [h]
  · by_cases hc : contentLines text = []
    · rw [hc] at hf ⊢
      simp only [Offside.lines, Offside.finish, Offside.initial, List.length_singleton,
        Nat.lt_irrefl, gt_iff_lt, if_false, Bool.false_eq_true, List.nil_append] at hf
      have hnil : closers = [] := by
        have hlen := congrArg List.length hf
        simp only [List.length_append, List.length_singleton] at hlen
        exact List.eq_nil_of_length_eq_zero (by omega)
      exact .inl (by rw [hnil]; rfl)
    · obtain ⟨hst, -⟩ := Offside.lines_of_none hc hb
      obtain ⟨init, last, rfl⟩ : ∃ init last, closers = init ++ [last] := by
        rcases List.eq_nil_or_concat closers with hnil | ⟨init, last, hlast⟩
        · exact absurd hnil (hne hst)
        · exact ⟨init, last, by rw [hlast, List.concat_eq_append]⟩
      exact .inr ⟨_, last, (List.append_assoc ..).symm, hclosers last (by simp)⟩

end NovelScript
