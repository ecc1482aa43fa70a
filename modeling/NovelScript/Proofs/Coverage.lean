import NovelScript.Proofs.Breakdowns
import NovelScript.Proofs.Pointing

/-!
# What the texts of a layout cover

The texts in a layout are the lines that hold more than blanks and a comment, without the white
space around them that belongs to the layout. So a character that is in none of them is a line
break, indents a line, or is part of a line that is skipped. All tokens stand in the text, and they
come in its order.
-/

namespace NovelScript

namespace Text

/-- The line holds nothing but blanks, or nothing but a comment. -/
def Skipped (line : List Char) : Prop :=
  line.all isBlank ∨ (line.dropWhile isIndent).head? = some '#'

instance (line : List Char) : Decidable (Skipped line) := inferInstanceAs (Decidable (_ ∨ _))

/-- The whole line `line` comes after `front` in the text. -/
def HoldsLine (text front line : List Char) : Prop :=
  ∃ rest, text = front ++ line ++ rest ∧ Opens front ∧ '\n' ∉ line ∧
    (rest = [] ∨ ∃ later, rest = '\n' :: later)

/-- A character that belongs to a line break, to the indentation of a line, or to a line that is
skipped. -/
inductive Spare (text : List Char) (i : Nat) : Prop
  | feed (h : text[i]? = some '\n')
  | carriage (h : text[i]? = some '\r') (hend : text[i + 1]? = none ∨ text[i + 1]? = some '\n')
  | indent {front line : List Char} (hl : HoldsLine text front line) (hs : ¬Skipped line)
    (hi : front.length ≤ i) (hlt : i < front.length + (line.takeWhile isIndent).length)
  | skipped {front line : List Char} (hl : HoldsLine text front line) (hs : Skipped line)
    (hi : front.length ≤ i) (hlt : i < front.length + line.length)

variable {text front before after line : List Char} {c : Char} {i : Nat}
  {p : List Char × List Char}

theorem all_isBlank_dropWhile (line : List Char) :
    (line.dropWhile isIndent).all isBlank = line.all isBlank := by
  have hindent : (line.takeWhile isIndent).all isBlank := by
    rw [List.all_eq_true]
    intro c hc
    exact isBlank_of_isInline (isInline_of_isIndent (List.mem_takeWhile_imp hc))
  conv_rhs => rw [← List.takeWhile_append_dropWhile (p := isIndent) (l := line)]
  rw [List.all_append, hindent, Bool.true_and]

/-- The lines that have no content are those that are skipped, carriage return or not. -/
theorem parts?_eq_none_iff : parts? line = none ↔ Skipped line := by
  have hblank : (body line).all isBlank = line.all isBlank := by
    rcases eq_body_or line with h | h
    · rw [← h]
    · conv_rhs => rw [h]
      rw [List.all_append]
      exact (Bool.and_true _).symm
  have hcomment : ((body line).dropWhile isIndent).head? = some '#' ↔
      (line.dropWhile isIndent).head? = some '#' := by
    rcases eq_body_or line with h | h
    · rw [← h]
    · conv_rhs => rw [h]
      rw [List.dropWhile_append]
      cases hd : (body line).dropWhile isIndent with
      | nil => simp [isIndent]
      | cons c cs => rfl
  rw [Skipped, ← hblank, ← hcomment, ← all_isBlank_dropWhile (body line), parts?]
  split
  · next h => simpa using h
  · next h => simpa using h

/-- Every character of a text is a line feed or part of a line. -/
theorem exists_holdsLine (hc : text[i]? = some c) (hne : c ≠ '\n') :
    ∃ front before after, HoldsLine text front (before ++ c :: after) ∧
      i = front.length + before.length := by
  obtain ⟨hi, rfl⟩ := List.getElem?_eq_some_iff.mp hc
  obtain ⟨front, before, hsplit, hopens, hbefore, -⟩ := exists_opens (text.take i)
  have hlength : i = front.length + before.length := by
    have := congrArg List.length hsplit
    rw [List.length_take_of_le (Nat.le_of_lt hi), List.length_append] at this
    exact this
  refine ⟨front, before, (text.drop (i + 1)).takeWhile (· != '\n'),
    ⟨(text.drop (i + 1)).dropWhile (· != '\n'), ?_, hopens, ?_, ?_⟩, hlength⟩
  · rw [← List.append_assoc, ← hsplit, List.append_assoc, List.cons_append,
      List.takeWhile_append_dropWhile, ← List.drop_eq_getElem_cons hi, List.take_append_drop]
  · intro hmem
    rcases List.mem_append.mp hmem with hmem | hmem
    · exact hbefore hmem
    · rcases List.mem_cons.mp hmem with he | hmem
      · exact hne he.symm
      · simpa using List.mem_takeWhile_imp hmem
  · have hhead := List.head?_dropWhile_not (· != '\n') (text.drop (i + 1))
    cases hd : (text.drop (i + 1)).dropWhile (· != '\n') with
    | nil => exact .inl rfl
    | cons d later =>
      rw [hd] at hhead
      exact .inr ⟨later, by simpa using hhead⟩

/-- A character of a line with content indents it, is in the content, or is the carriage return at
the end. -/
theorem position_cases (hp : parts? (before ++ c :: after) = some p) :
    before.length < ((before ++ c :: after).takeWhile isIndent).length ∨
      (p.1.length ≤ before.length ∧ before.length < p.1.length + p.2.length) ∨
      (c = '\r' ∧ after = []) := by
  obtain ⟨hbody, hindent, -, -, -⟩ := parts?_eq_some.mp hp
  have hle : p.1.length ≤ ((before ++ c :: after).takeWhile isIndent).length := by
    obtain ⟨tail, htail⟩ := isPrefix_body (before ++ c :: after)
    rw [← htail, hbody, List.append_assoc, List.takeWhile_append_of_pos hindent,
      List.length_append]
    exact Nat.le_add_right _ _
  by_cases hin : before.length < p.1.length
  · exact .inl (Nat.lt_of_lt_of_le hin hle)
  · by_cases hcontent : before.length < p.1.length + p.2.length
    · exact .inr (.inl ⟨Nat.le_of_not_lt hin, hcontent⟩)
    · -- The body is over before the character.
      have hover : (body (before ++ c :: after)).length ≤ before.length := by
        rw [hbody, List.length_append]
        omega
      rcases eq_body_or (before ++ c :: after) with h | h
      · have := congrArg List.length h
        rw [List.length_append, List.length_cons] at this
        omega
      · have hlength := congrArg List.length h
        rw [List.length_append, List.length_append, List.length_cons, List.length_singleton]
          at hlength
        obtain ⟨-, hlast⟩ := List.append_inj h (by omega)
        exact .inr (.inr (List.cons.inj hlast))

end Text

open Text

variable {text front line : List Char} {i : Nat} {rules : LayoutRules} {tokens : List LayoutToken}
  {t : LayoutToken} {p : List Char × List Char}

theorem mem_contentLines_of_holdsLine (h : HoldsLine text front line) (hp : parts? line = some p) :
    ⟨front.count '\n' + 1, front.length, p.1, p.2⟩ ∈ contentLines text := by
  obtain ⟨rest, rfl, hopens, hline, hrest⟩ := h
  have hfront : front = [] ∨ front.getLast? = some '\n' :=
    hopens.imp_right List.getLast?_eq_some_iff.mpr
  have hfirst : ∃ ls, lines (line ++ rest) = line :: ls := by
    rcases hrest with rfl | ⟨later, rfl⟩
    · exact ⟨[], by rw [List.append_nil, lines_of_not_mem hline]⟩
    · exact ⟨lines later, by rw [lines_append, lines_of_not_mem hline]; rfl⟩
  obtain ⟨ls, hls⟩ := hfirst
  rw [List.append_assoc, contentLines_append hfront, hls, contentLinesFrom,
    ContentLine.ofLine?_eq, hp]
  exact List.mem_append_right _ List.mem_cons_self

/-- What belongs to no content line is spare. -/
theorem spare_or_mem_contentLines (hi : i < text.length) :
    Spare text i ∨ ∃ l ∈ contentLines text, l.start ≤ i ∧ i < l.start + l.content.length := by
  have hc : text[i]? = some text[i] := List.getElem?_eq_getElem hi
  by_cases hfeed : text[i] = '\n'
  · exact .inl (.feed (hc.trans (congrArg some hfeed)))
  · obtain ⟨front, before, after, hholds, rfl⟩ := exists_holdsLine hc hfeed
    cases hp : parts? (before ++ text[front.length + before.length] :: after) with
    | none =>
      refine .inl (.skipped hholds (parts?_eq_none_iff.mp hp) (Nat.le_add_right _ _) ?_)
      rw [List.length_append, List.length_cons]
      omega
    | some p =>
      have hs : ¬Skipped (before ++ text[front.length + before.length] :: after) := by
        rw [← parts?_eq_none_iff, hp]
        exact Option.some_ne_none p
      rcases position_cases hp with hin | ⟨hle, hlt⟩ | ⟨hreturn, hafter⟩
      · exact .inl (.indent hholds hs (Nat.le_add_right _ _) (Nat.add_lt_add_left hin _))
      · refine .inr ⟨_, mem_contentLines_of_holdsLine hholds hp, ?_, ?_⟩
        · exact Nat.add_le_add_left hle _
        · simp only [ContentLine.start]
          omega
      · refine .inl (.carriage (hc.trans (congrArg some hreturn)) ?_)
        obtain ⟨rest, htext, -, -, hrest⟩ := hholds
        have hnext : text[front.length + before.length + 1]? = rest.head? := by
          have hsplit : text = (front ++ before ++ ['\r']) ++ rest := by
            rw [htext, hreturn, hafter, ← List.append_assoc]
          have hlength : (front ++ before ++ ['\r']).length = front.length + before.length + 1 := by
            simp only [List.length_append, List.length_singleton]
          rw [hsplit, ← hlength, List.getElem?_append_right (Nat.le_refl _), Nat.sub_self,
            List.head?_eq_getElem?]
        rw [hnext]
        rcases hrest with rfl | ⟨later, rfl⟩
        · exact .inl rfl
        · exact .inr rfl

/-- The content lines are the lines that are not skipped. -/
theorem map_contentLinesFrom (number lineStart : Nat) (ls : List (List Char)) :
    (contentLinesFrom number lineStart ls).map (fun l => (l.content, l.number, l.indent)) =
      ((ls.zipIdx number).filter fun l => ¬Skipped l.1).map fun l =>
        ((body l.1).dropWhile isIndent, l.2, (body l.1).takeWhile isIndent) := by
  induction ls generalizing number lineStart with
  | nil => rfl
  | cons line ls ih =>
    rw [contentLinesFrom, ContentLine.ofLine?_eq, List.zipIdx_cons]
    cases hp : parts? line with
    | none =>
      rw [List.filter_cons_of_neg (by simpa using parts?_eq_none_iff.mp hp)]
      exact ih _ _
    | some p =>
      have hs : ¬Skipped line := by
        rw [← parts?_eq_none_iff, hp]
        exact Option.some_ne_none p
      have hparts : p = ((body line).takeWhile isIndent, (body line).dropWhile isIndent) := by
        unfold parts? at hp
        simp only at hp
        split at hp
        · cases hp
        · exact (Option.some.inj hp).symm
      rw [List.filter_cons_of_pos (by simpa using hs), List.map_cons, hparts]
      exact congrArg (_ :: ·) (ih _ _)

/-- How the tokens of a layout lie in the text. -/
structure Charted (text : List Char) (tokens : List LayoutToken) : Prop where
  /-- The texts are the lines that are not skipped, in their order, each on its line and behind its
  indentation. -/
  lines : (textsOf tokens).map (fun t => (t.value, t.place.line, t.place.column)) =
    (((lines text).zipIdx 1).filter fun l => ¬Skipped l.1).map fun l =>
      ((body l.1).dropWhile isIndent, (l.2 : Int),
        (((body l.1).takeWhile isIndent).length + 1 : Int))
  texts : ∀ t ∈ textsOf tokens, t.value = slice text t.place.start t.place.stop ∧ '\n' ∉ t.value ∧
    ∀ c, t.value.head? = some c → isIndent c = false
  spare : ∀ i < text.length,
    (∀ t ∈ textsOf tokens, ¬(t.place.start ≤ i ∧ i < t.place.stop)) → Spare text i
  placed : ∀ t ∈ tokens, t.place.StandsIn text
  ordered : tokens.Pairwise fun t u => t.place.start ≤ u.place.start

theorem standsIn_of_layout (h : 1 ≤ rules.tabWidth) (hl : layout rules text = .ok tokens)
    (ht : t ∈ tokens) : t.place.StandsIn text := by
  have hlayouts := Likeness.layouts_standing h text
  rw [hl] at hlayouts
  cases hlayouts with
  | read hts => exact (List.forall₂_same.mp hts t ht).place.2

theorem start_le_start_of_layout (h : layout rules text = .ok tokens) :
    tokens.Pairwise fun t u => t.place.start ≤ u.place.start := by
  refine (pairwise_precedes_of_layout h).imp_of_mem fun ht _ hprecedes => ?_
  exact Int.le_trans (start_le_stop_of_layout h _ ht) hprecedes.stop

theorem charted_of_shaped (hs : Shaped text tokens)
    (hplaced : ∀ t ∈ tokens, t.place.StandsIn text)
    (hordered : tokens.Pairwise fun t u => t.place.start ≤ u.place.start) :
    Charted text tokens where
  lines := by
    have hmap := congrArg (List.map fun l : List Char × Nat × List Char =>
      (l.1, (l.2.1 : Int), (l.2.2.length + 1 : Int))) (map_contentLinesFrom 1 0 (Text.lines text))
    rw [List.map_map, List.map_map] at hmap
    rw [hs.texts, List.map_map]
    exact hmap
  texts := by
    intro t ht
    rw [hs.texts] at ht
    obtain ⟨l, hl, rfl⟩ := List.mem_map.mp ht
    have hsplit : l.indent ++ l.content = l.indent ++ l.content ++ [] := (List.append_nil _).symm
    have hlies := ContentLine.liesIn hl hsplit
    rw [← ContentLine.place_eq] at hlies
    obtain ⟨-, -, -, -, hfeed, -, -⟩ := exists_split_of_mem_contentLines hl
    exact ⟨hlies.slice, fun hm => hfeed (List.mem_append_right _ hm), fun c hc =>
      isIndent_head_content hl hc⟩
  spare := by
    intro i hi hout
    rcases spare_or_mem_contentLines hi with hspare | ⟨l, hl, hstart, hstop⟩
    · exact hspare
    · refine absurd ⟨?_, ?_⟩ (hout l.token (hs.texts ▸ List.mem_map_of_mem hl))
      · exact Int.ofNat_le.mpr hstart
      · change (i : Int) < l.start + l.content.length
        omega
  placed := hplaced
  ordered := hordered

/-- A layout that does not break down is charted in its text. -/
theorem charted_of_layout (rules : LayoutRules) (h : 1 ≤ rules.tabWidth) (text : List Char) :
    (∀ b, layout rules text = .error b ↔ b = .longWidth ∧ LongDedent rules text) ∧
    ∀ tokens, layout rules text = .ok tokens → Charted text tokens :=
  ⟨layout_eq_error_iff h text, fun _ hl => charted_of_shaped (shaped_of_layout hl)
    (fun _ ht => standsIn_of_layout h hl ht) (start_le_start_of_layout hl)⟩

/-- Carriage returns, a form feed, a comment, a line with a no-break space, and no line feed at the
end. -/
def raggedLines : List Char :=
  "label a:\r\n\x0c  # note\n \u00a0\n  pass # x\r\n\tjump b".toList

theorem charted_of_raggedLines : ∃ tokens, 1 ≤ ({} : LayoutRules).tabWidth ∧
    layout {} raggedLines = .ok tokens ∧
    tokens.map (fun t => (t.tag, t.place.start, t.place.stop)) =
      [(.text, 0, 8), (.indent, 25, 25), (.text, 25, 33), (.indent, 36, 36), (.text, 36, 42),
        (.dedent, 42, 42), (.dedent, 42, 42), (.eof, 42, 42)] ∧
    Charted raggedLines tokens := by
  obtain ⟨tokens, hl, hplaces⟩ : ∃ tokens, layout {} raggedLines = .ok tokens ∧
      tokens.map (fun t => (t.tag, t.place.start, t.place.stop)) =
        [(.text, 0, 8), (.indent, 25, 25), (.text, 25, 33), (.indent, 36, 36), (.text, 36, 42),
          (.dedent, 42, 42), (.dedent, 42, 42), (.eof, 42, 42)] :=
    ⟨(Offside.initial.scan {} raggedLines).tokens, by decide +kernel, by decide +kernel⟩
  exact ⟨tokens, by decide, hl, hplaces, (charted_of_layout {} (by decide) raggedLines).2 tokens hl⟩

end NovelScript
