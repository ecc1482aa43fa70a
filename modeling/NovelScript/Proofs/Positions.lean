import NovelScript.Proofs.Contents
import NovelScript.Proofs.LineBreaks

/-!
# Lines and columns of an offset

Every offset in a text has a line, which is one more than the number of line feeds before it, and a
column, which counts from the last of those line feeds. The places of a layout carry offsets, lines
and columns side by side. `Stands` says that they agree with the text, and a `Stretch` that lies in
the text is what the text holds between two such offsets of one line.
-/

namespace NovelScript

namespace Text

/-- The index of the last line feed, or `-1` if there is none. -/
def lastFeed : List Char → Int
  | [] => -1
  | c :: cs => if '\n' ∈ cs then lastFeed cs + 1 else if c = '\n' then 0 else -1

/-- The characters from one offset up to another one. -/
def slice (text : List Char) (start stop : Int) : List Char :=
  (text.take stop.toNat).drop start.toNat

/-- The offset lies in the text, or at its end, on the line and in the column. -/
structure Stands (text : List Char) (offset line column : Int) : Prop where
  nonneg : 0 ≤ offset
  le : offset ≤ text.length
  line : line = (text.take offset.toNat).count '\n' + 1
  column : column = offset - lastFeed (text.take offset.toNat)

/-- The text is empty or ends with a line feed, so a line starts after it. -/
def Opens (front : List Char) : Prop := front = [] ∨ ∃ u, front = u ++ ['\n']

variable {front line rest text : List Char}

theorem lastFeed_of_not_mem (h : '\n' ∉ text) : lastFeed text = -1 := by
  cases text with
  | nil => rfl
  | cons c cs =>
    obtain ⟨hc, hcs⟩ := List.ne_and_not_mem_of_not_mem_cons h
    rw [lastFeed, if_neg hcs, if_neg hc.symm]

theorem lastFeed_append_cons (h : '\n' ∉ line) :
    lastFeed (front ++ '\n' :: line) = front.length := by
  induction front with
  | nil => rw [List.nil_append, lastFeed, if_neg h, if_pos rfl, List.length_nil, Int.natCast_zero]
  | cons c front ih =>
    rw [List.cons_append, lastFeed, if_pos (by simp), ih, List.length_cons, Int.natCast_succ]

/-- The last line feed stands right before the line. -/
theorem Opens.lastFeed (h : Opens front) (hl : '\n' ∉ line) :
    lastFeed (front ++ line) = front.length - 1 := by
  obtain rfl | ⟨u, rfl⟩ := h
  · rw [List.nil_append, lastFeed_of_not_mem hl]
    rfl
  · rw [List.append_assoc, List.singleton_append, lastFeed_append_cons hl, List.length_append,
      List.length_singleton]
    omega

/-- The end of a line, or a part of it, stands on that line. -/
theorem Opens.stands (h : Opens front) (hl : '\n' ∉ line) (rest : List Char) :
    Stands (front ++ line ++ rest) (front.length + line.length) (front.count '\n' + 1)
      (line.length + 1) := by
  have hlength : ((front.length : Int) + line.length).toNat = (front ++ line).length := by
    rw [List.length_append]
    omega
  have htake : (front ++ line ++ rest).take (front ++ line).length = front ++ line := List.take_left
  refine ⟨by omega, ?_, ?_, ?_⟩
  · simp only [List.length_append]
    omega
  · rw [hlength, htake, List.count_append, List.count_eq_zero.mpr hl, Nat.add_zero]
  · rw [hlength, htake, h.lastFeed hl]
    omega

theorem lastFeed_lt (text : List Char) : lastFeed text < text.length := by
  induction text with
  | nil => decide
  | cons c cs ih =>
    rw [lastFeed, List.length_cons]
    split
    · omega
    · split <;> omega

/-- Lines and columns are counted from one. -/
theorem Stands.pos {offset l c : Int} (h : Stands text offset l c) : 1 ≤ l ∧ 1 ≤ c := by
  have hfeed := lastFeed_lt (text.take offset.toNat)
  have hlen := List.length_take_le offset.toNat text
  have hoffset := h.nonneg
  rw [h.line, h.column]
  omega

/-- Every text is whole lines and a last line. -/
theorem exists_opens (text : List Char) :
    ∃ front line, text = front ++ line ∧ Opens front ∧ '\n' ∉ line ∧
      line.length = tailLength text := by
  refine ⟨(text.reverse.dropWhile (· != '\n')).reverse, (text.reverse.takeWhile (· != '\n')).reverse,
    ?_, ?_, fun h => ?_, List.length_reverse⟩
  · rw [← List.reverse_append, List.takeWhile_append_dropWhile, List.reverse_reverse]
  · have hhead := List.head?_dropWhile_not (· != '\n') text.reverse
    generalize text.reverse.dropWhile (· != '\n') = u at hhead
    cases u with
    | nil => exact .inl rfl
    | cons c u =>
      obtain rfl : c = '\n' := by simpa using hhead
      exact .inr ⟨u.reverse, List.reverse_cons⟩
  · have := List.mem_takeWhile_imp (List.mem_reverse.mp h)
    simp at this

/-- The end of a text stands on its last line, behind what that line holds. -/
theorem stands_length (text : List Char) :
    Stands text text.length (text.count '\n' + 1) (tailLength text + 1) := by
  obtain ⟨front, line, rfl, hopens, hline, hlength⟩ := exists_opens text
  have hstands := hopens.stands hline []
  rw [List.append_nil, hlength] at hstands
  rw [List.length_append, List.count_append, List.count_eq_zero.mpr hline, Nat.add_zero,
    Int.natCast_add, hlength]
  exact hstands

end Text

open Text

/-- Characters that stand together on one line, and their place. -/
structure Stretch where
  text : List Char
  place : Place
  deriving DecidableEq, Repr

/-- The place with its lines, columns and offsets stands in the text. -/
structure Place.StandsIn (text : List Char) (p : Place) : Prop where
  start : Stands text p.start p.line p.column
  stop : Stands text p.stop p.line p.endColumn
  le : p.start ≤ p.stop

/-- The text holds the stretch where it says. -/
structure Stretch.LiesIn (text : List Char) (s : Stretch) : Prop where
  place : s.place.StandsIn text
  slice : s.text = Text.slice text s.place.start s.place.stop

/-- A part of a line of a text lies in the text. -/
theorem Stretch.liesIn_of_opens {front before word : List Char} (h : Opens front)
    (hl : '\n' ∉ before ++ word) (rest : List Char) :
    Stretch.LiesIn (front ++ (before ++ word ++ rest))
      ⟨word, (⟨front.count '\n' + 1, 1, front.length, front.length⟩ : Place).stretch
        before.length word.length⟩ := by
  have hstart := h.stands (fun hm => hl (List.mem_append_left _ hm)) (word ++ rest)
  have hstop := h.stands hl rest
  have hslice : (front ++ (before ++ word ++ rest)).take (front ++ before ++ word).length =
      front ++ before ++ word := by
    rw [← List.append_assoc, ← List.append_assoc]
    exact List.take_left
  refine ⟨⟨?_, ?_, ?_⟩, ?_⟩
  · have hcolumn : (1 : Int) + before.length = before.length + 1 := by omega
    simp only [Place.stretch, hcolumn]
    simpa only [List.append_assoc] using hstart
  · have hcolumn : ((⟨front.count '\n' + 1, 1, front.length, front.length⟩ : Place).stretch
        before.length word.length).endColumn = (before ++ word).length + 1 := by
      simp only [Place.endColumn, Place.stretch, List.length_append]
      omega
    have hoffset : (front.length : Int) + before.length + word.length =
        front.length + (before ++ word).length := by
      simp only [List.length_append]
      omega
    rw [hcolumn]
    simp only [Place.stretch, hoffset]
    simpa only [List.append_assoc] using hstop
  · simp only [Place.stretch]
    omega
  · have hto : ((front.length : Int) + before.length + word.length).toNat =
        (front ++ before ++ word).length := by
      simp only [List.length_append]
      omega
    have hfrom : ((front.length : Int) + before.length).toNat = (front ++ before).length := by
      simp only [List.length_append]
      omega
    simp only [Text.slice, Place.stretch]
    rw [hto, hfrom, hslice, List.drop_left]

/-- A content line is a part of the text, at the start of a line. -/
theorem exists_split_of_mem_contentLinesFrom {ls : List (List Char)} (hls : ∀ l ∈ ls, '\n' ∉ l)
    {front : List Char} (hf : Opens front) {l : ContentLine}
    (h : l ∈ contentLinesFrom (front.count '\n' + 1) front.length ls) :
    ∃ before after, front ++ joinWith ['\n'] ls = before ++ (l.indent ++ l.content ++ after) ∧
      Opens before ∧ '\n' ∉ l.indent ++ l.content ∧ l.lineStart = before.length ∧
      l.number = before.count '\n' + 1 := by
  induction ls generalizing front with
  | nil => cases h
  | cons line ls ih =>
    obtain ⟨hline, hrest⟩ := List.forall_mem_cons.mp hls
    -- The other lines come after this one and its line feed, which then belong to what is before.
    have hlater : l ∈ contentLinesFrom (front.count '\n' + 1 + 1) (front.length + line.length + 1) ls →
        ∃ before after,
        front ++ joinWith ['\n'] (line :: ls) = before ++ (l.indent ++ l.content ++ after) ∧
        Opens before ∧ '\n' ∉ l.indent ++ l.content ∧ l.lineStart = before.length ∧
        l.number = before.count '\n' + 1 := by
      intro hl
      have hne : ls ≠ [] := by
        rintro rfl
        cases hl
      have hopens : Opens (front ++ line ++ ['\n']) := .inr ⟨_, rfl⟩
      have hcount : (front ++ line ++ ['\n']).count '\n' = front.count '\n' + 1 := by
        simp [List.count_eq_zero.mpr hline]
      have hlength : (front ++ line ++ ['\n']).length = front.length + line.length + 1 := by
        rw [List.length_append, List.length_append, List.length_singleton]
      rw [← hcount, ← hlength] at hl
      rw [joinWith_cons _ hne, ← List.append_assoc, ← List.append_assoc]
      exact ih hrest hopens hl
    rw [contentLinesFrom, ContentLine.ofLine?_eq] at h
    cases hp : parts? line with
    | none =>
      rw [hp] at h
      exact hlater h
    | some p =>
      rw [hp] at h
      obtain rfl | h := List.mem_cons.mp h
      · have hbody : body line = p.1 ++ p.2 := (parts?_eq_some.mp hp).1
        obtain ⟨tail, htail⟩ := isPrefix_body line
        have hprefix : line <+: joinWith ['\n'] (line :: ls) := by
          cases ls with
          | nil => exact List.prefix_rfl
          | cons m ms => exact (List.prefix_append _ _).trans (List.prefix_append _ _)
        obtain ⟨later, hafter⟩ := hprefix
        refine ⟨front, tail ++ later, ?_, hf, fun hm => hline ?_, rfl, rfl⟩
        · rw [← hafter, ← htail, hbody, List.append_assoc]
        · rw [← htail, hbody]
          exact List.mem_append_left _ hm
      · exact hlater h

theorem exists_split_of_mem_contentLines {text : List Char} {l : ContentLine}
    (h : l ∈ contentLines text) :
    ∃ before after, text = before ++ (l.indent ++ l.content ++ after) ∧ Opens before ∧
      '\n' ∉ l.indent ++ l.content ∧ l.lineStart = before.length ∧
      l.number = before.count '\n' + 1 := by
  have hopens : Opens [] := .inl rfl
  have hsplit := exists_split_of_mem_contentLinesFrom (fun _ hl => not_mem_of_mem_lines hl) hopens h
  rwa [List.nil_append, joinWith_lines] at hsplit

/-- Any part of a content line lies in the text. -/
theorem ContentLine.liesIn {text : List Char} {l : ContentLine} (h : l ∈ contentLines text)
    {before word after : List Char} (hl : l.indent ++ l.content = before ++ word ++ after) :
    Stretch.LiesIn text ⟨word, l.origin.stretch before.length word.length⟩ := by
  obtain ⟨front, rest, rfl, hopens, hfeed, hstart, hnumber⟩ := exists_split_of_mem_contentLines h
  have horigin : l.origin = ⟨front.count '\n' + 1, 1, front.length, front.length⟩ := by
    simp only [ContentLine.origin, hstart, hnumber, Int.natCast_add, Int.cast_ofNat_Int]
  rw [horigin, hl, List.append_assoc _ after rest]
  refine Stretch.liesIn_of_opens hopens (fun hm => hfeed ?_) (after ++ rest)
  rw [hl]
  exact List.mem_append_left _ hm

theorem ContentLine.standsIn {text : List Char} {l : ContentLine} (h : l ∈ contentLines text)
    {i n : Nat} (hn : i + n ≤ l.indent.length + l.content.length) :
    (l.origin.stretch i n).StandsIn text := by
  have hlength : (l.indent ++ l.content).length = l.indent.length + l.content.length :=
    List.length_append
  have hsplit : l.indent ++ l.content = (l.indent ++ l.content).take i ++
      ((l.indent ++ l.content).drop i).take n ++ ((l.indent ++ l.content).drop i).drop n := by
    rw [List.append_assoc, List.take_append_drop, List.take_append_drop]
  have hplace := (ContentLine.liesIn h hsplit).place
  rwa [List.length_take_of_le (by omega), List.length_take_of_le (by rw [List.length_drop]; omega)]
    at hplace

/-- The end of a text stands where the layout puts it. -/
theorem Offside.standsIn_endPlace (text : List Char) : (endPlace text).StandsIn text := by
  have hline : max ((Text.lines text).length : Int) 1 = text.count '\n' + 1 := by
    rw [length_lines]
    omega
  have hend : Stands text (endPlace text).start (endPlace text).line (endPlace text).column := by
    rw [endPlace, hline]
    exact stands_length text
  refine ⟨hend, ?_, Int.le_refl _⟩
  have hcolumn : (endPlace text).endColumn = (endPlace text).column := by
    simp only [Place.endColumn, endPlace]
    omega
  rw [hcolumn]
  exact hend

end NovelScript
