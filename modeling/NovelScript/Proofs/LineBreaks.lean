import Mathlib
import NovelScript.Proofs.Contents
import NovelScript.Proofs.Readings

/-!
# Line breaks of two characters

A text may end its lines with a carriage return and a line feed. The carriage returns belong to no
line, so a script says the same with them. Every offset then grows by the number of line breaks
before it, which is the number of its line less one.
-/

namespace NovelScript

/-! What becomes of a place. -/

/-- The place when each line before its own ends with one character more. -/
def Place.spread (p : Place) : Place :=
  { p with start := p.start + (p.line - 1), stop := p.stop + (p.line - 1) }

/-- The span when each line before either of its ends has one character more. -/
def Span.spread (s : Span) : Span :=
  { s with start := s.start + (s.line - 1), stop := s.stop + (s.endLine - 1) }

def LayoutToken.spread (t : LayoutToken) : LayoutToken := { t with place := t.place.spread }

/-- The content line when each line before it has one character more. -/
def ContentLine.spread (l : ContentLine) : ContentLine :=
  { l with lineStart := l.lineStart + (l.number - 1) }

def Spot.spread (s : Spot) : Spot := { s with offset := s.offset.map (· + (s.line - 1)) }

def Context.spread (c : Context) : Context := { c with spot := c.spot.spread }

def Report.spread (r : Report) : Report := { r with context := r.context.map Context.spread }

/-- The failure with its offset further on. All else that is reported stays as it is. -/
def Failure.spread : Failure → Failure
  | breakdown b => breakdown b
  | refused report => refused report.spread

theorem Place.span_spread (p : Place) : p.spread.span = p.span.spread := by
  have hend : p.spread.endColumn = p.endColumn := by
    simp only [endColumn, spread]
    omega
  simp only [span, hend]
  rfl

theorem Place.spot_spread (p : Place) : p.spread.spot = p.spot.spread := rfl

theorem Place.wideSpot_spread (p : Place) : p.spread.wideSpot = p.wideSpot.spread := by
  have hend := congrArg Span.endColumn p.span_spread
  change p.spread.endColumn = p.endColumn at hend
  simp only [wideSpot, hend, spot_spread]
  rfl

/-- A report shows the line and the column of a fault, but not its offset. -/
theorem Report.text_spread (r : Report) : r.spread.text = r.text := by
  have hnumbered : ∀ (s : Spot) (n : Int) (ls : List (List Char)),
      Context.numbered s.spread n ls = Context.numbered s n ls := by
    intro s n ls
    induction ls generalizing n with
    | nil => rfl
    | cons l ls ih => rw [Context.numbered, Context.numbered, ih]; rfl
  have hcontext : ∀ c : Context, c.spread.text = c.text := by
    intro c
    simp only [Context.text, Context.spread, hnumbered]
    rfl
  obtain ⟨faultClass, reason, message, context⟩ := r
  cases context with
  | none => rfl
  | some c => simp only [Report.text, Report.spread, Option.map_some, hcontext]

namespace Text

/-- The text with a carriage return before each line feed. -/
def crlf (text : List Char) : List Char :=
  text.flatMap fun c => if c = '\n' then ['\r', '\n'] else [c]

/-- The lines with a carriage return at the end of each but the last. -/
def returned : List (List Char) → List (List Char)
  | [] => []
  | [l] => [l]
  | l :: ls => (l ++ ['\r']) :: returned ls

/-- The character at the offset, or the end of the text, lies on the line. -/
def OnLine (text : List Char) (offset line : Int) : Prop :=
  ∃ n : Nat, offset = n ∧ line = (text.take n).count '\n' + 1

variable {text : List Char} {a b l m : Int}

theorem crlf_nil : crlf [] = [] := rfl

theorem crlf_cons (c : Char) (cs : List Char) :
    crlf (c :: cs) = if c = '\n' then '\r' :: '\n' :: crlf cs else c :: crlf cs := by
  rw [crlf, List.flatMap_cons]
  split <;> rfl

theorem returned_cons {l : List Char} {ls : List (List Char)} (h : ls ≠ []) :
    returned (l :: ls) = (l ++ ['\r']) :: returned ls := by
  cases ls with
  | nil => exact absurd rfl h
  | cons => rfl

theorem lines_crlf (text : List Char) : lines (crlf text) = returned (lines text) := by
  induction text with
  | nil => rfl
  | cons c cs ih =>
    obtain ⟨l, ls, hl⟩ := List.exists_cons_of_ne_nil (lines_ne_nil cs)
    rw [crlf_cons]
    by_cases hc : c = '\n'
    · rw [if_pos hc, lines, lines, lines, ih, if_pos hc, returned_cons (lines_ne_nil cs)]
      rfl
    · rw [if_neg hc, lines, lines, ih, if_neg hc, if_neg hc, hl]
      cases ls <;> rfl

theorem length_lines_crlf (text : List Char) :
    (lines (crlf text)).length = (lines text).length := by
  rw [lines_crlf]
  generalize lines text = ls
  fun_induction returned ls <;> simp_all

theorem length_crlf (text : List Char) : (crlf text).length = text.length + text.count '\n' := by
  induction text with
  | nil => rfl
  | cons c cs ih =>
    rw [crlf_cons]
    by_cases hc : c = '\n'
    · rw [if_pos hc, hc, List.count_cons_self]
      simp only [List.length_cons, ih]
      omega
    · rw [if_neg hc, List.count_cons_of_ne hc]
      simp only [List.length_cons, ih]
      omega

theorem tailLength_crlf (text : List Char) : tailLength (crlf text) = tailLength text := by
  induction text using List.reverseRecOn with
  | nil => rfl
  | append_singleton u c ih =>
    have hconcat : crlf (u ++ [c]) = crlf u ++ crlf [c] := List.flatMap_append
    rw [hconcat, crlf_cons]
    by_cases hc : c = '\n'
    · simp [tailLength, hc, crlf_nil]
    · simpa [tailLength, hc, crlf_nil] using ih

theorem boundaryLines_crlf (h : '\r' ∉ text) : boundaryLines (crlf text) = boundaryLines text := by
  have hcons : ∀ {c : Char} {cs cs' : List Char}, c ≠ '\r' →
      boundaryLines cs' = boundaryLines cs → boundaryLines (c :: cs') = boundaryLines (c :: cs) := by
    intro c cs cs' hc h
    simp only [boundaryLines, h, hc, false_implies, implies_true]
  induction text with
  | nil => rfl
  | cons c cs ih =>
    obtain ⟨hc, hcs⟩ := List.ne_and_not_mem_of_not_mem_cons h
    rw [crlf_cons]
    by_cases hbreak : c = '\n'
    · rw [if_pos hbreak, hbreak]
      exact congrArg ([] :: ·) (ih hcs)
    · rw [if_neg hbreak]
      exact hcons hc.symm (ih hcs)

theorem excerpt_crlf (h : '\r' ∉ text) (line : Int) :
    excerpt (crlf text) line = excerpt text line := by
  rw [excerpt, excerpt, boundaryLines_crlf h]

theorem OnLine.le (ha : OnLine text a l) (hb : OnLine text b m) (h : a ≤ b) : l ≤ m := by
  obtain ⟨i, rfl, rfl⟩ := ha
  obtain ⟨j, rfl, rfl⟩ := hb
  have hij : i ≤ j := by omega
  have := (List.take_sublist_take_left (l := text) hij).count_le '\n'
  omega

/-- The order of offsets stays as it is when the carriage returns are put in. -/
theorem OnLine.le_iff (ha : OnLine text a l) (hb : OnLine text b m) :
    a + (l - 1) ≤ b + (m - 1) ↔ a ≤ b := by
  constructor
  · intro h
    by_contra hlt
    have := hb.le ha (by omega)
    omega
  · intro h
    have := ha.le hb h
    omega

theorem parts?_returned {line : List Char} (h : '\r' ∉ line) :
    parts? (line ++ ['\r']) = parts? line := by
  unfold parts?
  rw [body_concat, body_of_not_mem h]

end Text

/-! Content lines. -/

namespace ContentLine

/-- The place before the first character of the line. -/
def origin (l : ContentLine) : Place := ⟨l.number, 1, l.lineStart, l.lineStart⟩

theorem stretch_place (l : ContentLine) (i n : Nat) :
    l.place.stretch i n = l.origin.stretch (l.indent.length + i) n := by
  simp only [Place.stretch, place, origin, start, Place.mk.injEq, true_and]
  omega

theorem place_eq (l : ContentLine) :
    l.place = l.origin.stretch l.indent.length l.content.length := by
  simp only [Place.stretch, place, origin, start, Place.mk.injEq, true_and]
  omega

theorem opening_eq (l : ContentLine) : l.place.opening = l.origin.stretch l.indent.length 0 := by
  simp only [Place.opening, Place.stretch, place, origin, start, Place.mk.injEq, true_and]
  omega

theorem indentPlace_eq (l : ContentLine) :
    l.indentPlace = l.origin.stretch 0 l.indent.length := by
  simp only [Place.stretch, indentPlace, origin, start, Place.mk.injEq, true_and]
  omega

end ContentLine

theorem contentLinesFrom_returned {ls : List (List Char)} (h : ∀ l ∈ ls, '\r' ∉ l) {number : Nat}
    (hn : 1 ≤ number) (lineStart : Nat) :
    contentLinesFrom number (lineStart + (number - 1)) (Text.returned ls) =
      (contentLinesFrom number lineStart ls).map ContentLine.spread := by
  induction ls generalizing number lineStart with
  | nil => rfl
  | cons line ls ih =>
    obtain ⟨hline, hrest⟩ := List.forall_mem_cons.mp h
    cases ls with
    | nil =>
      simp only [Text.returned, contentLinesFrom, ContentLine.ofLine?_eq]
      cases Text.parts? line <;> rfl
    | cons m ls =>
      -- One more line, and one more carriage return before what follows.
      have hlater := ih hrest (Nat.le_add_left 1 number) (lineStart + line.length + 1)
      have hstart : lineStart + (number - 1) + (line ++ ['\r']).length + 1 =
          lineStart + line.length + 1 + (number + 1 - 1) := by
        rw [List.length_append, List.length_singleton]
        omega
      rw [Text.returned_cons (List.cons_ne_nil m ls), contentLinesFrom, contentLinesFrom, hstart,
        hlater, ContentLine.ofLine?_eq, ContentLine.ofLine?_eq, Text.parts?_returned hline]
      cases Text.parts? line <;> rfl

theorem contentLines_crlf {text : List Char} (h : '\r' ∉ text) :
    contentLines (Text.crlf text) = (contentLines text).map ContentLine.spread := by
  have hlines : ∀ l ∈ Text.lines text, '\r' ∉ l := fun l hl hmem =>
    h ((Text.infix_of_mem_lines hl).subset hmem)
  rw [contentLines, contentLines, Text.lines_crlf]
  exact contentLinesFrom_returned hlines (Nat.le_refl 1) 0

/-- What a content line holds lies on the line it comes from. -/
theorem onLine_of_mem_contentLinesFrom {number lineStart : Nat} {ls : List (List Char)}
    (hls : ∀ l ∈ ls, '\n' ∉ l) {l : ContentLine} (h : l ∈ contentLinesFrom number lineStart ls)
    {i : Nat} (hi : i ≤ l.indent.length + l.content.length) :
    ∃ n, l.lineStart + i = lineStart + n ∧
      l.number = number + ((Text.joinWith ['\n'] ls).take n).count '\n' := by
  induction ls generalizing number lineStart with
  | nil => cases h
  | cons line ls ih =>
    obtain ⟨hline, hrest⟩ := List.forall_mem_cons.mp hls
    rw [contentLinesFrom, ContentLine.ofLine?_eq] at h
    have hmem : (∃ p, Text.parts? line = some p ∧ l = ⟨number, lineStart, p.1, p.2⟩) ∨
        l ∈ contentLinesFrom (number + 1) (lineStart + line.length + 1) ls := by
      cases hp : Text.parts? line with
      | none =>
        rw [hp] at h
        exact .inr h
      | some p =>
        rw [hp] at h
        obtain rfl | h := List.mem_cons.mp h
        · exact .inl ⟨p, rfl, rfl⟩
        · exact .inr h
    obtain ⟨p, hp, rfl⟩ | h := hmem
    · -- The first `i` characters end within the first line, so they hold no line feed.
      have hbody := congrArg List.length (Text.parts?_eq_some.mp hp).1
      have hle := (Text.isPrefix_body line).length_le
      rw [List.length_append] at hbody
      simp only at hi ⊢
      have hprefix : line <+: Text.joinWith ['\n'] (line :: ls) := by
        cases ls with
        | nil => exact List.prefix_rfl
        | cons m ms => exact (List.prefix_append _ _).trans (List.prefix_append _ _)
      obtain ⟨later, hlater⟩ := hprefix
      have hzero : (line.take i).count '\n' = 0 :=
        List.count_eq_zero.mpr fun hmem => hline (List.mem_of_mem_take hmem)
      refine ⟨i, rfl, ?_⟩
      rw [← hlater, List.take_append_of_le_length (by omega), hzero, Nat.add_zero]
    · -- The first line and its line feed come before.
      obtain ⟨n, hstart, hnumber⟩ := ih hrest h
      have hne : ls ≠ [] := by
        rintro rfl
        cases h
      refine ⟨line.length + 1 + n, by omega, ?_⟩
      rw [Text.joinWith_cons _ hne, List.append_assoc, Nat.add_assoc, List.take_length_add_append,
        List.singleton_append, Nat.add_comm 1, List.take_succ_cons, List.count_append,
        List.count_eq_zero.mpr hline, List.count_cons_self]
      omega

theorem onLine_of_mem_contentLines {text : List Char} {l : ContentLine}
    (h : l ∈ contentLines text) {i : Nat} (hi : i ≤ l.indent.length + l.content.length) :
    Text.OnLine text (l.lineStart + i) l.number := by
  obtain ⟨n, hstart, hnumber⟩ :=
    onLine_of_mem_contentLinesFrom (fun _ hl => Text.not_mem_of_mem_lines hl) h hi
  rw [Text.joinWith_lines] at hnumber
  exact ⟨n, by omega, by omega⟩

/-! Both readings. -/

namespace Offside

theorem endPlace_crlf (text : List Char) : endPlace (Text.crlf text) = (endPlace text).spread := by
  rw [endPlace, Text.length_lines_crlf, Text.tailLength_crlf, Text.length_crlf]
  simp only [endPlace, Place.spread, Text.length_lines, Place.mk.injEq, true_and]
  omega

theorem onLine_endPlace (text : List Char) :
    Text.OnLine text (endPlace text).start (endPlace text).line := by
  refine ⟨text.length, rfl, ?_⟩
  rw [List.take_length, endPlace, Text.length_lines]
  simp only
  omega

end Offside

namespace Span

/-- Both ends of the span lie on their lines of the text. -/
structure LiesIn (text : List Char) (s : Span) : Prop where
  start : Text.OnLine text s.start s.line
  stop : Text.OnLine text s.stop s.endLine

variable {text : List Char} {a b : Span}

theorem LiesIn.cover (ha : a.LiesIn text) (hb : b.LiesIn text) : (a.cover b).LiesIn text := by
  obtain ⟨f, l, hf, hl, -, -, he⟩ := Span.cover_cases a b
  rw [he]
  constructor
  · rcases hf with rfl | rfl
    · exact ha.start
    · exact hb.start
  · rcases hl with rfl | rfl
    · exact ha.stop
    · exact hb.stop

theorem LiesIn.spread_cover (ha : a.LiesIn text) (hb : b.LiesIn text) :
    (a.cover b).spread = a.spread.cover b.spread := by
  have hstart := ha.start.le_iff hb.start
  have hstop := ha.stop.le_iff hb.stop
  have hstop' := hb.stop.le_iff ha.stop
  simp only [Span.cover, spread, hstart]
  by_cases h : a.start ≤ b.start
  · simp only [h, if_true, hstop]
    split <;> rfl
  · simp only [h, if_false, hstop']
    split <;> rfl

end Span

namespace Likeness

/-- What stands in the text, and the same with the carriage returns. -/
def spread (text : List Char) : Likeness where
  place p p' := p' = p.spread ∧ p.span.LiesIn text
  span s s' := s' = s.spread ∧ s.LiesIn text
  cause := Eq
  strict := True
  span_of_place := by
    rintro p _ ⟨rfl, h⟩
    exact ⟨p.span_spread, h⟩
  cover := by
    rintro a _ b _ ⟨rfl, ha⟩ ⟨rfl, hb⟩
    exact ⟨(ha.spread_cover hb).symm, ha.cover hb⟩

variable {text : List Char}

theorem spots_spread {s s' : Spot} (h : (spread text).Spots s s') : s' = s.spread := by
  cases h with
  | narrow h => rw [h.1, Place.spot_spread]
  | wide h => rw [h.1, Place.wideSpot_spread]

theorem faults_spread {f f' : Fault} (h : (spread text).Faults f f') :
    f' = ⟨f.cause, f.spot.spread⟩ := by
  obtain ⟨cause, spot⟩ := f
  obtain ⟨cause', spot'⟩ := f'
  obtain rfl := spots_spread h.spot
  cases h.cause with
  | same => rfl
  | layout hc => rw [show _ = _ from hc]

theorem tokens_spread {t t' : LayoutToken} (h : (spread text).Tokens t t') : t' = t.spread := by
  cases h with
  | same hm hp => rw [hp.1]; rfl
  | fault hc hp => rw [hp.1, show _ = _ from hc]; rfl
  | line K => rw [K.strict trivial, List.append_nil, K.place.1]; rfl

theorem place_spread {l : ContentLine} (hl : l ∈ contentLines text) {i n : Nat}
    (h : i + n ≤ l.indent.length + l.content.length) :
    (spread text).place (l.origin.stretch i n) (l.spread.origin.stretch i n) := by
  have hstart := onLine_of_mem_contentLines hl (i := i) (by omega)
  have hstop := onLine_of_mem_contentLines hl h
  have hnumber : 1 ≤ l.number := ((contentLinesFrom_ordered 1 0 (Text.lines text)).2 l hl).1
  rw [Int.natCast_add, ← Int.add_assoc] at hstop
  refine ⟨?_, hstart, hstop⟩
  simp only [Place.spread, Place.stretch, ContentLine.origin, ContentLine.spread, Place.mk.injEq,
    true_and]
  omega

theorem lines_spread {rules : LayoutRules} (h : 1 ≤ rules.tabWidth) {l : ContentLine}
    (hl : l ∈ contentLines text) : (spread text).Lines rules id l l.spread where
  width := by
    obtain ⟨w, hpos, hw⟩ := rules.exists_width h l.indent
    exact ⟨w, hw, hpos, hpos⟩
  mixed := by
    have hindent : (spread text).place l.indentPlace l.spread.indentPlace := by
      rw [ContentLine.indentPlace_eq, ContentLine.indentPlace_eq]
      exact place_spread hl (by omega)
    unfold Offside.mixedFaults
    change List.Forall₂ _ _ (if isMixed l.indent && !rules.allowMixed then _ else _)
    split
    · exact .cons (.fault rfl hindent) .nil
    · exact .nil
  opening := by
    rw [ContentLine.opening_eq, ContentLine.opening_eq]
    exact place_spread hl (by omega)
  token := by
    have hplace : (spread text).place l.place l.spread.place := by
      rw [ContentLine.place_eq, ContentLine.place_eq]
      exact place_spread hl (Nat.le_refl _)
    have hplaces : ∀ {i n : Nat}, i + n ≤ l.content.length →
        (spread text).place (l.place.stretch i n) (l.spread.place.stretch i n) := by
      intro i n hn
      rw [ContentLine.stretch_place, ContentLine.stretch_place]
      exact place_spread hl (by omega)
    have htoken : l.spread.token = ⟨.text (l.content ++ []), l.spread.place⟩ := by
      rw [List.append_nil]
      rfl
    rw [htoken]
    exact .line ⟨l.content, [], l.place, l.spread.place, rfl, fun _ => rfl, hplace, hplaces⟩

theorem layouts_spread {rules : LayoutRules} (h : 1 ≤ rules.tabWidth) (hr : '\r' ∉ text) :
    (spread text).Layouts (layout rules text) (layout rules (Text.crlf text)) := by
  have hlines : List.Forall₂ ((spread text).Lines rules id) (contentLines text)
      (contentLines (Text.crlf text)) := by
    rw [contentLines_crlf hr, List.forall₂_map_right_iff]
    exact List.forall₂_same.mpr fun l hl => lines_spread h hl
  have hend : (spread text).place (Offside.endPlace text) (Offside.endPlace (Text.crlf text)) :=
    ⟨Offside.endPlace_crlf text, Offside.onLine_endPlace text, Offside.onLine_endPlace text⟩
  exact layouts_of_equal_widths (fun _ _ => rfl) hlines hend

end Likeness

namespace Script

variable {rules : LayoutRules} {text : List Char}

theorem layout_crlf (h : 1 ≤ rules.tabWidth) (hr : '\r' ∉ text) :
    layout rules (Text.crlf text) = (layout rules text).map (List.map LayoutToken.spread) := by
  have hlayouts := Likeness.layouts_spread h hr
  generalize layout rules text = x, layout rules (Text.crlf text) = y at hlayouts
  cases hlayouts with
  | broken b => rfl
  | @read ts ts' hts =>
    have hmap := map_eq_of_forall₂ (f := LayoutToken.spread) (g := id) hts
      fun _ _ ht => (Likeness.tokens_spread ht).symm
    rw [List.map_id] at hmap
    rw [← hmap]
    rfl

theorem report_crlf (hr : '\r' ∉ text) (f : Fault) (file : Option Path) :
    Fault.report ⟨f.cause, f.spot.spread⟩ file (some (Text.crlf text)) =
      (f.report file (some text)).spread := by
  cases text with
  | nil => rfl
  | cons c cs =>
    have hne : Text.crlf (c :: cs) ≠ [] := by
      rw [Text.crlf_cons]
      split <;> exact List.cons_ne_nil _ _
    obtain ⟨d, ds, hd⟩ := List.exists_cons_of_ne_nil hne
    have hexcerpt := Text.excerpt_crlf hr f.spot.line
    rw [hd] at hexcerpt ⊢
    simp only [Fault.report, Report.located]
    rw [show f.spot.spread.line = f.spot.line from rfl, hexcerpt]
    rfl

/-- It does not matter whether lines end with a line feed or with a carriage return and a line feed.
The layout has the same tokens, and a script has the same tree. A text that is refused is refused
with the same report, which reads the same. All offsets grow by the number of line breaks before
them. -/
theorem parse_crlf (rules : LayoutRules) (h : 1 ≤ rules.tabWidth) (text : List Char)
    (hr : '\r' ∉ text) (file : Option Path) :
    layout rules (Text.crlf text) = (layout rules text).map (List.map LayoutToken.spread) ∧
    parse rules (Text.crlf text) file =
      ((parse rules text file).map (SourceFile.mapSpans Span.spread)).mapError Failure.spread ∧
    ∀ r, parse rules text file = .error (.refused r) → r.spread.text = r.text := by
  refine ⟨layout_crlf h hr, ?_, fun r _ => r.text_spread⟩
  have hreadings := Likeness.readings_of_layouts (Likeness.layouts_spread h hr) file
  generalize parse rules text file = x, parse rules (Text.crlf text) file = y at hreadings
  cases hreadings with
  | breakdown b => rfl
  | refused hf =>
    obtain ⟨f', rfl, hfault⟩ := hf trivial
    rw [Likeness.faults_spread hfault, report_crlf hr]
    rfl
  | @tree ss ss' hss hne =>
    have hspan := span_extentOf hss hne
    rw [hspan.1, eq_mapAllSpans_of_matches (fun _ _ hs => hs.1) hss]
    rfl

theorem parse_crlf_twoLines :
    (∃ f, parse {} "if x:\n  pass\n".toList = .ok f ∧
      parse {} "if x:\r\n  pass\r\n".toList = .ok (f.mapSpans Span.spread)) ∧
    ∃ r, parse {} "pass\njump\n".toList = .error (.refused r) ∧
      parse {} "pass\r\njump\r\n".toList = .error (.refused r.spread) ∧
      r.spread.text = r.text := by
  constructor
  · obtain ⟨f, hf⟩ := exists_of_toBool (x := parse {} "if x:\n  pass\n".toList) (by cbv)
    have hparse := (parse_crlf {} (by decide) "if x:\n  pass\n".toList (by decide) none).2.1
    rw [hf] at hparse
    exact ⟨f, hf, hparse⟩
  · have hlayout : layout {} "pass\njump\n".toList = .ok [⟨.text "pass".toList, ⟨1, 1, 0, 4⟩⟩,
        ⟨.newline, ⟨2, 1, 5, 5⟩⟩, ⟨.text "jump".toList, ⟨2, 1, 5, 9⟩⟩,
        ⟨.newline, ⟨3, 1, 10, 10⟩⟩, ⟨.eof, ⟨3, 1, 10, 10⟩⟩] := by cbv
    have he := parse_of_refused none hlayout (by cbv) (by cbv : _ = Except.error
      ⟨.unexpected "label name" .endOfLine, ⟨2, 5, some 9, some 2, some 5⟩⟩)
    obtain ⟨-, hparse, htext⟩ :=
      parse_crlf {} (by decide) "pass\njump\n".toList (by decide) none
    rw [he] at hparse
    exact ⟨_, he, hparse, htext _ he⟩

end Script

end NovelScript
