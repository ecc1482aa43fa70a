import NovelScript.Proofs.Accesses
import NovelScript.Proofs.Positions

/-!
# Faults point into the text

A script is refused at a spot of its text: the offset lies within the text, line and column belong
to that offset, and the end of the spot, where there is one, lies on the same line and not before
it. A text is compared with itself for this, under a likeness of the places that stand in it.
-/

namespace NovelScript

open Text

/-- The spot stands in the text, and so does its end, on the same line. -/
structure Spot.PointsInto (text : List Char) (s : Spot) : Prop where
  offset : ∃ k, s.offset = some k ∧ Stands text k s.line s.column
  endLine : s.endLine = s.endColumn.map fun _ => s.line
  endColumn : ∀ c ∈ s.endColumn, s.column ≤ c ∧ ∃ k, Stands text k s.line c

theorem Place.StandsIn.spot {text : List Char} {p : Place} (h : p.StandsIn text) :
    p.spot.PointsInto text :=
  ⟨⟨_, rfl, h.start⟩, rfl, nofun⟩

theorem Place.StandsIn.wideSpot {text : List Char} {p : Place} (h : p.StandsIn text) :
    p.wideSpot.PointsInto text := by
  refine ⟨⟨_, rfl, h.start⟩, rfl, ?_⟩
  rintro c ⟨⟩
  have hle := h.le
  refine ⟨?_, _, h.stop⟩
  change p.column ≤ p.column + (p.stop - p.start)
  omega

namespace Likeness

/-- What stands in the text, and the same. -/
def standing (text : List Char) : Likeness where
  place p p' := p' = p ∧ p.StandsIn text
  span s s' := s' = s
  cause := Eq
  strict := True
  span_of_place := by
    rintro p _ ⟨rfl, -⟩
    rfl
  cover := by
    rintro a _ b _ rfl rfl
    rfl

variable {text : List Char}

theorem pointsInto_of_spots {s s' : Spot} (h : (standing text).Spots s s') :
    s.PointsInto text := by
  cases h with
  | narrow h => exact h.2.spot
  | wide h => exact h.2.wideSpot

theorem place_standing {l : ContentLine} (hl : l ∈ contentLines text) {i n : Nat}
    (h : i + n ≤ l.indent.length + l.content.length) :
    (standing text).place (l.origin.stretch i n) (l.origin.stretch i n) :=
  ⟨rfl, ContentLine.standsIn hl h⟩

/-- Every content line stands in its text, with all that can be read of it. -/
theorem lines_standing {rules : LayoutRules} (h : 1 ≤ rules.tabWidth) {l : ContentLine}
    (hl : l ∈ contentLines text) : (standing text).Lines rules id l l where
  width := by
    obtain ⟨w, hw, hpos⟩ := rules.exists_width h l.indent
    exact ⟨w, hpos, hw, hw⟩
  mixed := by
    have hindent : (standing text).place l.indentPlace l.indentPlace := by
      rw [ContentLine.indentPlace_eq]
      exact place_standing hl (by omega)
    unfold Offside.mixedFaults
    split
    · exact .cons (.fault rfl hindent) .nil
    · exact .nil
  opening := by
    rw [ContentLine.opening_eq]
    exact place_standing hl (by omega)
  token := by
    have hplace : (standing text).place l.place l.place := by
      rw [ContentLine.place_eq]
      exact place_standing hl (Nat.le_refl _)
    have hplaces : ∀ {i n : Nat}, i + n ≤ l.content.length →
        (standing text).place (l.place.stretch i n) (l.place.stretch i n) := by
      intro i n hn
      rw [ContentLine.stretch_place]
      exact place_standing hl (by omega)
    have hline := Tokens.line
      ⟨l.content, [], l.place, l.place, rfl, fun _ => rfl, hplace, hplaces⟩
    simp only [List.append_nil] at hline
    exact hline

theorem layouts_standing {rules : LayoutRules} (h : 1 ≤ rules.tabWidth) (text : List Char) :
    (standing text).Layouts (layout rules text) (layout rules text) :=
  layouts_of_equal_widths (fun _ _ => rfl) (List.forall₂_same.mpr fun _ hl => lines_standing h hl)
    ⟨rfl, Offside.standsIn_endPlace text⟩

end Likeness

namespace Script

/-- What is reported is a fault that points into the text. -/
theorem exists_fault_of_parse_eq_error {rules : LayoutRules} (h : 1 ≤ rules.tabWidth)
    {text : List Char} {file : Option Path} {r : Report}
    (hp : parse rules text file = .error (.refused r)) :
    ∃ f : Fault, r = f.report file (some text) ∧ f.spot.PointsInto text := by
  have hreadings := Likeness.readings_of_layouts (Likeness.layouts_standing h text) file
  rw [hp] at hreadings
  cases hreadings with
  | @refused f _ hf =>
    obtain ⟨f', -, hfault⟩ := hf trivial
    exact ⟨f, rfl, Likeness.pointsInto_of_spots hfault.spot⟩

/-- Every error points into the text, unless a line closes a block at the width of no open one and
is too wide to be told; exactly then the reading breaks down before it can tell where. -/
theorem pointsInto_of_parse_eq_error (rules : LayoutRules) (h : 1 ≤ rules.tabWidth)
    (text : List Char) (file : Option Path) :
    (parse rules text file = .error (.breakdown .longWidth) ↔ LongDedent rules text) ∧
    ∀ e, parse rules text file = .error e → e = .breakdown .longWidth ∨
      ∃ report context, e = .refused report ∧ report.context = some context ∧
        context.spot.PointsInto text := by
  have hbreak : ∀ b, parse rules text file = .error (.breakdown b) ↔
      b = .longWidth ∧ LongDedent rules text := fun b =>
    parse_eq_breakdown.trans (layout_eq_error_iff h text b)
  refine ⟨(hbreak .longWidth).trans (and_iff_right rfl), fun e he => ?_⟩
  have hreadings := Likeness.readings_of_layouts (Likeness.layouts_standing h text) file
  rw [he] at hreadings
  cases hreadings with
  | breakdown b =>
    obtain ⟨rfl, -⟩ := (hbreak b).mp he
    exact .inl rfl
  | @refused f _ hf =>
    obtain ⟨f', -, hfault⟩ := hf trivial
    exact .inr ⟨_, _, rfl, rfl, Likeness.pointsInto_of_spots hfault.spot⟩

/-- One dedent that cannot be told, and a line that ends too early. -/
theorem pointsInto_of_parse_dedent :
    LongDedent longTab halfDedent ∧
    ∃ report context, parse {} "jump\n".toList = .error (.refused report) ∧
      report.context = some context ∧ context.spot.PointsInto "jump\n".toList := by
  constructor
  · have hlong : 1 ≤ longTab.tabWidth := by decide +kernel
    have hl : layout longTab halfDedent = .error .longWidth := by decide +kernel
    exact (pointsInto_of_parse_eq_error longTab hlong halfDedent none).1.mp
      (parse_eq_breakdown.mpr hl)
  · have hl : layout {} "jump\n".toList = .ok [⟨.text "jump".toList, ⟨1, 1, 0, 4⟩⟩,
        ⟨.newline, ⟨2, 1, 5, 5⟩⟩, ⟨.eof, ⟨2, 1, 5, 5⟩⟩] := by cbv
    have he := parse_of_refused none hl (by cbv) (by cbv : _ = Except.error
      ⟨.unexpected "label name" .endOfLine, ⟨1, 5, some 4, some 1, some 5⟩⟩)
    obtain hb | ⟨report, context, hr, hc, hp⟩ :=
      (pointsInto_of_parse_eq_error {} (by decide) "jump\n".toList none).2 _ he
    · cases hb
    · rw [hr] at he
      exact ⟨report, context, he, hc, hp⟩

end Script

end NovelScript
