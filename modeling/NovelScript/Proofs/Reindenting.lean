import Mathlib
import NovelScript.Proofs.Contents
import NovelScript.Proofs.Readings

/-!
# Indenting a script anew

`Text.reindent` replaces the white space that indents each line with content. When the new white
space is as wide as the old one under a map that keeps the order of widths, the layout says the same
as before.
-/

namespace NovelScript

namespace Text

/-- The line with `g indent` in place of the white space `indent` before its content. -/
def reindentLine (g : List Char → List Char) (line : List Char) : List Char :=
  match ContentLine.ofLine? 1 0 line with
  | some l => g l.indent ++ line.dropWhile isIndent
  | none => line

/-- The text with the white space `g indent` in place of the white space `indent` of each line with
content. -/
def reindent (g : List Char → List Char) (text : List Char) : List Char :=
  joinWith ['\n'] ((lines text).map (reindentLine g))

/-- What replaces white space that indents a line is white space that indents a line. -/
def KeepsIndent (g : List Char → List Char) : Prop :=
  ∀ s, (∀ c ∈ s, isIndent c) → ∀ c ∈ g s, isIndent c

variable {g : List Char → List Char} {line : List Char} {p : List Char × List Char}

theorem lines_joinWith {ls : List (List Char)} (hne : ls ≠ []) (h : ∀ l ∈ ls, '\n' ∉ l) :
    lines (joinWith ['\n'] ls) = ls := by
  induction ls with
  | nil => exact absurd rfl hne
  | cons l ls ih =>
    have hl := h l List.mem_cons_self
    cases ls with
    | nil => exact lines_of_not_mem hl
    | cons m ms =>
      rw [joinWith_cons _ (List.cons_ne_nil m ms), List.append_assoc, List.singleton_append,
        lines_append, lines_of_not_mem hl,
        ih (List.cons_ne_nil m ms) fun k hk => h k (List.mem_cons_of_mem _ hk)]
      rfl

theorem exists_ending (h : parts? line = some p) :
    ∃ ending, line.dropWhile isIndent = p.2 ++ ending ∧ body (p.2 ++ ending) = p.2 := by
  obtain ⟨hbody, hindent, hhead, -, -⟩ := parts?_eq_some.mp h
  have hne := ne_nil_of_parts? h
  obtain ⟨c, cs, hcons⟩ := List.exists_cons_of_ne_nil hne
  have hc : isIndent c = false := hhead c (by rw [hcons]; rfl)
  have hdrop : ∀ ending, line = body line ++ ending →
      line.dropWhile isIndent = p.2 ++ ending := by
    intro ending hline
    rw [hline, hbody, List.append_assoc, List.dropWhile_append_of_pos hindent, hcons,
      List.cons_append, List.dropWhile_cons_of_neg (by simp [hc])]
  obtain hline | hline := eq_body_or line
  · refine ⟨[], hdrop [] (hline.trans (List.append_nil _).symm), ?_⟩
    rw [List.append_nil]
    have htwice := congrArg body hline.symm
    rw [hbody, body_append _ hne] at htwice
    exact List.append_cancel_left htwice
  · exact ⟨['\r'], hdrop ['\r'] hline, body_concat p.2⟩

theorem parts?_reindentLine (hg : KeepsIndent g) (line : List Char) :
    parts? (reindentLine g line) = (parts? line).map fun p => (g p.1, p.2) := by
  unfold reindentLine
  rw [ContentLine.ofLine?_eq]
  cases h : parts? line with
  | none => exact h
  | some p =>
    obtain ⟨-, hindent, hhead, hblank, hcomment⟩ := parts?_eq_some.mp h
    obtain ⟨ending, hdrop, hend⟩ := exists_ending h
    have hne : p.2 ++ ending ≠ [] := List.append_ne_nil_of_left_ne_nil (ne_nil_of_parts? h) _
    refine parts?_eq_some.mpr ⟨?_, hg p.1 hindent, hhead, hblank, hcomment⟩
    simp only [Option.map_some, hdrop]
    rw [body_append _ hne, hend]

theorem not_mem_reindentLine (hg : KeepsIndent g) (h : '\n' ∉ line) :
    '\n' ∉ reindentLine g line := by
  unfold reindentLine
  rw [ContentLine.ofLine?_eq]
  cases hp : parts? line with
  | none => exact h
  | some p =>
    intro hmem
    obtain hmem | hmem := List.mem_append.mp hmem
    · exact absurd (hg _ (parts?_eq_some.mp hp).2.1 _ hmem) (by decide)
    · exact h ((List.dropWhile_suffix _).subset hmem)

theorem lines_reindent (hg : KeepsIndent g) (text : List Char) :
    lines (reindent g text) = (lines text).map (reindentLine g) := by
  refine lines_joinWith (by simp) fun l hl => ?_
  obtain ⟨line, hline, rfl⟩ := List.mem_map.mp hl
  exact not_mem_reindentLine hg (not_mem_of_mem_lines hline)

theorem contentsOf_reindent (hg : KeepsIndent g) (text : List Char) :
    contentsOf (reindent g text) = (contentsOf text).map fun p => (g p.1, p.2) := by
  rw [contentsOf, contentsOf, lines_reindent hg, List.filterMap_map, List.map_filterMap]
  exact congrArg (fun f => List.filterMap f (lines text)) (funext (parts?_reindentLine hg))

theorem forall₂_reindent (hg : KeepsIndent g) (text : List Char) :
    List.Forall₂
      (fun l l' => l ∈ contentLines text ∧ l'.indent = g l.indent ∧ l'.content = l.content)
      (contentLines text) (contentLines (reindent g text)) := by
  have hparts := map_parts_contentLines (reindent g text)
  rw [contentsOf_reindent hg, ← map_parts_contentLines, List.map_map, ← List.forall₂_eq_eq_eq,
    List.forall₂_map_left_iff, List.forall₂_map_right_iff] at hparts
  exact (List.forall₂_and_left _ _).mpr
    ⟨fun l hl => hl, (hparts.imp fun _ _ hl => Prod.mk.inj hl).flip⟩

end Text

/-- What a token says besides its place: its tag, and the content of a line. -/
def LayoutToken.told (t : LayoutToken) : Tag × Option (List Char) :=
  (t.tag, match t.mark with
    | .text content => some content
    | _ => none)

theorem Likeness.Layouts.told {κ : Likeness}
    {x y : Except Breakdown (List LayoutToken)} (h : κ.Layouts x y) (hs : κ.strict) :
    x.map (List.map LayoutToken.told) = y.map (List.map LayoutToken.told) := by
  cases h with
  | broken b => rfl
  | read hts =>
    refine congrArg Except.ok (map_eq_of_forall₂ hts fun t t' ht => ?_)
    cases ht with
    | same => rfl
    | fault => rfl
    | line K => rw [K.strict hs, List.append_nil]; rfl

/-- As many spaces as `f` says of the width of the white space. -/
def LayoutRules.spaces (rules : LayoutRules) (f : Nat → Nat) (indent : List Char) : List Char :=
  match rules.width indent with
  | .ok w => List.replicate (f w.toNat) ' '
  | .error _ => indent

namespace Script

/-- The faults of the layout have the same reason. -/
def SameReason (c c' : LayoutFault) : Prop := (Cause.layout c).reason = (Cause.layout c').reason

variable {rules : LayoutRules} {f : Nat → Nat} {text : List Char}

theorem spaces_of_width {indent : List Char} {w : Int} (hw : rules.width indent = .ok w) :
    rules.spaces f indent = List.replicate (f w.toNat) ' ' := by
  rw [LayoutRules.spaces, hw]

theorem keepsIndent_spaces (h : 1 ≤ rules.tabWidth) : Text.KeepsIndent (rules.spaces f) := by
  intro s _
  obtain ⟨w, hw, -⟩ := rules.exists_width h s
  rw [spaces_of_width hw]
  exact Solid.isIndent_replicate _

theorem le_length_reindent (h : 1 ≤ rules.tabWidth) {l : ContentLine} (hl : l ∈ contentLines text)
    {w : Int} (hw : rules.width l.indent = .ok w) :
    f w.toNat ≤ (Text.reindent (rules.spaces f) text).length := by
  have hmem : (rules.spaces f l.indent, l.content) ∈
      Text.contentsOf (Text.reindent (rules.spaces f) text) := by
    rw [Text.contentsOf_reindent (keepsIndent_spaces h), ← map_parts_contentLines]
    exact List.mem_map_of_mem (List.mem_map_of_mem hl)
  obtain ⟨line, hline, hp⟩ := List.mem_filterMap.mp hmem
  have hbody := congrArg List.length (Text.parts?_eq_some.mp hp).1
  have hle := (Text.infix_of_mem_lines hline).length_le
  have hle' := (Text.isPrefix_body line).length_le
  rw [spaces_of_width hw, List.length_append, List.length_replicate] at hbody
  omega

/-- Only the order of the widths of lines matters. When the white space that indents each line with
content is replaced by spaces, so that their numbers are the widths of the lines under a map that
keeps their order and leaves lines without indentation as they are, a script stays a script, with
the same tree up to its spans. The layout says the same as before, and a text that is refused is
refused with a failure of the same kind. The one exception to this are texts with a fault of the
indentation that become too long to be written down: a text of which not even the length can be told
has a line of which the width cannot be told. -/
theorem parse_reindent (rules : LayoutRules) (h : 1 ≤ rules.tabWidth) (f : Nat → Nat)
    (hf : StrictMono f) (h0 : f 0 = 0) (text : List Char)
    (hm : rules.allowMixed = true ∨ ∀ l ∈ contentLines text, isMixed l.indent = false)
    (file : Option Path) :
    let text' := Text.reindent (rules.spaces f) text
    (∀ e, parse rules text file = .ok e →
      ∃ e', parse rules text' file = .ok e' ∧ e'.bare = e.bare) ∧
    ((layout rules text').map (List.map LayoutToken.told) =
        (layout rules text).map (List.map LayoutToken.told) ∧
      (∀ e, parse rules text file = .error e →
        ∃ e', parse rules text' file = .error e' ∧ e'.kind = e.kind) ∨
    layout rules text' = .error .longWidth ∧ ¬Numeral.isShort text'.length) := by
  intro text'
  have hlines : List.Forall₂ ((Likeness.lax True SameReason).Lines rules fun w => (f w.toNat : Int))
      (contentLines text) (contentLines text') := by
    refine (Text.forall₂_reindent (keepsIndent_spaces h) text).imp ?_
    rintro l l' ⟨hl, hindent, hcontent⟩
    obtain ⟨w, hw, hpos⟩ := rules.exists_width h l.indent
    rw [spaces_of_width hw] at hindent
    refine Likeness.lax_lines hpos hw (by rw [hindent, rules.width_replicate]) rfl ?_
      (hcontent.trans (List.append_nil _).symm) rfl fun _ => rfl
    rw [hindent, isMixed_replicate]
    obtain hm | hm := hm
    · simp [hm]
    · rw [hm l hl]
  obtain hlayouts | ⟨hlong, hfault, w, ⟨l, hl, hw⟩, -, hw'⟩ := Likeness.layouts_of_lines (.ofNat hf)
    (by rw [Int.toNat_zero, h0]; rfl) (fun v w => rfl) hlines trivial
  · have hreadings := Likeness.readings_of_layouts hlayouts file
    refine ⟨fun e he => ?_, .inl ⟨(hlayouts.told trivial).symm, fun e he => ?_⟩⟩
    · rw [he] at hreadings
      exact hreadings.exists_ok
    · rw [he] at hreadings
      obtain ⟨e', he', hkind, -⟩ := hreadings.exists_error trivial fun _ _ hc => hc
      exact ⟨e', he', hkind⟩
  · -- The width that is too long under `f` is the number of spaces before a line of the text.
    have hle := le_length_reindent (f := f) h hl hw
    refine ⟨fun e he => ?_, .inr ⟨hlong, fun hshort =>
      hw' (Numeral.isShort_of_le (by omega) (by exact_mod_cast hle) hshort)⟩⟩
    obtain ⟨ts, -, hts, hnone, -⟩ := (parse_eq_ok file).mp he
    exact absurd hnone (hfault ts hts)

/-- A block of which one line is indented with a tab and one with spaces. -/
def tabScript : List Char := "if x:\n\tpass\n    jump start\n".toList

theorem parse_reindent_tabScript :
    let text' := Text.reindent (LayoutRules.spaces {} fun n => 3 * n) tabScript
    (layout {} text').map (List.map LayoutToken.told) =
        (layout {} tabScript).map (List.map LayoutToken.told) ∧
      ∃ e e', parse {} tabScript = .ok e ∧ parse {} text' = .ok e' ∧ e'.bare = e.bare := by
  obtain ⟨e, he⟩ := exists_of_toBool (x := parse {} tabScript) (by cbv)
  obtain ⟨tokens, hl⟩ := exists_of_toBool
    (x := layout {} (Text.reindent (LayoutRules.spaces {} fun n => 3 * n) tabScript)) (by cbv)
  obtain ⟨hok, ⟨htold, -⟩ | ⟨hlong, -⟩⟩ := parse_reindent {} (by decide) (fun n => 3 * n)
    (fun m n h => Nat.mul_lt_mul_of_pos_left h (by decide)) rfl tabScript (.inr (by decide)) none
  · obtain ⟨e', he', hbare⟩ := hok e he
    exact ⟨htold, e, e', he, he', hbare⟩
  · rw [hl] at hlong
    cases hlong

end Script

end NovelScript
