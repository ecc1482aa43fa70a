import NovelScript.Proofs.Completion
import NovelScript.Proofs.Elsewhere
import NovelScript.Proofs.Placement

/-!
# The layout of two texts in a row

The lines of a text that follows another one are the same lines further on. If the first of them has
no indentation, it closes every block of the first text just as the end of that text does. So the
layout of both texts is made of the lines of the first one, the closing of its blocks, and the
layout of the second one, moved by the length of the first.
-/

namespace NovelScript

/-- The line when the text `p`, which ends with a line feed, stands before everything. -/
def ContentLine.later (p : List Char) (l : ContentLine) : ContentLine :=
  { l with number := l.number + p.count '\n', lineStart := l.lineStart + p.length }

theorem contentLinesFrom_later (p : List Char) (number lineStart : Nat) (ls : List (List Char)) :
    contentLinesFrom (number + p.count '\n') (lineStart + p.length) ls =
      (contentLinesFrom number lineStart ls).map (ContentLine.later p) := by
  induction ls generalizing number lineStart with
  | nil => rfl
  | cons line ls ih =>
    have hn : number + p.count '\n' + 1 = number + 1 + p.count '\n' := by omega
    have hs : lineStart + p.length + line.length + 1 = lineStart + line.length + 1 + p.length := by
      omega
    have hline : ContentLine.ofLine? (number + p.count '\n') (lineStart + p.length) line =
        (ContentLine.ofLine? number lineStart line).map (ContentLine.later p) := by
      unfold ContentLine.ofLine?
      simp only
      split <;> split <;> rfl
    rw [contentLinesFrom, contentLinesFrom, hn, hs, ih, hline]
    cases ContentLine.ofLine? number lineStart line <;> rfl

/-- The content lines of two texts in a row. -/
theorem contentLines_join {a : List Char} (ha : a = [] ∨ a.getLast? = some '\n') (b : List Char) :
    contentLines (a ++ b) = contentLines a ++ (contentLines b).map (ContentLine.later a) := by
  rw [contentLines_append ha, contentLines, contentLines, ← contentLinesFrom_later, Nat.add_comm 1,
    Nat.zero_add]

theorem ContentLine.token_later (p : List Char) (l : ContentLine) :
    (l.later p).token = l.token.moved (.past p) := by
  simp only [token, place, later, LayoutToken.moved, Place.moved, Distance.past, start]
  simp only [LayoutToken.mk.injEq, Place.mk.injEq, true_and]
  omega

theorem ContentLine.opening_later (p : List Char) (l : ContentLine) :
    (l.later p).place.opening = l.place.opening.moved (.past p) := by
  have h := congrArg LayoutToken.place (l.token_later p)
  change (l.later p).place = l.place.moved (.past p) at h
  rw [h]
  rfl

/-- The tokens of an emission elsewhere. -/
def Emission.moved (k : Distance) (e : Emission) : Emission :=
  { e with tokens := e.tokens.map (LayoutToken.moved k) }

theorem Emission.moved_andThen {k : Distance} {e : Emission} {next next' : Offside → Emission}
    (h : ∀ s, next' s = (next s).moved k) :
    (e.moved k).andThen next' = (e.andThen next).moved k := by
  cases hb : e.breakdown with
  | some b => rw [andThen_of_some hb, andThen_of_some (e := e.moved k) hb]
  | none =>
    rw [andThen_of_none hb, andThen_of_none (e := e.moved k) hb, h]
    simp [moved, after]

namespace Offside

variable {rules : LayoutRules} {s : Offside} {l : ContentLine} {ls : List ContentLine}

theorem moved_indentTo (k : Distance) (s : Offside) (w : Int) (place : Place) :
    s.indentTo w (place.moved k) = (s.indentTo w place).moved k := by
  unfold indentTo
  split
  · rfl
  · split
    · rfl
    · split
      · split <;> rfl
      · simp only
        split
        · simp [Emission.moved, LayoutToken.moved]
        · split
          · simp [Emission.moved, LayoutToken.moved]
          · split <;> simp [Emission.moved, LayoutToken.moved]

theorem mixedFaults_later (p : List Char) (l : ContentLine) :
    mixedFaults rules (l.later p) = (mixedFaults rules l).map (LayoutToken.moved (.past p)) := by
  have hplace : (l.later p).indentPlace = l.indentPlace.moved (.past p) := by
    have hstart := congrArg Place.start (l.opening_later p)
    simp only [ContentLine.indentPlace, Place.moved, Place.mk.injEq]
    exact ⟨by simp [ContentLine.later, Distance.past], trivial,
      by simp [ContentLine.later, Distance.past], hstart⟩
  have hindent : (l.later p).indent = l.indent := rfl
  rw [mixedFaults, mixedFaults, hplace, hindent]
  split <;> rfl

theorem line_later (p : List Char) (l : ContentLine) (s : Offside) :
    s.line rules (l.later p) = (s.line rules l).moved (.past p) := by
  cases hw : rules.width l.indent with
  | error b =>
    have hw' : rules.width (l.later p).indent = .error b := hw
    rw [line, line, hw, hw']
    rfl
  | ok w =>
    have he : ((s.indentTo w l.place.opening).moved (.past p)).after
        ((mixedFaults rules l).map (LayoutToken.moved (.past p))) =
        ((s.indentTo w l.place.opening).after (mixedFaults rules l)).moved (.past p) := by
      simp [Emission.after, Emission.moved]
    rw [line_of_width hw, line_of_width (l := l.later p) hw, mixedFaults_later, l.opening_later,
      moved_indentTo, he]
    refine Emission.moved_andThen fun s' => ?_
    rw [Emission.moved, List.map_singleton]
    exact congrArg (fun t => Emission.mk [t] { s' with started := true } none) (l.token_later p)

theorem lines_later (p : List Char) (ls : List ContentLine) (s : Offside) :
    s.lines rules (ls.map (ContentLine.later p)) = (s.lines rules ls).moved (.past p) := by
  induction ls generalizing s with
  | nil => rfl
  | cons l ls ih =>
    rw [List.map_cons, lines, lines, line_later]
    exact Emission.moved_andThen fun s' => ih s'

/-- What closes all blocks but the outermost, or parts two lines of the outermost one. -/
def closing (s : Offside) (place : Place) : List LayoutToken :=
  if s.widths.length > 1 then List.replicate (s.widths.length - 1) ⟨.dedent, place⟩
  else if s.started then [⟨.newline, place⟩]
  else []

theorem tokens_finish (text : List Char) (s : Offside) :
    (s.finish text (Text.lines text).length).tokens =
      s.closing (endPlace text) ++ [⟨.eof, endPlace text⟩] := rfl

theorem mark_closing (s : Offside) (place place' : Place) :
    (s.closing place).map LayoutToken.mark = (s.closing place').map LayoutToken.mark := by
  unfold closing
  split
  · simp
  · split <;> rfl

theorem moved_closing (k : Distance) (s : Offside) (place : Place) :
    s.closing (place.moved k) = (s.closing place).map (LayoutToken.moved k) := by
  unfold closing
  split
  · simp [LayoutToken.moved]
  · split <;> rfl

theorem mark_of_mem_closing {place : Place} {t : LayoutToken} (h : t ∈ s.closing place) :
    t.mark = .newline ∨ t.mark = .dedent := by
  unfold closing at h
  split at h
  · rw [List.eq_of_mem_replicate h]
    exact .inr rfl
  · split at h
    · rw [List.mem_singleton.mp h]
      exact .inl rfl
    · exact nomatch h

/-- Only the outermost block has width zero. -/
theorem Stacked.eq_nil_of_zero {closed rest : List Int} (hs : s.Stacked)
    (h : s.widths = closed ++ 0 :: rest) : rest = [] := by
  have hp := hs.falling
  rw [h] at hp
  refine List.eq_nil_iff_forall_not_mem.mpr fun x hx => ?_
  have hlt := (List.pairwise_cons.mp (List.pairwise_append.mp hp).2.1).1 x hx
  have hpos := hs.nonneg (w := x) (by rw [h]; simp [hx])
  omega

/-- A line without indentation closes all blocks but the outermost. -/
theorem Stacked.indentTo_zero (hs : s.Stacked) (place : Place) :
    s.indentTo 0 place = ⟨s.closing place, ⟨[0], s.started⟩, none⟩ := by
  have ht := hs.turn (Int.le_refl 0) place
  generalize s.indentTo 0 place = e at ht
  obtain ⟨widths, started⟩ := s
  cases ht with
  | @deeper inner rest h hw =>
    have := hs.nonneg (w := inner) (by rw [h]; exact List.mem_cons_self)
    omega
  | @level rest h =>
    have hwidths : widths = [] ++ 0 :: rest := h
    obtain rfl := hs.eq_nil_of_zero hwidths
    cases h
    rfl
  | @shallower closed rest hc h hw =>
    obtain rfl := hs.eq_nil_of_zero h
    obtain rfl : widths = closed ++ [0] := h
    have hlen : (closed ++ [(0 : Int)]).length > 1 := by
      have := List.length_pos_iff.mpr hc
      simp only [List.length_append, List.length_singleton]
      omega
    have hmap : closed.map (fun _ => LayoutToken.mk .dedent place) =
        List.replicate closed.length ⟨.dedent, place⟩ := List.map_const
    rw [closing]
    simp only [if_pos hlen]
    rw [hmap, List.length_append, List.length_singleton, Nat.add_sub_cancel]
  | @stray closed rest outer hc h hw ho hd =>
    have := hs.nonneg (w := outer) (by rw [h]; simp)
    omega
  | @untold closed rest outer hc h hw ho hd =>
    have := hs.nonneg (w := outer) (by rw [h]; simp)
    omega

theorem Stacked.line_zero (hs : s.Stacked) (hw : rules.width l.indent = .ok 0)
    (hm : mixedFaults rules l = []) :
    s.line rules l = ⟨s.closing l.place.opening ++ [l.token], ⟨[0], true⟩, none⟩ := by
  rw [line_of_width hw, hs.indentTo_zero, hm, Emission.andThen_of_none rfl]
  rfl

end Offside

/-! Two texts in a row. -/

theorem Text.tailLength_append {a : List Char} (ha : a = [] ∨ a.getLast? = some '\n')
    (b : List Char) : tailLength (a ++ b) = tailLength b := by
  obtain rfl | ha := ha
  · rfl
  · obtain ⟨u, rfl⟩ := List.getLast?_eq_some_iff.mp ha
    rw [tailLength, tailLength, List.reverse_append, List.takeWhile_append]
    split
    · next h => simpa using h.symm
    · rfl

theorem Offside.endPlace_append {a : List Char} (ha : a = [] ∨ a.getLast? = some '\n')
    (b : List Char) : endPlace (a ++ b) = (endPlace b).moved (.past a) := by
  simp only [endPlace, Place.moved, Distance.past, Text.length_lines, List.count_append,
    Text.tailLength_append ha, List.length_append, Place.mk.injEq, true_and]
  refine ⟨?_, ?_, ?_⟩ <;> omega

theorem Offside.moved_finish {a : List Char} (ha : a = [] ∨ a.getLast? = some '\n')
    (b : List Char) (s : Offside) : (s.finish (a ++ b) (Text.lines (a ++ b)).length).tokens =
      (s.finish b (Text.lines b).length).tokens.map (LayoutToken.moved (.past a)) := by
  rw [tokens_finish, tokens_finish, endPlace_append ha, moved_closing, List.map_append]
  rfl

namespace Script

variable {rules : LayoutRules} {a b : List Char} {l : ContentLine} {ls : List ContentLine}

/-- The tokens of the first text and of what closes its blocks before the line `l`. -/
def frontOf (rules : LayoutRules) (a : List Char) (l : ContentLine) : List LayoutToken :=
  (linesOf rules a).tokens ++ (linesOf rules a).state.closing (l.later a).place.opening

/-- The tokens of a text start with its first line when that has no indentation. -/
theorem linesOf_of_first (hl : contentLines b = l :: ls) (hw : rules.width l.indent = .ok 0)
    (hm : Offside.mixedFaults rules l = []) :
    linesOf rules b = (Offside.lines rules ls ⟨[0], true⟩).after [l.token] := by
  rw [linesOf, hl, Offside.lines, Offside.stacked_initial.line_zero hw hm,
    Emission.andThen_of_none rfl]
  rfl

/-- What the offside rule makes of the lines of two texts in a row. -/
theorem linesOf_join (h : 1 ≤ rules.tabWidth) (ha : a = [] ∨ a.getLast? = some '\n')
    (hb : (linesOf rules a).breakdown = none) (hl : contentLines b = l :: ls)
    (hw : rules.width l.indent = .ok 0) (hm : Offside.mixedFaults rules l = []) :
    linesOf rules (a ++ b) = ((linesOf rules b).moved (.past a)).after (frontOf rules a l) := by
  have hs := (keeps_linesOf h a).stacked
  have hfirst := hs.line_zero (l := l.later a) hw (by rw [Offside.mixedFaults_later, hm]; rfl)
  have hboth : linesOf rules (a ++ b) =
      (linesOf rules a).andThen (Offside.lines rules ((l :: ls).map (ContentLine.later a))) := by
    rw [linesOf, contentLines_join ha, Offside.lines_append, hl]
    rfl
  rw [hboth, Emission.andThen_of_none hb, List.map_cons, Offside.lines, hfirst,
    Emission.andThen_of_none rfl, Offside.lines_later, linesOf_of_first hl hw hm, l.token_later]
  simp [frontOf, Emission.after, Emission.moved]

/-- The layout of two texts in a row. -/
theorem layout_join (h : 1 ≤ rules.tabWidth) (ha : a = [] ∨ a.getLast? = some '\n')
    (hb : (linesOf rules a).breakdown = none) (hl : contentLines b = l :: ls)
    (hw : rules.width l.indent = .ok 0) (hm : Offside.mixedFaults rules l = []) :
    layout rules (a ++ b) = (layout rules b).map fun tokens =>
      frontOf rules a l ++ tokens.map (LayoutToken.moved (.past a)) := by
  have hjoin := linesOf_join h ha hb hl hw hm
  cases hlb : layout rules b with
  | error e =>
    have hbreak : (linesOf rules b).breakdown = some e := layout_eq_error.mp hlb
    exact layout_eq_error.mpr ((congrArg Emission.breakdown hjoin).trans hbreak)
  | ok tokens =>
    obtain ⟨hnone, rfl⟩ := layout_eq_linesOf.mp hlb
    refine layout_eq_linesOf.mpr ⟨(congrArg Emission.breakdown hjoin).trans hnone, ?_⟩
    simp only [Offside.moved_finish ha, hjoin, List.map_append, Emission.after_tokens,
      List.append_assoc]
    rfl

end Script

end NovelScript
