import Mathlib
import NovelScript.Proofs.Completion
import NovelScript.Proofs.Echo
import NovelScript.Proofs.Nesting

/-!
# Scripts are restored from their canonical form

The layout of a canonical form has the marks of the flat form that it was written from: each line
shifts the open blocks as the line before it was written did. So the assembly that reads a canonical
form goes through the steps of the one that read the script, and comes to the same bare tree.
-/

namespace NovelScript

open Text

/-! Pieces are known by their tags, except for lines. -/

theorem Piece.mark_of_tag {p : Piece} {m : LayoutMark} (h : p.tag = m.tag) (hm : m.tag ≠ .text) :
    p.mark = m := by
  cases p <;> cases m <;> simp_all [Piece.tag, Piece.mark, LayoutMark.tag]

theorem map_mark_of_tag {ps : List Piece} {ms : List LayoutMark}
    (h : ps.map Piece.tag = ms.map LayoutMark.tag) (hm : ∀ m ∈ ms, m.tag ≠ .text) :
    ps.map Piece.mark = ms := by
  induction ps generalizing ms with
  | nil => exact (List.map_eq_nil_iff.mp h.symm).symm
  | cons p ps ih =>
    obtain ⟨m, ms', rfl, htag, hrest⟩ := List.map_eq_cons_iff.mp h.symm
    rw [List.map_cons, Piece.mark_of_tag htag.symm (hm m List.mem_cons_self),
      ih hrest.symm fun m' hm' => hm m' (List.mem_cons_of_mem _ hm')]

theorem Shift.tag_ne_text {started : Bool} {d d' : Nat} {marks : List LayoutMark}
    (h : Shift started d marks d') : ∀ m ∈ marks, m.tag ≠ .text := by
  intro m hm
  cases h with
  | deeper => simp_all [LayoutMark.tag]
  | level => split at hm <;> simp_all [LayoutMark.tag]
  | shallower => simp [List.eq_of_mem_replicate hm, LayoutMark.tag]

/-- Pieces that shift the open blocks lead to the depth of the next line. -/
theorem linesAt_of_shift {started : Bool} {d d' : Nat} {marks : List LayoutMark} {qs : List Piece}
    (h : Shift started d marks d') (hq : qs.map Piece.mark = marks) (ps : List Piece) :
    linesAt d (qs ++ ps) = linesAt d' ps := by
  have hpiece : ∀ {p q : Piece}, p.mark = q.mark → q.tag ≠ .text → p = q := by
    intro p q hpq hq
    cases p <;> cases q <;> simp_all [Piece.mark, Piece.tag, LayoutMark.tag]
  cases h with
  | deeper =>
    obtain ⟨q, qs', rfl, hm, hnil⟩ := List.map_eq_cons_iff.mp hq
    obtain rfl := List.map_eq_nil_iff.mp hnil
    rw [hpiece (q := .indent) hm (by decide)]
    rfl
  | level =>
    split at hq
    · obtain ⟨q, qs', rfl, hm, hnil⟩ := List.map_eq_cons_iff.mp hq
      obtain rfl := List.map_eq_nil_iff.mp hnil
      rw [hpiece (q := .newline) hm (by decide)]
      rfl
    · rw [List.map_eq_nil_iff.mp hq, List.nil_append]
  | shallower _ k =>
    generalize k + 1 = n at hq ⊢
    induction n generalizing qs with
    | zero => rw [List.map_eq_nil_iff.mp hq, List.nil_append, Nat.add_zero]
    | succ n ih =>
      obtain ⟨q, qs', rfl, hm, hrest⟩ := List.map_eq_cons_iff.mp hq
      rw [hpiece (q := .dedent) hm (by decide)]
      exact ih hrest

theorem exists_mem_of_mem_linesAt {d : Nat} {ps : List Piece} {l : Nat × List Char}
    (h : l ∈ linesAt d ps) : ∃ x, .line x l.2 ∈ ps := by
  induction ps generalizing d with
  | nil => simp [linesAt] at h
  | cons p ps ih =>
    have hlater : ∀ {d}, l ∈ linesAt d ps → ∃ x, .line x l.2 ∈ p :: ps := fun hl =>
      (ih hl).imp fun x hx => List.mem_cons_of_mem _ hx
    cases p with
    | line x text =>
      obtain rfl | h := List.mem_cons.mp h
      · exact ⟨x, List.mem_cons_self⟩
      · exact hlater h
    | _ => exact hlater h

namespace Offside

variable {rules : LayoutRules} {s s' : Offside} {ls ms : List ContentLine} {ps : List Piece}

/-- Lines that are written from the pieces of other lines have the marks of those pieces. -/
theorem Stacked.exists_lines_even (h : 1 ≤ rules.tabWidth) (hs : s.Stacked)
    (hb : (s.lines rules ls).breakdown = none)
    (hf : ∀ t ∈ (s.lines rules ls).tokens, t.tag ≠ .error)
    (hp : (s.lines rules ls).tokens.map LayoutToken.tag = ps.map Piece.tag)
    (hm : List.Forall₂ IsLineOf ms (linesAt s.depth ps)) :
    ∃ us, s.even.lines rules ms = ⟨us, (s.lines rules ls).state.even, none⟩ ∧
      us.map LayoutToken.mark = ps.map Piece.mark := by
  induction ls generalizing s ps ms with
  | nil =>
    obtain rfl := List.map_eq_nil_iff.mp hp.symm
    obtain rfl := List.forall₂_nil_right_iff.mp hm
    exact ⟨[], rfl, rfl⟩
  | cons l ls ih =>
    rw [lines] at hb hf hp ⊢
    obtain ⟨hl, hr⟩ := Emission.andThen_breakdown.mp hb
    rw [Emission.andThen_of_none hl] at hf hp ⊢
    have hfirst : ∀ t ∈ (s.line rules l).tokens, t.tag ≠ .error := fun t ht =>
      hf t (List.mem_append_left _ ht)
    obtain ⟨front, htokens, hstarted, hshift⟩ := hs.line_shift h hl hfirst
    have hstack := (hs.keeps_line h l).stacked
    -- The pieces are those before the line, the line and those after it.
    rw [Emission.after_tokens, htokens, List.append_assoc, List.map_append, List.map_append,
      eq_comm, List.map_eq_append_iff] at hp
    obtain ⟨qs, qs', rfl, hqs, hqs'⟩ := hp
    obtain ⟨q, ps', rfl, hq, hps'⟩ := List.map_eq_cons_iff.mp hqs'
    have hmarks : qs.map Piece.mark = front.map LayoutToken.mark :=
      map_mark_of_tag (by rw [hqs, List.map_map]; rfl) hshift.tag_ne_text
    obtain ⟨x, text, rfl⟩ : ∃ x text, q = .line x text := by
      cases q with
      | line x text => exact ⟨x, text, rfl⟩
      | _ => cases hq
    rw [linesAt_of_shift hshift hmarks] at hm
    obtain ⟨m, ms', hline, hrest, rfl⟩ := List.forall₂_cons_right_iff.mp hm
    obtain ⟨ts, hts, htmarks⟩ := exists_line_of_shift hshift rules hline
    obtain ⟨us, hus, humarks⟩ := ih hstack hr (fun t ht => hf t (List.mem_append_right _ ht))
      hps'.symm hrest
    have heven : (⟨evenWidths (s.line rules l).state.depth, true⟩ : Offside) =
        (s.line rules l).state.even := by
      rw [even, hstarted]
    refine ⟨ts ++ us, ?_, ?_⟩
    · rw [lines, even, hts, Emission.andThen_of_none rfl, heven, hus]
      rfl
    · rw [List.map_append, htmarks, humarks, List.map_append, hmarks, List.append_assoc]
      rfl

/-- The marks at the end of a layout tell how many blocks are open and whether a line was seen. -/
theorem marks_finish (hw : s'.widths.length = s.widths.length) (hst : s'.started = s.started)
    (text text' : List Char) (n n' : Int) :
    (s'.finish text' n').tokens.map LayoutToken.mark =
      (s.finish text n).tokens.map LayoutToken.mark := by
  unfold finish
  rw [hw, hst]
  simp only [List.map_append, List.map_cons, List.map_nil]
  congr 1
  split
  · rw [List.map_replicate, List.map_replicate]
  · split <;> rfl

theorem Stacked.length_widths (hs : s.Stacked) : s.widths.length = s.depth + 1 := by
  have hpos := hs.length_pos
  rw [depth]
  omega

end Offside

namespace Script

variable {rules : LayoutRules} {text : List Char} {file : Option Path} {f : SourceFile}

/-- The canonical lines are content lines as they stand. -/
theorem solid_of_rewrites {tokens : List LayoutToken} {ps : List Piece}
    (htexts : textsOf tokens = (contentLines text).map ContentLine.token)
    (hw : List.Forall₂ Rewrites tokens ps) (htags : tokens.map LayoutToken.tag = ps.map Piece.tag)
    {x : Option Int} {line : List Char} (h : .line x line ∈ ps) : Solid line ∧ '\n' ∉ line := by
  obtain ⟨front, rest, rfl⟩ := List.append_of_mem h
  obtain ⟨ts, us, hts, hus, rfl⟩ : ∃ ts us, List.Forall₂ Rewrites ts front ∧
      List.Forall₂ Rewrites us (.line x line :: rest) ∧ tokens = ts ++ us := by
    exact ⟨_, _, List.forall₂_take_append _ _ _ hw, List.forall₂_drop_append _ _ _ hw,
      (List.take_append_drop _ _).symm⟩
  obtain ⟨t, us', hline, -, rfl⟩ := List.forall₂_cons_right_iff.mp hus
  have htag : t.tag = .text := by
    rw [List.map_append, List.map_append] at htags
    have := (List.append_inj htags (by simpa using hts.length_eq)).2
    exact (List.cons.inj this).1
  obtain ⟨halike, hfilled⟩ := hline x line rfl
  have hmem : t ∈ textsOf (ts ++ t :: us') := List.mem_filter.mpr ⟨by simp, by simp [htag]⟩
  rw [htexts] at hmem
  obtain ⟨l, hl, rfl⟩ := List.mem_map.mp hmem
  refine ⟨⟨hfilled, fun hlast => ?_⟩, fun hn => ?_⟩
  · exact absurd (halike.isInline_last hlast) (by decide)
  · obtain hn | hn := halike.mem_or_inline hn
    · exact not_mem_content hl hn
    · exact absurd hn (by decide)

/-- The layout of the canonical form has the marks of the flat form. -/
theorem exists_layout_canonical (h : 1 ≤ rules.tabWidth) {front : List LayoutToken} {place : Place}
    (hl : layout rules text = .ok (front ++ [⟨.eof, place⟩]))
    (hf : ∀ t ∈ front, t.tag ≠ .error) (htags : front.map LayoutToken.tag = f.flat.map Piece.tag)
    (hsolid : ∀ l ∈ writtenAll 0 f.statements, Solid l.2 ∧ '\n' ∉ l.2) :
    ∃ us place', layout rules f.canonical = .ok (us ++ [⟨.eof, place'⟩]) ∧
      us.map LayoutToken.mark = f.flat.map Piece.mark := by
  obtain ⟨hb, htokens⟩ := layout_eq_ok.mp hl
  obtain ⟨closers, place₁, hfin, hclosers, -⟩ := Offside.finish_split text (Text.lines text).length
    (Offside.initial.lines rules (contentLines text)).state
  rw [hfin, ← List.append_assoc] at htokens
  obtain ⟨rfl, -⟩ := List.append_inj' htokens rfl
  rw [List.map_append, eq_comm, List.map_eq_append_iff] at htags
  obtain ⟨ps, qs, hflat, hps, hqs⟩ := htags
  have hqtext : ∀ q ∈ qs, q.tag ≠ .text := by
    intro q hq
    have hmem : q.tag ∈ closers.map LayoutToken.tag := hqs ▸ List.mem_map_of_mem hq
    obtain ⟨t, ht, htag⟩ := List.mem_map.mp hmem
    obtain he | he := hclosers t ht <;> simp [← htag, he]
  have hlines : linesAt 0 ps = writtenAll 0 f.statements := by
    rw [← linesAt_append_of_tag hqtext, ← hflat]
    exact linesAt_flatAll 0 f.statements
  have hcontent : List.Forall₂ IsLineOf (contentLines f.canonical) (linesAt 0 ps) :=
    hlines ▸ isLineOf_textOf hsolid
  have hstack := (Offside.stacked_initial.keeps_lines h (contentLines text)).stacked
  obtain ⟨us, hus, hmarks⟩ := Offside.stacked_initial.exists_lines_even h hb
    (fun t ht => hf t (List.mem_append_left _ ht)) hps.symm hcontent
  generalize (Offside.initial.lines rules (contentLines text)).state = s at hfin hstack hus
  have heven : Offside.initial.lines rules (contentLines f.canonical) = ⟨us, s.even, none⟩ := hus
  obtain ⟨closers', place₂, hfin', -, -⟩ :=
    Offside.finish_split f.canonical (Text.lines f.canonical).length s.even
  have hlength : s.even.widths.length = s.widths.length := by
    rw [hstack.length_widths]
    exact length_evenWidths _
  have hend := Offside.marks_finish hlength rfl text f.canonical (Text.lines text).length
    (Text.lines f.canonical).length
  rw [hfin, hfin', List.map_append, List.map_append] at hend
  have hcloser : closers'.map LayoutToken.mark = qs.map Piece.mark := by
    rw [(List.append_inj' hend rfl).1]
    refine (map_mark_of_tag (by rw [hqs, List.map_map]; rfl) fun m hm => ?_).symm
    obtain ⟨t, ht, rfl⟩ := List.mem_map.mp hm
    obtain he | he := hclosers t ht <;> rw [LayoutToken.tag] at he <;> simp [he]
  refine ⟨us ++ closers', place₂, layout_eq_ok.mpr ⟨by rw [heven], ?_⟩, ?_⟩
  · rw [heven, hfin', List.append_assoc]
  · rw [List.map_append, hmarks, hcloser, hflat, List.map_append]

/-- A script that is written in its canonical form is read as the same tree, up to the spans. -/
theorem parse_canonical (h : 1 ≤ rules.tabWidth) (hp : parse rules text file = .ok f)
    (file' : Option Path) : ∃ f', parse rules f.canonical file' = .ok f' ∧ f'.bare = f.bare := by
  obtain ⟨front, place, a, hl, hshape, hrun, hcomplete, htracks, hflat⟩ := exists_run_of_parse hp
  have htexts : textsOf front = (contentLines text).map ContentLine.token := by
    rw [← hshape.texts, textsOf_append]
    exact (List.append_nil _).symm
  have htags : front.map LayoutToken.tag = f.flat.map Piece.tag :=
    map_tag_of_shows (hflat ▸ htracks.shows)
  obtain ⟨ps, hps, hw, hecho⟩ := Assembly.echo_of_run hrun Assembly.tracks_initial
    (Assembly.ordered_of_append (ordered_of_shaped hshape))
  obtain rfl : f.flat = ps := hflat.symm.trans hps
  have hsolid : ∀ l ∈ writtenAll 0 f.statements, Solid l.2 ∧ '\n' ∉ l.2 := by
    intro l hl
    rw [← linesAt_flatAll] at hl
    obtain ⟨x, hx⟩ := exists_mem_of_mem_linesAt hl
    exact solid_of_rewrites htexts hw htags hx
  obtain ⟨us, place', hl', hmarks⟩ := exists_layout_canonical h hl
    (firstFault?_eq_none.mp (firstFault?_of_run hrun)) htags hsolid
  obtain ⟨a', hrun', hbare⟩ := hecho rfl hmarks
  obtain ⟨ss, hcomplete', hss⟩ := Assembly.echo_of_complete (u := ⟨.eof, place'⟩) hcomplete hbare rfl
  refine ⟨_, parse_of_run file' hl' hrun' hcomplete', ?_⟩
  simp only [SourceFile.bare, bareAll_eq_map, hss]

/-- A script with uneven spaces, tabs and a comment. -/
def unevenScript : List Char :=
  "if x==1 :\n  eve glad@-sad 'hi' # said\nelif y:\n\tmenu:\n\t\t\"a\"\n\t\t'b'if z :\n\t\t\tpass\n".toList

theorem parse_canonical_unevenScript : ∃ f f', parse {} unevenScript = .ok f ∧
    parse {} f.canonical = .ok f' ∧ f'.bare = f.bare := by
  obtain ⟨f, hf⟩ := exists_of_toBool (x := parse {} unevenScript) (by cbv)
  obtain ⟨f', hf', hbare⟩ := parse_canonical (by decide) hf none
  exact ⟨f, f', hf, hf', hbare⟩

end Script

end NovelScript
