import NovelScript.Proofs.Concatenation
import NovelScript.Proofs.Reindenting
import NovelScript.Proofs.Rereading

/-!
# A script as the block of a label

When the lines of a script are all indented by the same number of spaces and the line of a label is
put before them, the statements of the script become the block of that label.
-/

namespace NovelScript

open Line

/-! The line of a label. -/

namespace Reader

variable {c d : Cursor} {x y : Char} {w t : List Char}

theorem string_of_ne (h : c.skipBlanks.rest = x :: t) (hx : isQuote x = false) :
    string c = .ok none c.skipBlanks := by
  simp only [string_eq, h, hx, Bool.false_eq_true, if_false]

theorem punct_of_ne (h : c.skipBlanks.rest = x :: t) (hx : x ≠ y) :
    punct [y] c = .ok none c.skipBlanks := by
  refine no_punct_before (before_of_rest rfl) ?_
  rw [← Cursor.rest_skipBlanks, h]
  rintro ⟨⟩
  exact hx rfl

/-- Two names and a colon are not spoken: the second name is taken for an attribute of the first
one, but no string follows. -/
theorem say?_of_names {v : List Char} (hv : IsName v) (hw : IsName w)
    (h : c.skipBlanks.rest = v ++ ' ' :: (w ++ [':'])) : ∃ d, say? c = .ok none d := by
  obtain ⟨y, v', rfl, hy, -⟩ := hv.exists_cons
  obtain ⟨z, w', rfl, hz, -⟩ := hw.exists_cons
  have hchar : isNameChar z := isNameChar_of_start hz
  obtain ⟨l, c₁, hl, -, -, hr₁⟩ := name_of_rest (c := c.skipBlanks) (t := ' ' :: (z :: w' ++ [':']))
    hv (by rw [Cursor.skipBlanks_idem, h]) (by rintro _ ⟨⟩; rfl)
  have hskip₁ : c₁.skipBlanks.rest = z :: (w' ++ [':']) := by
    rw [Cursor.rest_skipBlanks, hr₁, List.dropWhile_cons_of_pos rfl, List.cons_append,
      dropWhile_of_not_inline (isInline_of_name hchar)]
  obtain ⟨m, c₂, hm, -, -, hr₂⟩ := name_of_rest (c := c₁.skipBlanks) (t := [':'])
    hw (by rw [Cursor.skipBlanks_idem, hskip₁]; rfl) (by rintro _ ⟨⟩; rfl)
  have hskip₂ : c₂.skipBlanks.rest = [':'] := by rw [Cursor.rest_skipBlanks, hr₂]; rfl
  have hminus : z ≠ '-' := by
    rintro rfl
    cases hchar
  have hattribute : sayAttribute? c₁ = .ok (some ⟨m.value, false, m.span.cover m.span⟩) c₂ :=
    sayAttribute?_eq_some.mpr ⟨none, _, m, punct_of_ne hskip₁ hminus, hm, rfl⟩
  let c₃ : Cursor := { c₂.skipBlanks with pos := c₂.pos }
  have hskip₃ : c₃.skipBlanks.rest = [':'] := hskip₂
  have hnone : sayAttribute? c₂ = .ok none c₃ :=
    no_sayAttribute_before (before_of_rest hr₂) rfl (by decide) (by decide)
  have hmany := many_of_some hattribute (by rw [hr₁, hr₂]; simp) (many_of_none hnone)
  have htemporary : temporaryAttributes c₃ = .ok [] c₃.skipBlanks := by
    unfold temporaryAttributes
    rw [run_bind_of_ok run_get, run_bind_of_ok (punct_of_ne hskip₃ (by decide))]
    rfl
  have hstring := string_of_ne (c := c₃.skipBlanks) (x := ':') (t := [])
    (by rw [Cursor.skipBlanks_idem, hskip₃]) rfl
  refine ⟨{ c₃.skipBlanks.skipBlanks with pos := c.pos }, ?_⟩
  unfold say?
  rw [run_bind_of_ok run_get, run_bind_of_ok (string_of_ne h (isQuote_of_name
    (isNameChar_of_start hy)))]
  simp only
  rw [run_bind_of_ok hl]
  simp only
  rw [run_bind_of_ok hmany, run_bind_of_ok htemporary, run_bind_of_ok hstring]
  rfl

/-- The line of a label with a plain name. -/
def labelLine (w : List Char) : List Char := "label".toList ++ ' ' :: (w ++ [':'])

theorem labelName_of_rest (hw : IsName w) (h : c.skipBlanks.rest = w ++ [':']) :
    ∃ s d, labelName c = .ok ⟨.plain, w, s⟩ d ∧ d.rest = [':'] := by
  obtain ⟨z, w', rfl, hz, -⟩ := hw.exists_cons
  have hdot : z ≠ '.' := by
    rintro rfl
    cases hz
  obtain ⟨l, d, hl, hvalue, -, hr⟩ := name_of_rest (c := c.skipBlanks) (t := [':'])
    hw (by rw [Cursor.skipBlanks_idem, h]) (by rintro _ ⟨⟩; rfl)
  refine ⟨l.span, d, ?_, hr⟩
  have hexpect : expectName "label name" c.skipBlanks = .ok l d := required_eq_ok.mpr hl
  have hchar : char? d = .ok (some ':') d := by rw [char?_eq, hr]; rfl
  unfold labelName
  rw [run_bind_of_ok (punct_of_ne h hdot)]
  simp only
  rw [run_bind_of_ok hexpect, run_bind_of_ok hchar, ← hvalue]
  rfl

theorem opensBlock_of_rest (construct : String) (h : c.rest = [':']) :
    ∃ d, opensBlock construct c = .ok () d := by
  have hskip : c.skipBlanks.rest = [':'] ++ [] := by rw [Cursor.rest_skipBlanks, h]; rfl
  have hpunct : expectPunct ":" c = .ok (c.skipBlanks.take 1 (.punct [':'])).1
      (c.skipBlanks.take 1 (.punct [':'])).2 := by
    refine required_eq_ok.mpr ((punct_eq (by simp)).trans (if_pos ?_))
    rw [hskip]
    rfl
  have hover : isOver (c.skipBlanks.take 1 (.punct [':'])).2.rest := by
    rw [show (1 : Nat) = [':'].length from rfl, rest_take_of_append hskip]
    rfl
  refine ⟨(c.skipBlanks.take 1 (.punct [':'])).2.skipBlanks, ?_⟩
  unfold opensBlock endOfLine
  rw [run_bind_of_ok hpunct, run_bind_of_ok atEnd_eq_isOver, hover]
  rfl

theorem head_labelLine (hw : IsName w) (place : Place) : ∃ span keyword d,
    head (.ofContent (labelLine w) place) = .ok (.label ⟨.plain, w, span⟩ keyword) d := by
  have hkey : IsName "label".toList := by unfold IsName; decide
  have hrest : (Cursor.ofContent (labelLine w) place).skipBlanks.rest = labelLine w := by
    rw [Cursor.rest_skipBlanks]
    rfl
  obtain ⟨c, hsay⟩ := say?_of_names hkey hw hrest
  have hc := rest_of_say? hsay
  rw [hrest] at hc
  have hname : name? c.skipBlanks.rest = some "label".toList := by
    rw [hc]
    exact hkey.name?_append (by rintro _ ⟨⟩; rfl)
  have hkeyword : expectKeyword StatementKind.label.text c.skipBlanks =
      .ok (c.skipBlanks.take 5 (.keyword "label".toList)).1
        (c.skipBlanks.take 5 (.keyword "label".toList)).2 := by
    refine required_eq_ok.mpr ?_
    change keyword "label".toList _ = _
    rw [keyword_eq, Cursor.skipBlanks_idem, if_pos hname]
    rfl
  have hr : (c.skipBlanks.take 5 (.keyword "label".toList)).2.rest = ' ' :: (w ++ [':']) :=
    rest_take_of_append (w := "label".toList) hc _
  obtain ⟨span, d, hlabel, hd⟩ := labelName_of_rest
    (c := (c.skipBlanks.take 5 (.keyword "label".toList)).2) hw (by
      obtain ⟨z, w', rfl, hz, -⟩ := hw.exists_cons
      rw [Cursor.rest_skipBlanks, hr, List.dropWhile_cons_of_pos rfl, List.cons_append,
        dropWhile_of_not_inline (isInline_of_start hz)])
  obtain ⟨e, hopen⟩ := opensBlock_of_rest "label statement" hd
  refine ⟨span, (c.skipBlanks.take 5 (.keyword "label".toList)).1.span, e, ?_⟩
  unfold head
  rw [run_bind_of_ok hsay]
  simp only
  rw [run_bind_of_ok peekName_eq, hname]
  have hfind : (StatementKind.keyed.find? fun k => some "label".toList = some k.text.toList) =
      some .label := by decide
  simp only [hfind]
  rw [run_bind_of_ok hkeyword]
  unfold afterKeyword
  simp only
  rw [run_bind_of_ok hlabel, run_bind_of_ok hopen]
  rfl

end Reader

/-- All places, all spans and all faults of the layout correspond. -/
abbrev Likeness.loose : Likeness := lax True fun _ _ => True

/-! Assemblies in a block. -/

namespace Assembly

variable {a b c d : Assembly} {o : Owner × List Statement} {t : LayoutToken} {ts : List LayoutToken}
  {ss : List Statement} {s : Statement} {owner : Owner}

/-- The assembly in the block of a line that no line before it was in. -/
def inside (o : Owner × List Statement) (a : Assembly) : Assembly :=
  { a with outer := a.outer ++ [o] }

theorem Step.inside (h : Step a t b) : Step (a.inside o) t (b.inside o) := by
  cases h with
  | first hs hr => exact .first hs hr
  | next hs hc hr => exact .next hs hc hr
  | separate hs hc ht => exact .separate hs hc ht
  | close hs ho ht => exact .close hs (by rw [Assembly.inside, ho]; rfl) ht
  | elif hs hl hr => exact .elif hs hl hr
  | otherwise hs hl hr => exact .otherwise hs hl hr
  | enter hs ht => exact .enter hs ht
  | enterMenu hs ht => exact .enterMenu hs ht
  | caption hs hr => exact .caption hs hr
  | captioned hs ht => exact .captioned hs ht
  | choice hs hr => exact .choice hs hr
  | leave hs ht => exact .leave hs ht

theorem run_inside (h : a.run ts = some b) : (a.inside o).run ts = some (b.inside o) := by
  induction ts generalizing a with
  | nil =>
    cases h
    rfl
  | cons t ts ih =>
    obtain ⟨c, hc, hb⟩ := run_cons.mp h
    exact run_cons.mpr ⟨_, move_of_step (step_of_move hc).inside, ih hb⟩

theorem close_inside (hs : a.stage.statement? = some s) (ho : a.outer = [])
    (ht : t.mark = .dedent) : (a.inside (owner, [])).run [t] =
      some ⟨owner.close ⟨a.done ++ [s], Parser.extentOf (a.done ++ [s])⟩, [], []⟩ := by
  refine run_cons.mpr ⟨_, move_of_step (.close hs ?_ ht), rfl⟩
  rw [inside, ho]
  rfl

theorem Step.of_newline (h : Step a t b) (ht : t.mark = .newline) :
    (∃ s, a.stage = .after s ∧ b = ⟨.line, a.done ++ [s], a.outer⟩) ∨
      ∃ m, b.stage = .choice m := by
  have htext : t.tag ≠ .text := by rw [LayoutToken.tag, ht]; decide
  cases h with
  | separate hs => exact .inl ⟨_, hs, rfl⟩
  | captioned => exact .inr ⟨_, rfl⟩
  | first _ hr | next _ _ hr | caption _ hr | choice _ hr => exact absurd hr.tag htext
  | elif _ _ hr => exact absurd hr.tag htext
  | otherwise _ _ hr => exact absurd hr.tag htext
  | close _ _ he | enter _ he | enterMenu _ he | leave _ he => rw [ht] at he; cases he

theorem Step.ne_line_of_dedent (h : Step a t b) (ht : t.mark = .dedent) : b.stage ≠ .line := by
  have htext : t.tag ≠ .text := by rw [LayoutToken.tag, ht]; decide
  cases h with
  | @close _ owner => cases owner <;> exact Stage.noConfusion
  | leave => exact Stage.noConfusion
  | first _ hr | next _ _ hr | caption _ hr | choice _ hr => exact absurd hr.tag htext
  | elif _ _ hr => exact absurd hr.tag htext
  | otherwise _ _ hr => exact absurd hr.tag htext
  | separate _ _ he | captioned _ he | enter _ he | enterMenu _ he => rw [ht] at he; cases he

/-- Where the closing at the end of a script makes it ready, one more closing ends its block. -/
theorem run_closings_inside {place : Place} {st : Offside} (hst : st.started = true)
    (hne : st.widths ≠ []) (h : a.run (st.closing place) = some b) (hb : b.Ready ss) :
    (a.inside (owner, [])).run (List.replicate st.widths.length ⟨.dedent, place⟩) =
      some ⟨owner.close ⟨ss, Parser.extentOf ss⟩, [], []⟩ := by
  obtain ⟨n, hn⟩ := Nat.exists_eq_succ_of_ne_zero (List.length_pos_iff.mpr hne).ne'
  rw [hn, List.replicate_succ', run_append]
  unfold Offside.closing at h
  rw [hn, hst] at h
  cases n with
  | zero =>
    -- Only the outermost block is open, and a separator ends its last statement.
    obtain ⟨c, hc, hrun⟩ := run_cons.mp h
    cases hrun
    have hstep := step_of_move hc
    obtain ⟨ho, hlast⟩ := hb
    obtain ⟨s, hs, rfl⟩ | ⟨m, hm⟩ := hstep.of_newline rfl
    · obtain ⟨-, rfl⟩ | ⟨s', hs', -⟩ := hlast
      · exact close_inside (by rw [hs]; rfl) ho rfl
      · cases hs'
    · obtain ⟨hs, -⟩ | ⟨s', hs', -⟩ := hlast
      · rw [hm] at hs
        cases hs
      · rw [hm] at hs'
        cases hs'
  | succ n =>
    rw [if_pos (by omega), Nat.succ_sub_one, List.replicate_succ', run_append] at h
    obtain ⟨c, hc, hlast⟩ := Option.bind_eq_some_iff.mp h
    obtain ⟨b', hm, hrun⟩ := run_cons.mp hlast
    cases hrun
    have hclosings : a.run (List.replicate (n + 1) ⟨.dedent, place⟩) = some b := by
      rw [List.replicate_succ', run_append]
      exact h
    rw [run_inside hclosings]
    obtain ⟨ho, ⟨hs, -⟩ | ⟨s, hs, -, rfl⟩⟩ := hb
    · exact absurd hs ((step_of_move hm).ne_line_of_dedent rfl)
    · exact close_inside hs ho rfl

end Assembly

/-! White space without tabs. -/

theorem LayoutRules.widthFrom_of_no_tab (rules : LayoutRules) {indent : List Char}
    (h : '\t' ∉ indent) (w : Int) : rules.widthFrom w indent = .ok (w + indent.count ' ') := by
  induction indent generalizing w with
  | nil => simp [widthFrom]
  | cons c cs ih =>
    have hc : c ≠ '\t' := fun he => h (he ▸ List.mem_cons_self)
    have hcs := ih fun hm => h (List.mem_cons_of_mem _ hm)
    rw [widthFrom]
    by_cases hspace : c = ' '
    · rw [if_pos hspace, hcs, hspace, List.count_cons_self]
      congr 1
      omega
    · rw [if_neg hspace, if_neg hc, hcs, List.count_cons_of_ne (by simpa using hspace)]

theorem isMixed_of_no_tab {indent : List Char} (h : '\t' ∉ indent) : isMixed indent = false := by
  rw [isMixed, List.contains_eq_mem, decide_eq_false h, Bool.false_and]

namespace Text

/-- The text in the block of a label: the line of the label, and then the lines of the text with `k`
more spaces before each line with content. -/
def embed (name : List Char) (k : Nat) (text : List Char) : List Char :=
  Reader.labelLine name ++ '\n' :: reindent (List.replicate k ' ' ++ ·) text

end Text

namespace Script

variable {rules : LayoutRules} {text x : List Char} {k : Nat} {file : Option Path} {f : SourceFile}

theorem contentLines_labelLine (hx : IsName x) :
    contentLines (Reader.labelLine x ++ ['\n']) = [⟨1, 0, [], Reader.labelLine x⟩] := by
  have hsolid : Solid (Reader.labelLine x) := by
    refine ⟨⟨'l', _, rfl, rfl, by decide⟩, ?_⟩
    have hlast : Reader.labelLine x = ("label".toList ++ ' ' :: x) ++ [':'] := by
      rw [Reader.labelLine, List.append_assoc]
      rfl
    rw [hlast, List.getLast?_concat]
    decide
  have hfeed : '\n' ∉ Reader.labelLine x := by
    intro hm
    obtain hm | hm := List.mem_append.mp hm
    · exact absurd hm (by decide)
    · obtain hm | hm := List.mem_cons.mp hm
      · exact absurd hm (by decide)
      · obtain hm | hm := List.mem_append.mp hm
        · exact absurd (hx.all_char _ hm) (by decide)
        · exact absurd hm (by decide)
  have hlines : Text.lines (Reader.labelLine x ++ ['\n']) = [Reader.labelLine x, []] := by
    rw [Text.lines_append, Text.lines_of_not_mem hfeed]
    rfl
  have hline := hsolid.ofLine?_indented 1 0 0
  rw [indented, List.replicate_zero, List.nil_append] at hline
  rw [contentLines, hlines, contentLinesFrom, hline]
  rfl

theorem contentLines_embed (rules : LayoutRules) (hx : IsName x) (k : Nat)
    (ht : ∀ l ∈ contentLines text, '\t' ∉ l.indent) :
    ∃ ls, contentLines (Text.embed x k text) = ⟨1, 0, [], Reader.labelLine x⟩ :: ls ∧
      List.Forall₂ (Likeness.loose.Lines rules (· + k)) (contentLines text) ls := by
  have hkeeps : Text.KeepsIndent (List.replicate k ' ' ++ ·) := by
    intro s hs c hc
    obtain hc | hc := List.mem_append.mp hc
    · exact Solid.isIndent_replicate k c hc
    · exact hs c hc
  have hfirst := contentLines_labelLine hx
  have hembed : Text.embed x k text = (Reader.labelLine x ++ ['\n']) ++
      Text.reindent (List.replicate k ' ' ++ ·) text := by
    rw [Text.embed, List.append_assoc]
    rfl
  rw [hembed, contentLines_join (.inr (by simp)), hfirst]
  refine ⟨_, rfl, List.forall₂_map_right_iff.mpr ((Text.forall₂_reindent hkeeps text).imp ?_)⟩
  rintro l l' ⟨hl, hindent, hcontent⟩
  have htab := ht l hl
  have htab' : '\t' ∉ l'.indent := by
    rw [hindent]
    intro hm
    obtain hm | hm := List.mem_append.mp hm
    · exact absurd (List.eq_of_mem_replicate hm) (by decide)
    · exact htab hm
  refine Likeness.lax_lines (q := []) (Int.natCast_nonneg (l.indent.count ' ')) ?_ ?_ trivial ?_
    (hcontent.trans (List.append_nil _).symm) rfl fun _ => rfl
  · rw [LayoutRules.width, rules.widthFrom_of_no_tab htab, Int.zero_add]
  · change rules.widthFrom 0 l'.indent = _
    rw [rules.widthFrom_of_no_tab htab', hindent, List.count_append, List.count_replicate_self]
    congr 1
    omega
  · change (isMixed l'.indent && _) = _
    rw [isMixed_of_no_tab htab, isMixed_of_no_tab htab']

theorem exists_first_of_parse (hf : parse rules text file = .ok f)
    (ht : ∀ l ∈ contentLines text, '\t' ∉ l.indent) : ∃ l ls, contentLines text = l :: ls ∧
      rules.width l.indent = .ok 0 ∧ Offside.mixedFaults rules l = [] := by
  obtain ⟨c, d, -, hrun, hclosing, hready, hne⟩ := ready_of_parse hf
  cases hlines : contentLines text with
  | nil =>
    rw [linesOf, hlines] at hrun hclosing
    cases hrun
    obtain rfl : Assembly.initial = d := Option.some.inj (hclosing ⟨1, 1, 0, 0⟩)
    obtain ⟨-, ⟨-, hdone⟩ | ⟨s, hs, -⟩⟩ := hready
    · exact absurd hdone.symm hne
    · cases hs
  | cons l ls =>
    have htab := ht l (by rw [hlines]; exact List.mem_cons_self)
    have hwidth : rules.width l.indent = .ok (l.indent.count ' ' : Int) := by
      rw [LayoutRules.width, rules.widthFrom_of_no_tab htab, Int.zero_add]
    have hmixed : Offside.mixedFaults rules l = [] := by
      rw [Offside.mixedFaults, isMixed_of_no_tab htab]
      rfl
    refine ⟨l, ls, rfl, ?_, hmixed⟩
    by_cases hzero : l.indent.count ' ' = 0
    · rw [hwidth, hzero]
      rfl
    · -- Otherwise the layout starts with the opening of a block.
      have hline : Offside.initial.line rules l = ⟨[⟨.indent, l.place.opening⟩, l.token],
          ⟨[l.indent.count ' ', 0], true⟩, none⟩ := by
        rw [Offside.line_of_width hwidth, (Offside.Turn.deeper rfl (by omega)).eq, hmixed]
        rfl
      rw [linesOf, hlines, Offside.lines, hline, Emission.andThen_of_none rfl] at hrun
      obtain ⟨b, hb, -⟩ := Assembly.run_cons.mp hrun
      cases hb

/-- What the offside rule makes of a text in the block of a label: after the line of the label and
an opening, tokens that correspond to those of the text, in a block that is deeper by `k`. -/
theorem exists_linesOf_embed (hf : parse rules text file = .ok f)
    (ht : ∀ l ∈ contentLines text, '\t' ∉ l.indent) (hx : IsName x) (hk : 1 ≤ k) :
    ∃ place ts s, linesOf rules (Text.embed x k text) =
        ⟨(ContentLine.mk 1 0 [] (Reader.labelLine x)).token :: ⟨.indent, place⟩ :: ts, s, none⟩ ∧
      List.Forall₂ Likeness.loose.Tokens (linesOf rules text).tokens ts ∧
      (linesOf rules text).state.Under (· + k) [0] s := by
  obtain ⟨c, d, hbreak, hrun, -⟩ := ready_of_parse hf
  obtain ⟨l, ls, hlines, hwidth, hmixed⟩ := exists_first_of_parse hf ht
  obtain ⟨ls', hembed, hforall⟩ := contentLines_embed rules hx k ht
  rw [hlines] at hforall
  obtain ⟨l', ls', hl, hls, rfl⟩ := List.forall₂_cons_left_iff.mp hforall
  rw [linesOf_of_first hlines hwidth hmixed] at hbreak hrun ⊢
  have hlabel := @Offside.Stacked.line_zero rules _ ⟨1, 0, [], Reader.labelLine x⟩
    Offside.stacked_initial rfl rfl
  have hdeeper : Offside.line rules l' ⟨[0], true⟩ =
      ⟨[⟨.indent, l'.place.opening⟩, l'.token], ⟨[0 + k, 0], true⟩, none⟩ := by
    obtain ⟨w, -, hw, hw'⟩ := hl.width
    obtain rfl : 0 = w := Except.ok.inj (hwidth.symm.trans hw)
    have hmixed' := hl.mixed
    rw [hmixed, List.forall₂_nil_left_iff] at hmixed'
    rw [Offside.line_of_width hw', (Offside.Turn.deeper rfl (by omega)).eq, hmixed']
    rfl
  have hunder : Offside.Under (· + k) [0] ⟨[0], true⟩ ⟨[0 + (k : Int), 0], true⟩ :=
    ⟨⟨by simp, rfl⟩, rfl, rfl⟩
  cases hunder.lines (.add (Int.natCast_nonneg k)) (fun _ _ => trivial) hls with
  | lost _ hfault =>
    -- A script has no fault of the indentation.
    obtain ⟨t, hmem, htag⟩ := hfault
    exact absurd htag (firstFault?_eq_none.mp (firstFault?_of_run hrun) t
      (List.mem_append_right _ hmem))
  | on htokens hstate hb =>
    refine ⟨l'.place.opening, _, _, ?_, .cons hl.token htokens, hstate⟩
    rw [linesOf, hembed, Offside.lines, hlabel, Emission.andThen_of_none rfl, Offside.lines,
      hdeeper, Emission.andThen_of_none rfl]
    simp only [Emission.after, hb.trans hbreak]
    rfl

/-- Tokens that correspond to those of a script make its block complete, with one closing for each
block that is open after them and one for the block of the script. -/
theorem exists_run_in_block {owner : Owner} {ts : List LayoutToken} (place : Place)
    (hf : parse rules text file = .ok f) (hne : contentLines text ≠ [])
    (hstacked : (linesOf rules text).state.Stacked)
    (howner : owner.Matches Likeness.loose.span owner)
    (hts : List.Forall₂ Likeness.loose.Tokens (linesOf rules text).tokens ts) :
    ∃ b, (Assembly.initial.inside (owner, [])).run
        (ts ++ List.replicate (linesOf rules text).state.widths.length ⟨.dedent, place⟩) = some b ∧
      Assembly.Matches Likeness.loose.span
        ⟨owner.close ⟨f.statements, Parser.extentOf f.statements⟩, [], []⟩ b := by
  obtain ⟨c, d, hbreak, hrun, hclosing, hready, -⟩ := ready_of_parse hf
  have hstarted := (Offside.lines_of_none hne hbreak).1
  have hwidths := hstacked.widths_ne_nil
  have hblock : (Assembly.initial.inside (owner, [])).run ((linesOf rules text).tokens ++
      List.replicate (linesOf rules text).state.widths.length ⟨.dedent, place⟩) =
        some ⟨owner.close ⟨f.statements, Parser.extentOf f.statements⟩, [], []⟩ := by
    rw [Assembly.run_append, Assembly.run_inside hrun]
    exact Assembly.run_closings_inside hstarted hwidths (hclosing _) hready
  refine Likeness.exists_run_of_matches (List.rel_append hts (List.forall₂_same.mpr ?_))
    ⟨.line, .nil, .cons ⟨howner, .nil⟩ .nil⟩ hblock
  intro t ht
  rw [List.eq_of_mem_replicate ht]
  exact .same (by decide) trivial

theorem exists_label_of_matches {R : Span → Span → Prop} {name keyword : Span} {body : Block}
    {b : Assembly}
    (h : Assembly.Matches R ⟨(Owner.label ⟨.plain, x, name⟩ keyword).close body, [], []⟩ b) :
    ∃ name' body' span, b = ⟨.after (.label ⟨.plain, x, name'⟩ body' span), [], []⟩ ∧
      bareAll body'.statements = bareAll body.statements := by
  obtain ⟨stage, done, outer⟩ := b
  obtain ⟨hstage, hdone, houter⟩ := h
  cases hdone
  cases houter
  cases hstage with
  | after hs =>
    cases hs with
    | @label _ name' _ body' _ span hname hbody =>
      obtain ⟨scope, written, nameSpan⟩ := name'
      obtain ⟨rfl, rfl, -⟩ := hname
      exact ⟨nameSpan, body', span, rfl, (bareAll_eq_of_matches hbody.statements).symm⟩

/-- A script in the block of a label. Every script of which no line is indented with a tab becomes
the block of a label when its lines are indented by at least one more space and the line of the
label is put before them: the result is a script of this label alone, and the statements of its
block are those of the original script, up to their spans. -/
theorem parse_embed (rules : LayoutRules) (file : Option Path) (text x : List Char) (k : Nat)
    (f : SourceFile) (hf : parse rules text file = .ok f)
    (ht : ∀ l ∈ contentLines text, '\t' ∉ l.indent) (hx : IsName x) (hk : 1 ≤ k) :
    ∃ g name body span, parse rules (Text.embed x k text) file = .ok g ∧
      g.statements = [.label ⟨.plain, x, name⟩ body span] ∧
      bareAll body.statements = bareAll f.statements := by
  obtain ⟨l, ls, hlines, -⟩ := exists_first_of_parse hf ht
  obtain ⟨place, ts, s, hembed, htokens, hunder⟩ := exists_linesOf_embed hf ht hx hk
  let lastPlace := Offside.endPlace (Text.embed x k text)
  -- The end of the text closes one more block than the end of the script.
  have hclosings : s.closing lastPlace =
      List.replicate (linesOf rules text).state.widths.length ⟨.dedent, lastPlace⟩ := by
    have hpos := hunder.stacked.length_pos
    rw [Offside.closing, hunder.widths, List.length_append, List.length_map, List.length_singleton,
      Nat.add_sub_cancel, if_pos (by omega)]
  have hlayout := layout_eq_linesOf.mpr ⟨congrArg Emission.breakdown hembed, rfl⟩
  rw [Offside.tokens_finish, hembed, hclosings, ← List.append_assoc] at hlayout
  obtain ⟨span, keyword, e, hhead⟩ := Reader.head_labelLine hx
    (ContentLine.mk 1 0 [] (Reader.labelLine x)).place
  have howner : Owner.Matches Likeness.loose.span
      (.label ⟨.plain, x, span⟩ keyword) (.label ⟨.plain, x, span⟩ keyword) :=
    .label ⟨rfl, rfl, trivial⟩ trivial
  obtain ⟨b, hb, hmatch⟩ :=
    exists_run_in_block lastPlace hf (by simp [hlines]) hunder.stacked howner htokens
  obtain ⟨name, body, labelSpan, rfl, hbare⟩ := exists_label_of_matches hmatch
  have hfront : Assembly.initial.run ((ContentLine.mk 1 0 [] (Reader.labelLine x)).token ::
      ⟨.indent, place⟩ :: (ts ++ List.replicate (linesOf rules text).state.widths.length
        ⟨.dedent, lastPlace⟩)) = some ⟨.after (.label ⟨.plain, x, name⟩ body labelSpan), [], []⟩ :=
    Assembly.run_cons.mpr ⟨_, Assembly.move_of_step (.first rfl ⟨_, e, rfl, hhead⟩),
      Assembly.run_cons.mpr ⟨_, Assembly.move_of_step (.enter rfl rfl), hb⟩⟩
  exact ⟨_, name, body, labelSpan, parse_of_run file hlayout hfront
    (Assembly.move_eq_complete_iff.mpr ⟨rfl, rfl, .inr ⟨_, rfl, rfl⟩⟩), rfl, hbare⟩

/-- A script that ends in a block. -/
def loopScript : List Char := "jump start\nwhile x:\n  eve 'hi'\n".toList

theorem parse_embed_loopScript : ∃ f g name body span, parse {} loopScript = .ok f ∧
    parse {} (Text.embed "start".toList 2 loopScript) = .ok g ∧
      g.statements = [.label ⟨.plain, "start".toList, name⟩ body span] ∧
      bareAll body.statements = bareAll f.statements := by
  obtain ⟨f, hf⟩ := exists_of_toBool (x := parse {} loopScript) (by cbv)
  obtain ⟨g, name, body, span, hg, hs, hbody⟩ := parse_embed {} none loopScript "start".toList 2
    f hf (by decide) (by unfold IsName; decide) (by decide)
  exact ⟨f, g, name, body, span, hf, hg, hs, hbody⟩

end Script

end NovelScript
