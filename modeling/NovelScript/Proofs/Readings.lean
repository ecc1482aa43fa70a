import NovelScript.Proofs.Widening

/-!
# Readings of two scripts

Scripts with layouts that correspond are read alike: their trees match, or they are refused for
faults that correspond. So all that has to be told of two scripts to compare their readings is how
their content lines and their ends correspond.
-/

namespace NovelScript

/-- What kind of failure it is: a breakdown, or the class of a fault and its reason. -/
def Failure.kind : Failure → Breakdown ⊕ FaultClass × Reason
  | breakdown b => .inl b
  | refused report => .inr (report.faultClass, report.reason)

def Failure.message? : Failure → Option String
  | breakdown _ => none
  | refused report => some report.message

namespace Likeness

variable (κ : Likeness)

/-- Layouts that correspond: tokens that do, or the same breakdown. -/
inductive Layouts :
    Except Breakdown (List LayoutToken) → Except Breakdown (List LayoutToken) → Prop
  | read {ts ts' : List LayoutToken} (h : List.Forall₂ κ.Tokens ts ts') :
    Layouts (.ok ts) (.ok ts')
  | broken (b : Breakdown) : Layouts (.error b) (.error b)

/-- Readings of two texts that correspond: trees of statements that match, reports of faults that
correspond, or the same breakdown. A report need not be met again unless the likeness is strict. -/
inductive Readings (file : Option Path) (text text' : List Char) :
    Except Failure SourceFile → Except Failure SourceFile → Prop
  | tree {ss ss' : List Statement} (h : List.Forall₂ (Statement.Matches κ.span) ss ss')
    (hne : ss ≠ []) :
    Readings file text text' (.ok ⟨ss, file, Parser.extentOf ss⟩)
      (.ok ⟨ss', file, Parser.extentOf ss'⟩)
  | refused {f : Fault} {x : Except Failure SourceFile}
    (h : κ.strict → ∃ f', x = .error (.refused (f'.report file (some text'))) ∧ κ.Faults f f') :
    Readings file text text' (.error (.refused (f.report file (some text)))) x
  | breakdown (b : Breakdown) :
    Readings file text text' (.error (.breakdown b)) (.error (.breakdown b))

variable {κ} {rules : LayoutRules} {f : Int → Int} {text text' : List Char}

/-- Content lines that correspond have layouts that do, unless the first layout has a fault and a
width is too long only under `f`. -/
theorem layouts_of_lines (hf : Widens f) (h0 : f 0 = 0)
    (hκ : ∀ v w, κ.cause (.inconsistent v w) (.inconsistent (f v) (f w)))
    (h : List.Forall₂ (κ.Lines rules f) (contentLines text) (contentLines text'))
    (hend : κ.place (Offside.endPlace text) (Offside.endPlace text')) :
    κ.Layouts (layout rules text) (layout rules text') ∨
      layout rules text' = .error .longWidth ∧
      (∀ ts, layout rules text = .ok ts → firstFault? ts ≠ none) ∧
      ∃ w, (∃ l ∈ contentLines text, rules.width l.indent = .ok w) ∧ Numeral.isShort w ∧
        ¬Numeral.isShort (f w) := by
  -- From the start on the open blocks of the second text are those of the first one under `f`.
  have hinitial : Offside.Under f [] .initial .initial :=
    ⟨Offside.stacked_initial, by simp [Offside.initial, h0], rfl⟩
  cases hinitial.lines hf hκ h with
  | lost hb ht hw hs hl =>
    refine .inr ⟨layout_eq_error.mpr hb, fun ts hts hnone => ?_, _, hw, hs, hl⟩
    obtain ⟨-, rfl⟩ := layout_eq_ok.mp hts
    obtain ⟨t, ht, htag⟩ := ht
    exact firstFault?_eq_none.mp hnone t (List.mem_append_left _ ht) htag
  | on ht hs hb =>
    left
    cases he : (Offside.initial.lines rules (contentLines text)).breakdown with
    | some b =>
      rw [layout_eq_error.mpr he, layout_eq_error.mpr (hb.trans he)]
      exact .broken b
    | none =>
      rw [layout_eq_ok.mpr ⟨he, rfl⟩, layout_eq_ok.mpr ⟨hb.trans he, rfl⟩,
        Offside.tokens_finish, Offside.tokens_finish]
      exact .read (List.rel_append ht
        (forall₂_concat (hs.closing hend) (.same (by decide) hend)))

theorem layouts_of_equal_widths
    (hκ : ∀ v w, κ.cause (.inconsistent v w) (.inconsistent v w))
    (h : List.Forall₂ (κ.Lines rules id) (contentLines text) (contentLines text'))
    (hend : κ.place (Offside.endPlace text) (Offside.endPlace text')) :
    κ.Layouts (layout rules text) (layout rules text') := by
  obtain hlayouts | ⟨-, -, w, -, hshort, hlong⟩ := layouts_of_lines .id rfl hκ h hend
  · exact hlayouts
  · exact absurd hshort hlong

theorem faults_of_firstFault? {ts ts' : List LayoutToken} (h : List.Forall₂ κ.Tokens ts ts') :
    Option.Rel κ.Faults (firstFault? ts) (firstFault? ts') := by
  induction h with
  | nil => exact .none
  | @cons t t' ts ts' ht _ ih =>
    cases ht with
    | @same m p p' hm hp =>
      cases m with
      | fault => exact absurd rfl hm.2
      | _ => exact ih
    | fault hc hp => exact .some ⟨.layout hc, .narrow hp⟩
    | line K => exact ih

/-- Layouts that correspond are read alike. -/
theorem readings_of_layouts (h : κ.Layouts (layout rules text) (layout rules text'))
    (file : Option Path) : κ.Readings file text text' (Script.parse rules text file)
      (Script.parse rules text' file) := by
  generalize hl : layout rules text = x, hl' : layout rules text' = y at h
  cases h with
  | broken b =>
    rw [Script.parse_of_breakdown file hl, Script.parse_of_breakdown file hl']
    exact .breakdown b
  | @read ts ts' hts =>
    have hfaults := faults_of_firstFault? hts
    generalize hf : firstFault? ts = o, hf' : firstFault? ts' = o' at hfaults
    cases hfaults with
    | some hfault =>
      rw [Script.parse_of_fault file hl hf, Script.parse_of_fault file hl' hf']
      exact .refused fun _ => ⟨_, rfl, hfault⟩
    | none =>
      have heof : ∃ t ∈ ts, t.mark = .eof := by
        obtain ⟨-, rfl⟩ := layout_eq_ok.mp hl
        rw [Offside.tokens_finish]
        exact ⟨⟨.eof, Offside.endPlace text⟩, by simp, rfl⟩
      have hends := Ends.finish hts (Assembly.matches_initial κ.span) heof
      generalize ha : Assembly.initial.finish ts = e,
        ha' : Assembly.initial.finish ts' = e' at hends
      cases hends with
      | complete hss hne =>
        rw [Script.parse_of_finish file hl hf ha, Script.parse_of_finish file hl' hf' ha']
        exact .tree hss hne
      | fault hg =>
        rw [Script.parse_of_refused file hl hf ha]
        refine .refused fun hs => ?_
        obtain ⟨g, rfl, hfault⟩ := hg hs
        exact ⟨g, Script.parse_of_refused file hl' hf' ha', hfault⟩

section

variable {file : Option Path} {x : Except Failure SourceFile}

theorem Readings.exists_ok {g : SourceFile} (h : κ.Readings file text text' (.ok g) x) :
    ∃ g', x = .ok g' ∧ g'.bare = g.bare := by
  cases h with
  | tree hss => exact ⟨_, rfl, by simp only [SourceFile.bare, bareAll_eq_of_matches hss]⟩

/-- What corresponds to a failure is a failure of the same kind, and with the same message if the
faults of the layout that correspond are the same. -/
theorem Readings.exists_error {e : Failure} (h : κ.Readings file text text' (.error e) x)
    (hs : κ.strict)
    (hκ : ∀ c c', κ.cause c c' → (Cause.layout c).reason = (Cause.layout c').reason) :
    ∃ e', x = .error e' ∧ e'.kind = e.kind ∧
      ((∀ c c', κ.cause c c' → c = c') → e'.message? = e.message?) := by
  cases h with
  | breakdown b => exact ⟨_, rfl, rfl, fun _ => rfl⟩
  | @refused g _ hg =>
    obtain ⟨g', rfl, hfault⟩ := hg hs
    obtain ⟨cause, spot⟩ := g
    obtain ⟨cause', spot'⟩ := g'
    refine ⟨_, rfl, ?_, fun hsame => ?_⟩
    · cases hfault.cause with
      | same => rfl
      | layout hc =>
        simp only [Failure.kind, Fault.report, Report.located, Report.bare, Cause.faultClass,
          Option.getD_some, hκ _ _ hc]
    · cases hfault.cause with
      | same => rfl
      | layout hc => rw [hsame _ _ hc]; rfl

end

/-- Content lines correspond when all places do, if their widths and their white space do and the
second one has at most an idle tail. -/
theorem lax_lines {strict : Prop} {cause : LayoutFault → LayoutFault → Prop} {l l' : ContentLine}
    {q : List Char} {w : Int} (hw : 0 ≤ w) (hwidth : rules.width l.indent = .ok w)
    (hwidth' : rules.width l'.indent = .ok (f w)) (hcause : cause .mixed .mixed)
    (hm : (isMixed l'.indent && !rules.allowMixed) = (isMixed l.indent && !rules.allowMixed))
    (hc : l'.content = l.content ++ q) (hq : Line.isOver q) (hs : strict → q = []) :
    (lax strict cause).Lines rules f l l' where
  width := ⟨w, hw, hwidth, hwidth'⟩
  mixed := by
    unfold Offside.mixedFaults
    rw [hm]
    split
    · exact .cons (.fault hcause trivial) .nil
    · exact .nil
  opening := trivial
  token := by
    have htoken : l'.token = ⟨.text (l.content ++ q), l'.place⟩ := by rw [ContentLine.token, hc]
    rw [htoken]
    exact .line ⟨l.content, q, l.place, l'.place, hq, hs, trivial, fun _ => trivial⟩

end Likeness

end NovelScript
