import Mathlib.Data.List.Induction
import NovelScript.Proofs.Balance

/-!
# Which widths stay open

The offside rule opens and closes blocks line by line. What is open after some lines can be said
without the rule: the outermost block, and the width of every line that took a place among the
blocks and that no later line undercuts. From these widths it follows what the next line comes to.
-/

namespace NovelScript

/-- The tokens tell of a line that returns to no open block. -/
def TellsStray (ts : List LayoutToken) : Prop :=
  ∃ t ∈ ts, ∃ outer w, t.mark = .fault (.inconsistent outer w)

theorem tellsStray_append {ts us : List LayoutToken} :
    TellsStray (ts ++ us) ↔ TellsStray ts ∨ TellsStray us := by
  simp [TellsStray, or_and_right, exists_or]

theorem not_tellsStray {ts : List LayoutToken}
    (h : ∀ t ∈ ts, ∀ outer w, t.mark ≠ .fault (.inconsistent outer w)) : ¬TellsStray ts :=
  fun ⟨t, ht, outer, w, hm⟩ => h t ht outer w hm

/-- What is emitted stays emitted. -/
theorem Emission.prefix_andThen (e : Emission) (next : Offside → Emission) :
    e.tokens <+: (e.andThen next).tokens := by
  cases hb : e.breakdown with
  | some b => exact ⟨[], by rw [andThen_of_some hb, List.append_nil]⟩
  | none =>
    rw [andThen_of_none hb]
    exact List.prefix_append _ _

namespace Offside

variable {rules : LayoutRules} {s : Offside} {v w inner outer : Int} {closed rest : List Int}
  {place : Place} {e : Emission}

/-- What a line of width `w` comes to where `inner` is the innermost open block. -/
structure Ruled (s : Offside) (inner w : Int) (e : Emission) : Prop where
  indents : countTag .indent e.tokens = if inner < w then 1 else 0
  newlines : countTag .newline e.tokens = if w = inner ∧ s.started then 1 else 0
  dedents : countTag .dedent e.tokens = (s.widths.filter (w < ·)).length
  flagged : TellsStray e.tokens ↔ w < inner ∧ w ∉ s.widths ∧ Numeral.isShort w
  kept : ∀ v, v ∈ e.state.widths ↔ v ∈ s.widths ∧ v ≤ w ∨ v = w ∧ ¬(w < inner ∧ w ∉ s.widths)

/-- The blocks that are deeper than a line. -/
theorem Stacked.filter_deeper (hs : s.Stacked) (h : s.widths = closed ++ outer :: rest)
    (hw : ∀ x ∈ closed, w < x) (ho : outer ≤ w) : s.widths.filter (w < ·) = closed := by
  have hrest : (outer :: rest).filter (w < ·) = [] :=
    List.filter_eq_nil_iff.mpr fun x hx => by simpa using hs.le_of_mem h ho x hx
  rw [h, List.filter_append, hrest, List.append_nil]
  exact List.filter_eq_self.mpr (by simpa using hw)

namespace Turn

theorem lt_inner (hin : s.widths = inner :: rest) {kept : List Int} (hc : closed ≠ [])
    (h : s.widths = closed ++ kept) (hw : ∀ x ∈ closed, w < x) : w < inner := by
  obtain ⟨x, xs, rfl⟩ := List.exists_cons_of_ne_nil hc
  obtain ⟨rfl, -⟩ := List.cons.inj (hin.symm.trans h)
  exact hw _ List.mem_cons_self

theorem count_indent (hin : s.widths = inner :: rest) (ht : Turn s w place e) :
    countTag .indent e.tokens = if inner < w then 1 else 0 := by
  have hdedents : ∀ closed : List Int,
      countTag .indent (closed.map fun _ => ⟨.dedent, place⟩) = 0 :=
    countTag_map_dedent_of_ne (by decide) place
  cases ht with
  | deeper h hw =>
    obtain ⟨rfl, -⟩ := List.cons.inj (hin.symm.trans h)
    rw [if_pos hw]
    rfl
  | level h =>
    obtain ⟨rfl, -⟩ := List.cons.inj (hin.symm.trans h)
    rw [if_neg (Int.lt_irrefl _)]
    cases s.started <;> rfl
  | shallower hc h hw =>
    rw [if_neg (Int.lt_asymm (lt_inner hin hc h hw)), hdedents]
  | stray hc h hw =>
    rw [if_neg (Int.lt_asymm (lt_inner hin hc h hw)), countTag_append, hdedents]
    rfl
  | untold hc h hw =>
    rw [if_neg (Int.lt_asymm (lt_inner hin hc h hw)), hdedents]

theorem count_newline (hin : s.widths = inner :: rest) (ht : Turn s w place e) :
    countTag .newline e.tokens = if w = inner ∧ s.started then 1 else 0 := by
  have hdedents : ∀ closed : List Int,
      countTag .newline (closed.map fun _ => ⟨.dedent, place⟩) = 0 :=
    countTag_map_dedent_of_ne (by decide) place
  cases ht with
  | deeper h hw =>
    obtain ⟨rfl, -⟩ := List.cons.inj (hin.symm.trans h)
    rw [if_neg fun hlevel => Int.ne_of_gt hw hlevel.1]
    rfl
  | level h =>
    obtain ⟨rfl, -⟩ := List.cons.inj (hin.symm.trans h)
    cases s.started <;> simp [countTag, LayoutToken.tag, LayoutMark.tag]
  | shallower hc h hw =>
    rw [if_neg fun hlevel => Int.ne_of_lt (lt_inner hin hc h hw) hlevel.1, hdedents]
  | stray hc h hw =>
    rw [if_neg fun hlevel => Int.ne_of_lt (lt_inner hin hc h hw) hlevel.1, countTag_append,
      hdedents]
    rfl
  | untold hc h hw =>
    rw [if_neg fun hlevel => Int.ne_of_lt (lt_inner hin hc h hw) hlevel.1, hdedents]

theorem count_dedent (hs : s.Stacked) (ht : Turn s w place e) :
    countTag .dedent e.tokens = (s.widths.filter (w < ·)).length := by
  cases ht with
  | @deeper inner rest h hw =>
    have h' : s.widths = [] ++ inner :: rest := h
    rw [hs.filter_deeper h' nofun (Int.le_of_lt hw)]
    rfl
  | @level rest h =>
    have h' : s.widths = [] ++ w :: rest := h
    rw [hs.filter_deeper h' nofun (Int.le_refl w)]
    cases s.started <;> rfl
  | shallower hc h hw =>
    rw [hs.filter_deeper h hw (Int.le_refl w), countTag_map_dedent]
  | stray hc h hw ho =>
    rw [hs.filter_deeper h hw (Int.le_of_lt ho), countTag_append, countTag_map_dedent]
    rfl
  | untold hc h hw ho =>
    rw [hs.filter_deeper h hw (Int.le_of_lt ho), countTag_map_dedent]

/-- A line strays if it closes a block and lies at the width of no open one. -/
theorem tellsStray_iff (hs : s.Stacked) (hin : s.widths = inner :: rest)
    (ht : Turn s w place e) :
    TellsStray e.tokens ↔ w < inner ∧ w ∉ s.widths ∧ Numeral.isShort w := by
  have hdedents : ∀ closed : List Int,
      ¬TellsStray (closed.map fun _ => ⟨.dedent, place⟩) := fun closed =>
    not_tellsStray (by simp)
  cases ht with
  | deeper h hw =>
    obtain ⟨rfl, -⟩ := List.cons.inj (hin.symm.trans h)
    exact ⟨fun hstray => absurd hstray (not_tellsStray (by simp)),
      fun hlt => absurd hlt.1 (Int.lt_asymm hw)⟩
  | level h =>
    obtain ⟨rfl, -⟩ := List.cons.inj (hin.symm.trans h)
    refine ⟨fun hstray => absurd hstray (not_tellsStray ?_),
      fun hlt => absurd hlt.1 (Int.lt_irrefl _)⟩
    split <;> simp
  | shallower hc h hw =>
    exact ⟨fun hstray => absurd hstray (hdedents _), fun hlt => absurd (by simp [h]) hlt.2.1⟩
  | stray hc h hw ho hd =>
    refine iff_of_true (tellsStray_append.mpr (.inr ⟨_, List.mem_cons_self, _, _, rfl⟩)) ?_
    exact ⟨lt_inner hin hc h hw, hs.not_mem_of_between h hw ho, (Bool.and_eq_true_iff.mp hd).2⟩
  | @untold closed rest outer hc h hw ho hd =>
    refine iff_of_false (hdedents _) fun hlt => hd ?_
    have hout : 0 ≤ outer := hs.nonneg (by simp [h])
    exact Bool.and_eq_true_iff.mpr
      ⟨Numeral.isShort_of_le hout (Int.le_of_lt ho) hlt.2.2, hlt.2.2⟩

/-- A line closes what is deeper than itself, and unless it strays its own width is open then. -/
theorem mem_widths_iff (hs : s.Stacked) (hin : s.widths = inner :: rest) (ht : Turn s w place e) :
    v ∈ e.state.widths ↔ v ∈ s.widths ∧ v ≤ w ∨ v = w ∧ ¬(w < inner ∧ w ∉ s.widths) := by
  -- A line that closes nothing, or returns to an open block, adds what is open anyway.
  have hback : ∀ {closed rest : List Int}, s.widths = closed ++ w :: rest →
      (∀ x ∈ closed, w < x) →
      (v ∈ w :: rest ↔ v ∈ s.widths ∧ v ≤ w ∨ v = w ∧ ¬(w < inner ∧ w ∉ s.widths)) := by
    intro closed rest h hw
    have hmem : w ∈ s.widths := by simp [h]
    rw [hs.mem_kept_iff h hw (Int.le_refl w)]
    refine ⟨.inl, ?_⟩
    rintro (hv | ⟨rfl, -⟩)
    · exact hv
    · exact ⟨hmem, Int.le_refl v⟩
  have hbetween : ∀ {closed rest : List Int} {outer : Int}, closed ≠ [] →
      s.widths = closed ++ outer :: rest → (∀ x ∈ closed, w < x) → outer < w →
      (v ∈ outer :: rest ↔ v ∈ s.widths ∧ v ≤ w ∨ v = w ∧ ¬(w < inner ∧ w ∉ s.widths)) := by
    intro closed rest outer hc h hw ho
    have hstray := And.intro (lt_inner hin hc h hw) (hs.not_mem_of_between h hw ho)
    rw [hs.mem_kept_iff h hw (Int.le_of_lt ho)]
    exact ⟨.inl, fun hv => hv.resolve_right fun ⟨_, hnot⟩ => hnot hstray⟩
  cases ht with
  | @deeper inner' rest h hw =>
    obtain ⟨rfl, -⟩ := List.cons.inj (hin.symm.trans h)
    have h' : s.widths = [] ++ inner :: rest := h
    rw [← hs.mem_kept_iff h' nofun (Int.le_of_lt hw), ← h, List.mem_cons]
    simp [Int.lt_asymm hw, or_comm]
  | @level rest h =>
    have h' : s.widths = [] ++ w :: rest := h
    rw [← hback h' nofun, ← h]
  | shallower hc h hw => exact hback h hw
  | stray hc h hw ho hd => exact hbetween hc h hw ho
  | untold hc h hw ho hd => exact hbetween hc h hw ho

theorem ruled (hs : s.Stacked) (hin : s.widths = inner :: rest) (ht : Turn s w place e) :
    s.Ruled inner w e :=
  ⟨ht.count_indent hin, ht.count_newline hin, ht.count_dedent hs, ht.tellsStray_iff hs hin,
    fun _ => ht.mem_widths_iff hs hin⟩

end Turn

/-- The tokens of a line, whether or not it breaks down: a fault of its white space, its turn, and
its text if it comes to that. -/
theorem Stacked.exists_turn (h : 1 ≤ rules.tabWidth) (hs : s.Stacked) (l : ContentLine) :
    ∃ w e last, rules.width l.indent = .ok w ∧ 0 ≤ w ∧ Turn s w l.place.opening e ∧
      (s.line rules l).tokens = mixedFaults rules l ++ e.tokens ++ last ∧
      (s.line rules l).state.widths = e.state.widths ∧ List.Sublist last [l.token] := by
  obtain ⟨w, e, hw, h0, ht, he⟩ := hs.line_eq h l
  cases hb : e.breakdown with
  | some b =>
    rw [Emission.andThen_of_some (e := e.after _) hb] at he
    refine ⟨w, e, [], hw, h0, ht, ?_, by rw [he, Emission.after_state], List.nil_sublist _⟩
    rw [he, List.append_nil, Emission.after_tokens]
  | none =>
    rw [Emission.andThen_of_none (e := e.after _) hb] at he
    refine ⟨w, e, [l.token], hw, h0, ht, ?_, by rw [he]; rfl, List.Sublist.refl _⟩
    rw [he]
    rfl

theorem Stacked.ruled_line (h : 1 ≤ rules.tabWidth) (hs : s.Stacked)
    (hin : s.widths = inner :: rest) (l : ContentLine) :
    ∃ w, rules.width l.indent = .ok w ∧ 0 ≤ w ∧ s.Ruled inner w (s.line rules l) := by
  obtain ⟨w, e, last, hw, h0, ht, htokens, hwidths, hlast⟩ := hs.exists_turn h l
  have hmixed : ∀ t ∈ mixedFaults rules l, t.mark = .fault .mixed := fun t ht =>
    mark_of_mem_mixedFaults ht
  have htext : ∀ t ∈ last, t.mark = .text l.content := fun t ht => by
    rw [List.mem_singleton.mp (hlast.subset ht)]
    rfl
  have hcount : ∀ tag, tag ≠ .error → tag ≠ .text →
      countTag tag (s.line rules l).tokens = countTag tag e.tokens := by
    intro tag herror hne
    have hfront : countTag tag (mixedFaults rules l) = 0 :=
      countTag_eq_zero fun t ht => by rw [LayoutToken.tag, hmixed t ht]; exact herror.symm
    have hback : countTag tag last = 0 :=
      countTag_eq_zero fun t ht => by rw [LayoutToken.tag, htext t ht]; exact hne.symm
    rw [htokens, countTag_append, countTag_append, hfront, hback, Nat.zero_add, Nat.add_zero]
  have hstray : TellsStray (s.line rules l).tokens ↔ TellsStray e.tokens := by
    have hfront : ¬TellsStray (mixedFaults rules l) :=
      not_tellsStray fun t ht outer w => by simp [hmixed t ht]
    have hback : ¬TellsStray last := not_tellsStray fun t ht outer w => by simp [htext t ht]
    rw [htokens, tellsStray_append, tellsStray_append, or_iff_left hback, or_iff_right hfront]
  have hturn := ht.ruled hs hin
  refine ⟨w, hw, h0, ?_, ?_, ?_, ?_, fun v => ?_⟩
  · rw [hcount .indent (by decide) (by decide), hturn.indents]
  · rw [hcount .newline (by decide) (by decide), hturn.newlines]
  · rw [hcount .dedent (by decide) (by decide), hturn.dedents]
  · rw [hstray, hturn.flagged]
  · rw [hwidths, hturn.kept v]

/-- A line that was read strays if and only if it closes a block and lies at the width of no open
one. -/
theorem Stacked.tellsStray_of_none (h : 1 ≤ rules.tabWidth) (hs : s.Stacked)
    (hin : s.widths = inner :: rest) {l : ContentLine} (hb : (s.line rules l).breakdown = none)
    (hw : rules.width l.indent = .ok w) :
    TellsStray (s.line rules l).tokens ↔ w < inner ∧ w ∉ s.widths := by
  obtain ⟨w', hw', -, hruled⟩ := hs.ruled_line h hin l
  obtain rfl : w = w' := Except.ok.inj (hw.symm.trans hw')
  rw [hruled.flagged]
  refine ⟨fun ⟨hlt, hmem, _⟩ => ⟨hlt, hmem⟩, fun ⟨hlt, hmem⟩ => ⟨hlt, hmem, ?_⟩⟩
  refine Decidable.byContradiction fun hlong => ?_
  have hu : s.Untellable w := ⟨⟨inner, by rw [hin]; exact List.mem_cons_self, hlt⟩, hmem, hlong⟩
  have := (hs.breakdown_line h l .longWidth).mpr ⟨rfl, w, hw, hu⟩
  rw [hb] at this
  exact nomatch this

/-- Among the lines is one of the width `v` that did not stray and that no later line undercuts. -/
def Survives (rules : LayoutRules) (ls : List ContentLine) (v : Int) : Prop :=
  ∃ before l after, ls = before ++ l :: after ∧ rules.width l.indent = .ok v ∧
    ¬TellsStray ((initial.lines rules before).state.line rules l).tokens ∧
    ∀ m ∈ after, ∀ w, rules.width m.indent = .ok w → v ≤ w

theorem survives_concat {ls : List ContentLine} {l : ContentLine}
    (hw : rules.width l.indent = .ok w) : Survives rules (ls ++ [l]) v ↔
      Survives rules ls v ∧ v ≤ w ∨
        v = w ∧ ¬TellsStray ((initial.lines rules ls).state.line rules l).tokens := by
  constructor
  · rintro ⟨before, m, after, hsplit, hv, hstray, hlow⟩
    obtain rfl | ⟨after, last, rfl⟩ := after.eq_nil_or_concat
    · obtain ⟨rfl, hm⟩ := List.append_inj' hsplit rfl
      cases hm
      exact .inr ⟨Except.ok.inj (hv.symm.trans hw), hstray⟩
    · rw [List.concat_eq_append, ← List.cons_append, ← List.append_assoc] at hsplit
      obtain ⟨rfl, hm⟩ := List.append_inj' hsplit rfl
      cases hm
      refine .inl ⟨⟨before, m, after, rfl, hv, hstray, fun k hk => hlow k (by simp [hk])⟩, ?_⟩
      exact hlow l (by simp) w hw
  · rintro (⟨⟨before, m, after, rfl, hv, hstray, hlow⟩, hle⟩ | ⟨rfl, hstray⟩)
    · refine ⟨before, m, after ++ [l], by simp, hv, hstray, fun k hk x hx => ?_⟩
      obtain hk | hk := List.mem_append.mp hk
      · exact hlow k hk x hx
      · rw [List.mem_singleton.mp hk, hw] at hx
        exact hle.trans_eq (Except.ok.inj hx)
    · exact ⟨ls, l, [], rfl, hw, hstray, nofun⟩

/-- What is open after some lines. -/
theorem mem_widths_lines_iff (h : 1 ≤ rules.tabWidth) {ls : List ContentLine}
    (hb : (initial.lines rules ls).breakdown = none) :
    v ∈ (initial.lines rules ls).state.widths ↔ v = 0 ∨ Survives rules ls v := by
  -- By induction from the end, since what a line does depends on the lines before it.
  induction ls using List.reverseRecOn generalizing v with
  | nil => simp [lines, initial, Survives]
  | append_singleton ls l ih =>
    rw [lines_append] at hb ⊢
    obtain ⟨hread, hlast⟩ := Emission.andThen_breakdown.mp hb
    rw [lines, Emission.andThen_breakdown] at hlast
    have hs := (stacked_initial.keeps_lines h ls).stacked
    obtain ⟨inner, rest, hin⟩ := List.exists_cons_of_ne_nil hs.widths_ne_nil
    obtain ⟨w, hw, h0, hruled⟩ := hs.ruled_line h hin l
    have hstate : ((initial.lines rules ls).andThen (lines rules [l])).state =
        ((initial.lines rules ls).state.line rules l).state := by
      rw [Emission.andThen_of_none hread, lines, Emission.andThen_of_none hlast.1]
      rfl
    rw [hstate, hruled.kept, ih hread, survives_concat hw,
      ← hs.tellsStray_of_none h hin hlast.1 hw]
    by_cases hv : v = 0
    · simp [hv, h0]
    · simp only [hv, false_or]

theorem tokens_line_prefix_scan {text : List Char} {read later : List ContentLine}
    {l : ContentLine} (htext : contentLines text = read ++ l :: later)
    (hb : (initial.lines rules read).breakdown = none) :
    (initial.lines rules read).tokens ++ ((initial.lines rules read).state.line rules l).tokens <+:
      (initial.scan rules text).tokens := by
  have hlater := Emission.prefix_andThen ((initial.lines rules read).state.line rules l)
    (lines rules later)
  refine List.IsPrefix.trans ?_ (Emission.prefix_andThen _ _)
  rw [htext, lines_append, Emission.andThen_of_none hb, Emission.after_tokens, lines]
  exact (List.prefix_append_right_inj _).mpr hlater

/-- The offside rule in closed form. After lines that were read the open blocks are the outermost
one and those of the lines that survive, each once; and these widths say what the next line of the
text comes to. -/
theorem survivors_of_lines (rules : LayoutRules) (h : 1 ≤ rules.tabWidth) {text : List Char}
    {read later : List ContentLine} {ts : List LayoutToken}
    (htext : contentLines text = read ++ later) (hread : initial.lines rules read = ⟨ts, s, none⟩) :
    s.widths.Pairwise (· > ·) ∧ (∀ v, v ∈ s.widths ↔ v = 0 ∨ Survives rules read v) ∧
    (s.started ↔ read ≠ []) ∧
    ∀ l rest, later = l :: rest → ∃ w inner outer, rules.width l.indent = .ok w ∧
      s.widths = inner :: outer ∧ s.Ruled inner w (s.line rules l) ∧
      (∀ b, (s.line rules l).breakdown = some b ↔ b = .longWidth ∧ s.Untellable w) ∧
      ts ++ (s.line rules l).tokens <+: (initial.scan rules text).tokens := by
  have hb : (initial.lines rules read).breakdown = none := by rw [hread]
  obtain rfl : (initial.lines rules read).state = s := by rw [hread]
  obtain rfl : (initial.lines rules read).tokens = ts := by rw [hread]
  have hs := (stacked_initial.keeps_lines h read).stacked
  refine ⟨hs.falling, fun v => mem_widths_lines_iff h hb, ⟨?_, ?_⟩, ?_⟩
  · rintro hstarted rfl
    exact nomatch hstarted
  · exact fun hne => (lines_of_none hne hb).1
  · rintro l rest rfl
    obtain ⟨inner, outer, hin⟩ := List.exists_cons_of_ne_nil hs.widths_ne_nil
    obtain ⟨w, hw, -, hruled⟩ := hs.ruled_line h hin l
    refine ⟨w, inner, outer, hw, hin, hruled, fun b => ?_, tokens_line_prefix_scan htext hb⟩
    rw [hs.breakdown_line h l b]
    refine and_congr_right fun _ => ⟨fun ⟨w', hw', hu⟩ => ?_, fun hu => ⟨w, hw, hu⟩⟩
    obtain rfl : w = w' := Except.ok.inj (hw.symm.trans hw')
    exact hu

/-- The third line strays, so the fourth one opens a block. -/
def strayLines : List Char := "label a:\n    pass\n  pass\n  pass\n".toList

theorem survivors_of_strayLines : ∃ ts s, 1 ≤ ({} : LayoutRules).tabWidth ∧
    initial.lines {} ((contentLines strayLines).take 3) = ⟨ts, s, none⟩ ∧
    (∀ v, v ∈ s.widths ↔ v = 0 ∨ Survives {} ((contentLines strayLines).take 3) v) ∧
    s.widths = [0] := by
  have hread : initial.lines {} ((contentLines strayLines).take 3) =
      ⟨(initial.lines {} ((contentLines strayLines).take 3)).tokens, ⟨[0], true⟩, none⟩ := by
    decide +kernel
  have htext : contentLines strayLines =
      (contentLines strayLines).take 3 ++ (contentLines strayLines).drop 3 :=
    (List.take_append_drop 3 _).symm
  have hsurvivors := survivors_of_lines {} (by decide) htext hread
  exact ⟨_, _, by decide, hread, hsurvivors.2.1, rfl⟩

end Offside

end NovelScript
