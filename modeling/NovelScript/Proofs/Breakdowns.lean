import NovelScript.Proofs.Continued

/-!
# When the layout breaks down

With a tab width of at least one the offside rule breaks down in one case only: a line closes a
block without returning to the width of an open one, and its own width has too many digits to be
told. Everything else that could go wrong with the open blocks does not happen.
-/

namespace NovelScript

/-- The line closes a block, lies at the width of no open one, and is too wide to be told. -/
structure Offside.Untellable (s : Offside) (w : Int) : Prop where
  closes : ∃ x ∈ s.widths, w < x
  stray : w ∉ s.widths
  long : ¬Numeral.isShort w

/-- Some line of the text is untellable where the lines before it have led. -/
def LongDedent (rules : LayoutRules) (text : List Char) : Prop :=
  ∃ before l after w, contentLines text = before ++ l :: after ∧
    (Offside.initial.lines rules before).breakdown = none ∧ rules.width l.indent = .ok w ∧
    (Offside.initial.lines rules before).state.Untellable w

theorem Numeral.isShort_of_le {a b : Int} (ha : 0 ≤ a) (hab : a ≤ b) (hb : isShort b) :
    isShort a := by
  simp only [isShort, decide_eq_true_eq] at hb ⊢
  omega

/-- What cannot break down adds no breakdown. -/
theorem Emission.andThen_breakdown_eq {e : Emission} {next : Offside → Emission}
    (h : ∀ s, (next s).breakdown = none) : (e.andThen next).breakdown = e.breakdown := by
  cases he : e.breakdown with
  | none => rw [andThen_of_none he]; exact h _
  | some b => rw [andThen_of_some he, he]

namespace Offside

variable {rules : LayoutRules} {s : Offside} {v w outer : Int} {closed rest : List Int}

/-- In a stack the blocks around an open one are not as deep. -/
theorem Stacked.lt_of_append (hs : s.Stacked) (h : s.widths = closed ++ outer :: rest) :
    ∀ x ∈ rest, x < outer := by
  have hp := hs.falling
  rw [h] at hp
  exact fun x hx => (List.pairwise_cons.mp (List.pairwise_append.mp hp).2.1).1 x hx

theorem Stacked.le_of_mem (hs : s.Stacked) (h : s.widths = closed ++ outer :: rest)
    (ho : outer ≤ w) : ∀ x ∈ outer :: rest, x ≤ w := fun x hx => by
  obtain rfl | hx := List.mem_cons.mp hx
  · exact ho
  · exact Int.le_of_lt (Int.lt_of_lt_of_le (hs.lt_of_append h x hx) ho)

/-- The blocks that a line of width `w` leaves open. -/
theorem Stacked.mem_kept_iff (hs : s.Stacked) (h : s.widths = closed ++ outer :: rest)
    (hw : ∀ x ∈ closed, w < x) (ho : outer ≤ w) :
    v ∈ outer :: rest ↔ v ∈ s.widths ∧ v ≤ w := by
  refine ⟨fun hv => ⟨by rw [h]; exact List.mem_append_right _ hv, hs.le_of_mem h ho v hv⟩, ?_⟩
  rintro ⟨hv, hle⟩
  rw [h] at hv
  obtain hv | hv := List.mem_append.mp hv
  · have := hw v hv
    omega
  · exact hv

theorem Stacked.not_mem_of_between (hs : s.Stacked) (h : s.widths = closed ++ outer :: rest)
    (hw : ∀ x ∈ closed, w < x) (ho : outer < w) : w ∉ s.widths := fun hmem => by
  have hkept := (hs.mem_kept_iff h hw (Int.le_of_lt ho)).mpr ⟨hmem, Int.le_refl w⟩
  have hle := hs.le_of_mem h (Int.le_refl outer) w hkept
  omega

theorem Stacked.breakdown_indentTo (hs : s.Stacked) (hw : 0 ≤ w) (place : Place) (b : Breakdown) :
    (s.indentTo w place).breakdown = some b ↔ b = .longWidth ∧ s.Untellable w := by
  have ht := hs.turn hw place
  generalize s.indentTo w place = e at ht
  -- Where the step succeeds, one of the three conditions fails.
  cases ht with
  | @deeper inner rest h hin =>
    refine ⟨nofun, fun ⟨_, hu⟩ => ?_⟩
    obtain ⟨x, hx, hlt⟩ := hu.closes
    have h' : s.widths = [] ++ inner :: rest := h
    have hle := hs.le_of_mem h' (Int.le_of_lt hin) x (h ▸ hx)
    omega
  | level h => exact ⟨nofun, fun ⟨_, hu⟩ => absurd (h ▸ List.mem_cons_self) hu.stray⟩
  | shallower hc h hlt => exact ⟨nofun, fun ⟨_, hu⟩ => absurd (by simp [h]) hu.stray⟩
  | stray hc h hlt ho hd =>
    refine ⟨nofun, fun ⟨_, hu⟩ => absurd ?_ hu.long⟩
    exact (Bool.and_eq_true_iff.mp hd).2
  | @untold closed rest outer hc h hlt ho hd =>
    have hu : s.Untellable w := by
      obtain ⟨x, xs, hxs⟩ := List.exists_cons_of_ne_nil hc
      refine ⟨⟨x, by simp [h, hxs], hlt x (by simp [hxs])⟩, hs.not_mem_of_between h hlt ho,
        fun hshort => hd ?_⟩
      have hout : 0 ≤ outer := hs.nonneg (by simp [h])
      exact Bool.and_eq_true_iff.mpr
        ⟨Numeral.isShort_of_le hout (Int.le_of_lt ho) hshort, hshort⟩
    refine ⟨fun hb => ⟨(Option.some.inj hb).symm, hu⟩, ?_⟩
    rintro ⟨rfl, -⟩
    rfl

theorem Stacked.breakdown_line (h : 1 ≤ rules.tabWidth) (hs : s.Stacked) (l : ContentLine)
    (b : Breakdown) : (s.line rules l).breakdown = some b ↔
      b = .longWidth ∧ ∃ w, rules.width l.indent = .ok w ∧ s.Untellable w := by
  obtain ⟨w, hw, h0⟩ := rules.exists_width h l.indent
  have hb := hs.breakdown_indentTo h0 l.place.opening b
  have hline : (s.line rules l).breakdown = (s.indentTo w l.place.opening).breakdown := by
    rw [line_of_width hw]
    exact Emission.andThen_breakdown_eq (fun _ => rfl)
  rw [hline, hb]
  constructor
  · rintro ⟨rfl, hu⟩
    exact ⟨rfl, w, hw, hu⟩
  · rintro ⟨rfl, w', hw', hu⟩
    rw [hw] at hw'
    cases hw'
    exact ⟨rfl, hu⟩

/-- Lines break down at the first untellable one. -/
theorem Stacked.breakdown_lines (h : 1 ≤ rules.tabWidth) (hs : s.Stacked) (ls : List ContentLine)
    (b : Breakdown) : (s.lines rules ls).breakdown = some b ↔
      b = .longWidth ∧ ∃ before l after w, ls = before ++ l :: after ∧
        (s.lines rules before).breakdown = none ∧ rules.width l.indent = .ok w ∧
        (s.lines rules before).state.Untellable w := by
  induction ls generalizing s with
  | nil => simp [lines]
  | cons l ls ih =>
    have hl := hs.breakdown_line h l
    rw [lines]
    -- The first line breaks down itself, or the blocks it leaves open decide about the lines after it.
    cases hb : (s.line rules l).breakdown with
    | some b' =>
      obtain ⟨rfl, w, hw, hu⟩ := (hl b').mp hb
      rw [Emission.andThen_of_some hb, hb]
      constructor
      · intro he
        exact ⟨(Option.some.inj he).symm, [], l, ls, w, rfl, rfl, hw, hu⟩
      · rintro ⟨rfl, -⟩
        rfl
    | none =>
      have hnot : ∀ w, rules.width l.indent = .ok w → ¬s.Untellable w := by
        intro w hw hu
        have := (hl .longWidth).mpr ⟨rfl, w, hw, hu⟩
        rw [hb] at this
        cases this
      rw [Emission.andThen_of_none hb, Emission.after_breakdown, ih (hs.keeps_line h l).stacked]
      refine and_congr_right fun _ => ⟨?_, ?_⟩
      · rintro ⟨before, m, after, w, rfl, hn, hw, hu⟩
        refine ⟨l :: before, m, after, w, rfl, ?_, hw, ?_⟩
        · rw [lines, Emission.andThen_of_none hb]
          exact hn
        · rw [lines, Emission.andThen_of_none hb]
          exact hu
      · rintro ⟨before, m, after, w, he, hn, hw, hu⟩
        cases before with
        | nil =>
          obtain ⟨rfl, rfl⟩ := List.cons.inj he
          exact absurd hu (hnot w hw)
        | cons l' before =>
          obtain ⟨rfl, rfl⟩ := List.cons.inj he
          rw [lines, Emission.andThen_of_none hb] at hn hu
          exact ⟨before, m, after, w, rfl, hn, hw, hu⟩

end Offside

/-- The layout of a text breaks down only because of a line that is too wide to be told. -/
theorem layout_eq_error_iff {rules : LayoutRules} (h : 1 ≤ rules.tabWidth) (text : List Char)
    (b : Breakdown) : layout rules text = .error b ↔ b = .longWidth ∧ LongDedent rules text := by
  rw [layout_eq_error]
  exact Offside.stacked_initial.breakdown_lines h _ b

end NovelScript
