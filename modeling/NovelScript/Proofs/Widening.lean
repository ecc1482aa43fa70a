import Mathlib.Order.WellFounded
import NovelScript.Proofs.Breakdowns
import NovelScript.Proofs.Joined
import NovelScript.Proofs.Parallel

/-!
# The offside rule at other widths

The offside rule only compares the widths of lines. When the lines of a second text are as wide as
those of a first one under a map that keeps the order of widths, the rule opens, separates and
closes blocks at the same lines of both. The second stack of blocks is then the image of the first
one, and further blocks may lie below it that no line ever closes.
-/

namespace NovelScript

/-- The map keeps the order of widths, and no width shrinks. -/
structure Widens (f : Int → Int) : Prop where
  lt : ∀ {v w : Int}, 0 ≤ v → v < w → f v < f w
  le : ∀ {w : Int}, 0 ≤ w → w ≤ f w

namespace Widens

theorem id : Widens id := ⟨fun _ h => h, fun _ => Int.le_refl _⟩

theorem add {k : Int} (hk : 0 ≤ k) : Widens (· + k) :=
  ⟨fun _ h => Int.add_lt_add_right h k, fun _ => by omega⟩

theorem ofNat {f : Nat → Nat} (hf : StrictMono f) : Widens fun w => (f w.toNat : Int) := by
  refine ⟨fun hv hw => ?_, fun {w} hw => ?_⟩
  · have := @hf _ _ ((Int.toNat_lt_toNat (by omega)).mpr hw)
    omega
  · have := hf.le_apply (x := w.toNat)
    omega

end Widens

namespace Offside

variable {s s' : Offside} {w outer : Int} {place : Place} {e : Emission} {closed rest : List Int}

/-- A line that closes blocks leaves those that are not deeper than itself. -/
theorem indentTo_of_closed (hc : closed ≠ []) (h : s.widths = closed ++ outer :: rest)
    (hw : ∀ x ∈ closed, w < x) (ho : outer ≤ w) (place : Place) :
    s.indentTo w place =
      (let dedents := closed.map fun _ => LayoutToken.mk .dedent place
      let left := { s with widths := outer :: rest }
      if outer = w then ⟨dedents, left, none⟩
      else if Numeral.isShort outer && Numeral.isShort w then
        ⟨dedents ++ [⟨.fault (.inconsistent outer w), place⟩], left, none⟩
      else ⟨dedents, left, some .longWidth⟩) := by
  have htake : s.widths.takeWhile (w < ·) = closed := by
    rw [h, List.takeWhile_append_of_pos (by simpa using hw), List.takeWhile_cons_of_neg (by simpa),
      List.append_nil]
  have hdrop : s.widths.dropWhile (w < ·) = outer :: rest := by
    rw [h, List.dropWhile_append_of_pos (by simpa using hw), List.dropWhile_cons_of_neg (by simpa)]
  obtain ⟨inner, closed, rfl⟩ := List.exists_cons_of_ne_nil hc
  have hin := hw inner List.mem_cons_self
  unfold indentTo
  simp only [htake, hdrop]
  rw [h]
  simp only [List.cons_append, if_neg (show ¬inner < w by omega), if_neg (show ¬inner = w by omega)]

theorem Turn.eq (ht : Turn s w place e) : s.indentTo w place = e := by
  cases ht with
  | deeper h hw => simp only [indentTo, h, if_pos hw]
  | level h => simp [indentTo, h]
  | shallower hc h hw => simp [indentTo_of_closed hc h hw (Int.le_refl _)]
  | stray hc h hw ho hd =>
    rw [indentTo_of_closed hc h hw ho.le]
    simp only [if_neg ho.ne, if_pos hd]
  | untold hc h hw ho hd =>
    rw [indentTo_of_closed hc h hw ho.le]
    simp only [if_neg ho.ne, if_neg hd]

/-- The widths of the open blocks of the second state are those of the first one under `f`, above
the widths `base`. -/
structure Under (f : Int → Int) (base : List Int) (s s' : Offside) : Prop where
  stacked : s.Stacked
  widths : s'.widths = s.widths.map f ++ base
  started : s'.started = s.started

end Offside

/-- Two emissions that come to the same, unless the second one breaks down where the first one has a
fault, at a line of a width that `W` holds of and that is too long only under `f`. -/
inductive Emission.Meets (κ : Likeness) (f : Int → Int) (base : List Int) (W : Int → Prop)
    (e e' : Emission) : Prop
  | on (tokens : List.Forall₂ κ.Tokens e.tokens e'.tokens)
    (state : e.state.Under f base e'.state) (breakdown : e'.breakdown = e.breakdown)
  | lost {w : Int} (breakdown : e'.breakdown = some .longWidth)
    (fault : ∃ t ∈ e.tokens, t.tag = .error) (hw : W w) (hs : Numeral.isShort w)
    (hl : ¬Numeral.isShort (f w))

/-- Two content lines that correspond: the second one is as wide as the first one under `f`. -/
structure Likeness.Lines (κ : Likeness) (rules : LayoutRules) (f : Int → Int) (l l' : ContentLine) :
    Prop where
  width : ∃ w, 0 ≤ w ∧ rules.width l.indent = .ok w ∧ rules.width l'.indent = .ok (f w)
  mixed : List.Forall₂ κ.Tokens (Offside.mixedFaults rules l) (Offside.mixedFaults rules l')
  opening : κ.place l.place.opening l'.place.opening
  token : κ.Tokens l.token l'.token

section

variable {κ : Likeness} {f : Int → Int} {base : List Int} {W V : Int → Prop} {e e' : Emission}

open Emission (Meets)

theorem Emission.Meets.mono (h : Meets κ f base W e e') (hWV : ∀ w, W w → V w) :
    Meets κ f base V e e' := by
  cases h with
  | on ht hs hb => exact .on ht hs hb
  | lost hb ht hw hs hl => exact .lost hb ht (hWV _ hw) hs hl

theorem Emission.Meets.after {ts ts' : List LayoutToken} (h : Meets κ f base W e e')
    (hts : List.Forall₂ κ.Tokens ts ts') : Meets κ f base W (e.after ts) (e'.after ts') := by
  cases h with
  | on ht hs hb => exact .on (List.rel_append hts ht) hs hb
  | lost hb ht hw hs hl =>
    obtain ⟨t, ht, htag⟩ := ht
    exact .lost hb ⟨t, List.mem_append_right _ ht, htag⟩ hw hs hl

theorem Emission.mem_andThen {next : Offside → Emission} {t : LayoutToken} (h : t ∈ e.tokens) :
    t ∈ (e.andThen next).tokens := by
  cases hb : e.breakdown with
  | some b => rwa [andThen_of_some hb]
  | none =>
    rw [andThen_of_none hb]
    exact List.mem_append_left _ h

theorem Emission.Meets.andThen {next next' : Offside → Emission} (h : Meets κ f base W e e')
    (hn : ∀ s s', s.Under f base s' → Meets κ f base W (next s) (next' s')) :
    Meets κ f base W (e.andThen next) (e'.andThen next') := by
  cases h with
  | lost hb ht hw hs hl =>
    rw [andThen_of_some hb]
    obtain ⟨t, ht, htag⟩ := ht
    exact .lost hb ⟨t, mem_andThen ht, htag⟩ hw hs hl
  | on ht hs hb =>
    cases he : e.breakdown with
    | some b =>
      rw [andThen_of_some he, andThen_of_some (hb.trans he)]
      exact .on ht hs hb
    | none =>
      rw [andThen_of_none he, andThen_of_none (hb.trans he)]
      exact (hn _ _ hs).after ht

namespace Offside

variable {rules : LayoutRules} {s s' : Offside} {w : Int} {p p' : Place}

theorem forall₂_dedents {xs : List Int} (g : Int → Int) (hp : κ.place p p') :
    List.Forall₂ κ.Tokens (xs.map fun _ => ⟨.dedent, p⟩)
      ((xs.map g).map fun _ => ⟨.dedent, p'⟩) := by
  induction xs with
  | nil => exact .nil
  | cons x xs ih => exact .cons (.same (by decide) hp) ih

/-- A line and the same line at the width under `f` turn the open blocks alike. -/
theorem Under.indentTo (hf : Widens f)
    (hκ : ∀ v w, κ.cause (.inconsistent v w) (.inconsistent (f v) (f w)))
    (h : s.Under f base s') (hw : 0 ≤ w) (hp : κ.place p p') :
    Meets κ f base (· = w) (s.indentTo w p) (s'.indentTo (f w) p') := by
  have ht := h.stacked.turn hw p
  have hstacked := ht.stacked h.stacked
  -- Where blocks are closed, the images of those blocks are closed.
  have hsplit : ∀ {closed rest : List Int} {outer : Int}, s.widths = closed ++ outer :: rest →
      s'.widths = closed.map f ++ f outer :: (rest.map f ++ base) := by
    intro closed rest outer hwidths
    rw [h.widths, hwidths, List.map_append, List.map_cons, List.append_assoc, List.cons_append]
  have hclosed : ∀ {closed : List Int}, (∀ x ∈ closed, w < x) → ∀ y ∈ closed.map f, f w < y := by
    intro closed hlt y hy
    obtain ⟨x, hx, rfl⟩ := List.mem_map.mp hy
    exact hf.lt hw (hlt x hx)
  have houter : ∀ {closed rest : List Int} {outer : Int}, s.widths = closed ++ outer :: rest →
      0 ≤ outer := fun hwidths => h.stacked.nonneg (by simp [hwidths])
  generalize s.indentTo w p = e at ht hstacked
  cases ht with
  | @deeper inner rest hwidths hin =>
    have hlt := hf.lt (@houter [] rest inner hwidths) hin
    rw [(Turn.deeper (@hsplit [] rest inner hwidths) hlt).eq]
    exact .on (.cons (.same (by decide) hp) .nil)
      ⟨hstacked, by simp [h.widths], h.started⟩ rfl
  | @level rest hwidths =>
    rw [(Turn.level (@hsplit [] rest w hwidths)).eq, h.started]
    refine .on ?_ h rfl
    cases s.started with
    | true => exact .cons (.same (by decide) hp) .nil
    | false => exact .nil
  | @shallower closed rest hc hwidths hlt =>
    rw [(Turn.shallower (by simpa using hc) (hsplit hwidths) (hclosed hlt)).eq]
    exact .on (forall₂_dedents f hp) ⟨hstacked, rfl, h.started⟩ rfl
  | @stray closed rest outer hc hwidths hlt ho hd =>
    have ho' := hf.lt (houter hwidths) ho
    have hshort := (Bool.and_eq_true _ _).mp hd
    -- The fault tells both widths, which may be too long only under `f`.
    by_cases hd' : Numeral.isShort (f w)
    · have hpos := hf.le (houter hwidths)
      have hpos' := houter hwidths
      have hboth : Numeral.isShort (f outer) && Numeral.isShort (f w) :=
        (Bool.and_eq_true _ _).mpr ⟨Numeral.isShort_of_le (by omega) ho'.le hd', hd'⟩
      rw [(Turn.stray (by simpa using hc) (hsplit hwidths) (hclosed hlt) ho' hboth).eq]
      exact .on (forall₂_concat (forall₂_dedents f hp) (.fault (hκ _ _) hp))
        ⟨hstacked, rfl, h.started⟩ rfl
    · have hneither : ¬(Numeral.isShort (f outer) && Numeral.isShort (f w)) :=
        fun hboth => hd' ((Bool.and_eq_true _ _).mp hboth).2
      rw [(Turn.untold (by simpa using hc) (hsplit hwidths) (hclosed hlt) ho' hneither).eq]
      exact .lost rfl ⟨_, List.mem_concat_self, rfl⟩ rfl hshort.2 hd'
  | @untold closed rest outer hc hwidths hlt ho hd =>
    have ho' := hf.lt (houter hwidths) ho
    have hneither : ¬(Numeral.isShort (f outer) && Numeral.isShort (f w)) := by
      intro hboth
      have hw' := Numeral.isShort_of_le hw (hf.le hw) ((Bool.and_eq_true _ _).mp hboth).2
      exact hd ((Bool.and_eq_true _ _).mpr
        ⟨Numeral.isShort_of_le (houter hwidths) ho.le hw', hw'⟩)
    rw [(Turn.untold (by simpa using hc) (hsplit hwidths) (hclosed hlt) ho' hneither).eq]
    exact .on (forall₂_dedents f hp) ⟨hstacked, rfl, h.started⟩ rfl

theorem Under.line (hf : Widens f)
    (hκ : ∀ v w, κ.cause (.inconsistent v w) (.inconsistent (f v) (f w)))
    (h : s.Under f base s') {l l' : ContentLine} (hl : κ.Lines rules f l l') :
    Meets κ f base (fun w => rules.width l.indent = .ok w) (s.line rules l) (s'.line rules l') := by
  obtain ⟨w, hw, hwidth, hwidth'⟩ := hl.width
  rw [line_of_width hwidth, line_of_width hwidth']
  have hturn := (h.indentTo hf hκ hw hl.opening).mono (V := fun w => rules.width l.indent = .ok w)
    (by rintro _ rfl; exact hwidth)
  refine (hturn.after hl.mixed).andThen fun t t' ht => ?_
  exact .on (.cons hl.token .nil) ⟨⟨ht.stacked.falling, ht.stacked.base⟩, ht.widths, rfl⟩ rfl

/-- Lines that correspond take states that correspond on alike. -/
theorem Under.lines (hf : Widens f)
    (hκ : ∀ v w, κ.cause (.inconsistent v w) (.inconsistent (f v) (f w)))
    {ls ls' : List ContentLine} (hls : List.Forall₂ (κ.Lines rules f) ls ls')
    (h : s.Under f base s') :
    Meets κ f base (fun w => ∃ l ∈ ls, rules.width l.indent = .ok w) (s.lines rules ls)
      (s'.lines rules ls') := by
  induction hls generalizing s s' with
  | nil => exact .on .nil h rfl
  | @cons l l' ls ls' hl _ ih =>
    have hfirst := (h.line hf hκ hl).mono fun w hw =>
      (⟨l, List.mem_cons_self, hw⟩ : ∃ m ∈ l :: ls, rules.width m.indent = .ok w)
    refine hfirst.andThen fun t t' ht => ?_
    exact (ih ht).mono fun w ⟨m, hm, hw⟩ => ⟨m, List.mem_cons_of_mem _ hm, hw⟩

theorem Under.closing (h : s.Under f [] s') (hp : κ.place p p') :
    List.Forall₂ κ.Tokens (s.closing p) (s'.closing p') := by
  have hdedent : κ.Tokens ⟨.dedent, p⟩ ⟨.dedent, p'⟩ := .same (by decide) hp
  unfold Offside.closing
  rw [h.widths, h.started, List.append_nil, List.length_map]
  split
  · generalize s.widths.length - 1 = n
    induction n with
    | zero => exact .nil
    | succ n ih => exact .cons hdedent ih
  · split
    · exact .cons (.same (by decide) hp) .nil
    · exact .nil

end Offside

end

end NovelScript
