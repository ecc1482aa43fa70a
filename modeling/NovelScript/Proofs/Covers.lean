import Mathlib.Order.Lattice
import NovelScript.Proofs.Faithful

/-!
# Covers are joins

In one text, lines and columns belong to offsets. For spans with such lines and columns `Span.cover` is
the join of a semilattice, whose order is that of containment. So several spans have the same cover in
whatever order they are joined. The spans of a tree are such spans.
-/

namespace NovelScript

open Text

/-- The lines and columns that belong to the offsets of a text, for the first character of something
and for the end of something. -/
structure Ruler where
  opening : Int → Int × Int
  closing : Int → Int × Int

/-- The line and column of an offset: lines are counted by line feeds, columns from the last one. -/
def pointOf (text : List Char) (offset : Int) : Int × Int :=
  let front := text.take offset.toNat
  (front.count '\n' + 1, offset - lastFeed front)

def Ruler.ofText (text : List Char) : Ruler := ⟨pointOf text, pointOf text⟩

attribute [ext] Span

namespace Span

/-- The lines and columns of the span are those of its offsets. -/
structure Fits (r : Ruler) (s : Span) : Prop where
  opening : (s.line, s.column) = r.opening s.start
  closing : (s.endLine, s.endColumn) = r.closing s.stop
  le : s.start ≤ s.stop

/-- The span `b` contains the span `a`. -/
structure Within (a b : Span) : Prop where
  start : b.start ≤ a.start
  stop : a.stop ≤ b.stop

/-- Of the spans that fit the ruler, `c` is the smallest one that contains `a` and `b`. -/
structure Joins (r : Ruler) (a b c : Span) : Prop where
  fits : c.Fits r
  start : c.start = min a.start b.start
  stop : c.stop = max a.stop b.stop
  least : ∀ s : Span, s.Fits r → a.Within s → b.Within s → c.Within s

variable {r : Ruler} {a b s : Span} {as bs : List Span}

theorem Fits.cover (ha : a.Fits r) (hb : b.Fits r) : (a.cover b).Fits r := by
  obtain ⟨f, l, hf, hl, hstart, hstop, he⟩ := cover_cases a b
  have hopening : (f.line, f.column) = r.opening f.start := by
    rcases hf with rfl | rfl
    · exact ha.opening
    · exact hb.opening
  have hclosing : (l.endLine, l.endColumn) = r.closing l.stop := by
    rcases hl with rfl | rfl
    · exact ha.closing
    · exact hb.closing
  have hle : f.start ≤ l.stop := by
    have := ha.le
    omega
  rw [he]
  exact ⟨hopening, hclosing, hle⟩

theorem Within.refl (a : Span) : a.Within a := ⟨Int.le_refl _, Int.le_refl _⟩

theorem within_cover_iff : (a.cover b).Within s ↔ a.Within s ∧ b.Within s := by
  have hstart := start_cover_eq_min a b
  have hstop := stop_cover_eq_max a b
  constructor
  · rintro ⟨h, h'⟩
    exact ⟨⟨by omega, by omega⟩, by omega, by omega⟩
  · rintro ⟨⟨h, h'⟩, k, k'⟩
    exact ⟨by omega, by omega⟩

/-- Spans that contain each other are the same span if they fit one ruler. -/
theorem Fits.eq_of_within (ha : a.Fits r) (hb : b.Fits r) (hab : a.Within b) (hba : b.Within a) :
    a = b := by
  have hstart : a.start = b.start := Int.le_antisymm hba.start hab.start
  have hstop : a.stop = b.stop := Int.le_antisymm hab.stop hba.stop
  have hopening : (a.line, a.column) = (b.line, b.column) := by
    rw [ha.opening, hb.opening, hstart]
  have hclosing : (a.endLine, a.endColumn) = (b.endLine, b.endColumn) := by
    rw [ha.closing, hb.closing, hstop]
  exact Span.ext hstart hstop (congrArg Prod.fst hopening) (congrArg Prod.snd hopening)
    (congrArg Prod.fst hclosing) (congrArg Prod.snd hclosing)

theorem joins_cover (ha : a.Fits r) (hb : b.Fits r) : Joins r a b (a.cover b) where
  fits := ha.cover hb
  start := start_cover_eq_min a b
  stop := stop_cover_eq_max a b
  least _ _ has hbs := within_cover_iff.mpr ⟨has, hbs⟩

/-! The cover of a list of spans. -/

theorem fits_foldl (h : ∀ t ∈ a :: as, t.Fits r) : (as.foldl cover a).Fits r := by
  induction as generalizing a with
  | nil => exact h a List.mem_cons_self
  | cons t as ih =>
    obtain ⟨ha, hrest⟩ := List.forall_mem_cons.mp h
    obtain ⟨ht, has⟩ := List.forall_mem_cons.mp hrest
    exact ih (List.forall_mem_cons.mpr ⟨ha.cover ht, has⟩)

theorem within_foldl_iff : (as.foldl cover a).Within s ↔ ∀ t ∈ a :: as, t.Within s := by
  induction as generalizing a with
  | nil => simp
  | cons t as ih =>
    rw [List.foldl_cons, ih]
    simp only [List.forall_mem_cons, within_cover_iff, and_assoc]

/-- The cover of some spans lies within the cover of more spans. -/
theorem foldl_within_foldl (h : ∀ t ∈ a :: as, t ∈ b :: bs) :
    (as.foldl cover a).Within (bs.foldl cover b) := by
  have hall := within_foldl_iff.mp (Within.refl (bs.foldl cover b))
  exact within_foldl_iff.mpr fun t ht => hall t (h t ht)

/-- The cover of a list depends on its members alone. -/
theorem foldl_cover_congr (has : ∀ t ∈ a :: as, t.Fits r) (hmem : ∀ t, t ∈ a :: as ↔ t ∈ b :: bs) :
    as.foldl cover a = bs.foldl cover b := by
  have hbs : ∀ t ∈ b :: bs, t.Fits r := fun t ht => has t ((hmem t).mpr ht)
  apply (fits_foldl has).eq_of_within (fits_foldl hbs)
  · exact foldl_within_foldl fun t => (hmem t).mp
  · exact foldl_within_foldl fun t => (hmem t).mpr

end Span

/-- The spans that fit a ruler. -/
@[ext] structure Ruler.Extent (r : Ruler) where
  span : Span
  fits : span.Fits r

namespace Ruler.Extent

variable {r : Ruler}

instance : PartialOrder r.Extent where
  le a b := a.span.Within b.span
  le_refl a := Span.Within.refl a.span
  le_trans _ _ _ hab hbc := ⟨Int.le_trans hbc.start hab.start, Int.le_trans hab.stop hbc.stop⟩
  le_antisymm a b hab hba := Extent.ext (a.fits.eq_of_within b.fits hab hba)

instance : SemilatticeSup r.Extent where
  sup a b := ⟨a.span.cover b.span, a.fits.cover b.fits⟩
  le_sup_left _ _ := (Span.within_cover_iff.mp (Span.Within.refl _)).1
  le_sup_right _ _ := (Span.within_cover_iff.mp (Span.Within.refl _)).2
  sup_le _ _ _ hac hbc := Span.within_cover_iff.mpr ⟨hac, hbc⟩

end Ruler.Extent

/-- The spans of a tree fit the ruler of its text. -/
theorem Script.fits_of_parse {rules : LayoutRules} {text : List Char} {file : Option Path}
    {f : SourceFile} (h : Script.parse rules text file = .ok f) :
    ∀ n ∈ f.nodes, n.span.Fits (.ofText text) := by
  obtain ⟨lines, -, -, hover, horder, hlies⟩ := Script.exists_lines_of_parse h
  intro n hn
  obtain ⟨hnested, hfaithful⟩ := hover.all_nested horder hlies n hn
  exact ⟨Prod.ext hfaithful.start.line hfaithful.start.column,
    Prod.ext hfaithful.stop.line hfaithful.stop.column, Int.le_of_lt hnested.filled⟩

namespace Span

variable {r : Ruler} {a b c : Span}

theorem Fits.cover_comm (ha : a.Fits r) (hb : b.Fits r) : a.cover b = b.cover a :=
  congrArg Ruler.Extent.span (sup_comm (⟨a, ha⟩ : r.Extent) ⟨b, hb⟩)

theorem Fits.cover_assoc (ha : a.Fits r) (hb : b.Fits r) (hc : c.Fits r) :
    (a.cover b).cover c = a.cover (b.cover c) :=
  congrArg Ruler.Extent.span (sup_assoc (⟨a, ha⟩ : r.Extent) ⟨b, hb⟩ ⟨c, hc⟩)

/-- Where lines and columns belong to offsets, the cover of two spans is their join, and the cover of
several ones does not depend on their order. -/
theorem cover_is_join (r : Ruler) :
    (∀ a b : Span, a.Fits r → b.Fits r → a.cover b = b.cover a ∧ Joins r a b (a.cover b)) ∧
    (∀ a b c : Span, a.Fits r → b.Fits r → c.Fits r →
      (a.cover b).cover c = a.cover (b.cover c)) ∧
    (∀ a : Span, a.cover a = a) ∧
    ∀ (a b : Span) (as bs : List Span), (∀ s ∈ a :: as, s.Fits r) → (a :: as).Perm (b :: bs) →
      as.foldl cover a = bs.foldl cover b := by
  refine ⟨fun a b ha hb => ⟨ha.cover_comm hb, joins_cover ha hb⟩,
    fun a b c ha hb hc => ha.cover_assoc hb hc, cover_self, ?_⟩
  intro a b as bs has hperm
  exact foldl_cover_congr has fun t => hperm.mem_iff

/-- A condition, its block and both together: some of them start or end at the same offset. -/
def branchText : List Char := "if a:\n    b\n".toList

theorem cover_is_join_branchText :
    Joins (.ofText branchText) ⟨0, 5, 1, 1, 1, 6⟩ ⟨10, 11, 2, 5, 2, 6⟩ ⟨0, 11, 1, 1, 2, 6⟩ ∧
      [⟨10, 11, 2, 5, 2, 6⟩, ⟨0, 11, 1, 1, 2, 6⟩].foldl cover ⟨0, 5, 1, 1, 1, 6⟩ =
        [⟨0, 5, 1, 1, 1, 6⟩, ⟨10, 11, 2, 5, 2, 6⟩].foldl cover ⟨0, 11, 1, 1, 2, 6⟩ := by
  have hhead : Fits (.ofText branchText) ⟨0, 5, 1, 1, 1, 6⟩ := ⟨rfl, rfl, by decide⟩
  have hbody : Fits (.ofText branchText) ⟨10, 11, 2, 5, 2, 6⟩ := ⟨rfl, rfl, by decide⟩
  have hwhole : Fits (.ofText branchText) ⟨0, 11, 1, 1, 2, 6⟩ := ⟨rfl, rfl, by decide⟩
  obtain ⟨hjoin, -, -, hfold⟩ := cover_is_join (.ofText branchText)
  exact ⟨(hjoin _ _ hhead hbody).2, hfold _ _ _ _ (by simp [hhead, hbody, hwhole]) (by decide)⟩

end Span

end NovelScript
