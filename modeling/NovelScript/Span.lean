/-!
# Places and spans

A token stands on one line, so its `Place` is a line, a column and two offsets. A `Span` may run
over several lines and keeps both of its ends. `Span.cover` joins two spans into the smallest one
that holds both.
-/

namespace NovelScript

/-- A stretch of one line. Lines and columns count from one, offsets from zero, all in characters;
`stop` is the offset just past the last character. -/
structure Place where
  line : Int
  column : Int
  start : Int
  stop : Int
  deriving DecidableEq, Repr

/-- The column just past the last character. -/
def Place.endColumn (p : Place) : Int := p.column + (p.stop - p.start)

/-- The empty place at the start of `p`. -/
def Place.opening (p : Place) : Place := { p with stop := p.start }

/-- A stretch of the source, which may run over several lines. -/
structure Span where
  start : Int
  stop : Int
  line : Int
  column : Int
  endLine : Int
  endColumn : Int
  deriving DecidableEq, Repr

/-- The span of a place: it starts and ends on the same line. -/
def Place.span (p : Place) : Span :=
  ⟨p.start, p.stop, p.line, p.column, p.line, p.endColumn⟩

namespace Span

/-- The smallest span that holds both. -/
def cover (a b : Span) : Span :=
  let first := if a.start ≤ b.start then a else b
  let last := if a.start ≤ b.start then b else a
  let tail := if first.stop ≤ last.stop then last else first
  ⟨first.start, tail.stop, first.line, first.column, tail.endLine, tail.endColumn⟩

@[simp] theorem cover_self (a : Span) : a.cover a = a := by simp [cover]

/-- A cover starts like the span that starts first and ends like the one that ends last. -/
theorem cover_cases (a b : Span) : ∃ f l : Span, (f = a ∨ f = b) ∧ (l = a ∨ l = b) ∧
    f.start = min a.start b.start ∧ l.stop = max a.stop b.stop ∧
    a.cover b = ⟨f.start, l.stop, f.line, f.column, l.endLine, l.endColumn⟩ := by
  by_cases hstart : a.start ≤ b.start
  · by_cases hstop : a.stop ≤ b.stop
    · exact ⟨a, b, .inl rfl, .inr rfl, by omega, by omega, by simp [cover, hstart, hstop]⟩
    · exact ⟨a, a, .inl rfl, .inl rfl, by omega, by omega, by simp [cover, hstart, hstop]⟩
  · by_cases hstop : b.stop ≤ a.stop
    · exact ⟨b, a, .inr rfl, .inl rfl, by omega, by omega, by simp [cover, hstart, hstop]⟩
    · exact ⟨b, b, .inr rfl, .inr rfl, by omega, by omega, by simp [cover, hstart, hstop]⟩

theorem start_cover_eq_min (a b : Span) : (a.cover b).start = min a.start b.start := by
  obtain ⟨f, l, -, -, hstart, -, he⟩ := cover_cases a b
  rw [he]
  exact hstart

theorem stop_cover_eq_max (a b : Span) : (a.cover b).stop = max a.stop b.stop := by
  obtain ⟨f, l, -, -, -, hstop, he⟩ := cover_cases a b
  rw [he]
  exact hstop

theorem start_cover {a b : Span} (h : a.start ≤ b.start) : (a.cover b).start = a.start := by
  rw [start_cover_eq_min, Int.min_eq_left h]

theorem le_start_cover {k : Int} {a b : Span} (ha : k ≤ a.start) (hb : k ≤ b.start) :
    k ≤ (a.cover b).start := by
  rw [start_cover_eq_min]
  exact Int.le_min.mpr ⟨ha, hb⟩

/-- The two ends of the span as `line:column-line:column`. -/
def text (s : Span) : String :=
  s!"{s.line}:{s.column}-{s.endLine}:{s.endColumn}"

end Span

end NovelScript
