import Mathlib.Data.List.TakeWhile
import NovelScript.Layout.Offside

/-!
# The open blocks of the offside rule

With a tab width of at least one no white space has a negative width. The widths of the open blocks
then fall from the innermost block to the outermost one, which has width zero and stays open.
`Offside.Turn` lists what a line can do to such a stack of blocks.
-/

namespace NovelScript

theorem LayoutRules.exists_widthFrom {rules : LayoutRules} (h : 1 ≤ rules.tabWidth)
    (indent : List Char) {w : Int} (hw : 0 ≤ w) :
    ∃ w', rules.widthFrom w indent = .ok w' ∧ 0 ≤ w' := by
  induction indent generalizing w with
  | nil => exact ⟨w, rfl, hw⟩
  | cons c cs ih =>
    unfold widthFrom
    split
    · exact ih (by omega)
    · split
      · rw [if_neg (by omega)]
        have hq : 0 ≤ w.fdiv rules.tabWidth := by
          rw [Int.fdiv_eq_ediv_of_nonneg _ (by omega)]
          exact Int.ediv_nonneg hw (by omega)
        exact ih (Int.mul_nonneg (by omega) (by omega))
      · exact ih hw

theorem LayoutRules.exists_width {rules : LayoutRules} (h : 1 ≤ rules.tabWidth)
    (indent : List Char) : ∃ w, rules.width indent = .ok w ∧ 0 ≤ w :=
  exists_widthFrom h indent (Int.le_refl 0)

namespace Emission

variable {e : Emission} {next next' : Offside → Emission}

@[simp] theorem after_tokens (ts : List LayoutToken) : (e.after ts).tokens = ts ++ e.tokens := rfl

@[simp] theorem after_state (ts : List LayoutToken) : (e.after ts).state = e.state := rfl

@[simp] theorem after_breakdown (ts : List LayoutToken) :
    (e.after ts).breakdown = e.breakdown := rfl

theorem andThen_of_none (h : e.breakdown = none) :
    e.andThen next = (next e.state).after e.tokens := by
  rw [andThen, h]

theorem andThen_of_some {b : Breakdown} (h : e.breakdown = some b) : e.andThen next = e := by
  rw [andThen, h]

theorem andThen_breakdown : (e.andThen next).breakdown = none ↔
    e.breakdown = none ∧ (next e.state).breakdown = none := by
  cases h : e.breakdown with
  | none => simp [andThen_of_none h]
  | some b => simp [andThen_of_some h, h]

theorem andThen_assoc :
    (e.andThen next).andThen next' = e.andThen fun s => (next s).andThen next' := by
  cases h : e.breakdown with
  | some b => rw [andThen_of_some h, andThen_of_some h, andThen_of_some h]
  | none =>
    rw [andThen_of_none h, andThen_of_none h]
    cases h' : (next e.state).breakdown with
    | some b =>
      rw [andThen_of_some (e := (next e.state).after e.tokens) h', andThen_of_some h']
    | none =>
      rw [andThen_of_none (e := (next e.state).after e.tokens) h', andThen_of_none h']
      simp [after]

theorem toExcept_eq_ok {ts : List LayoutToken} :
    e.toExcept = .ok ts ↔ e.breakdown = none ∧ e.tokens = ts := by
  unfold toExcept
  cases e.breakdown <;> simp

end Emission

namespace Offside

variable {rules : LayoutRules} {s : Offside} {w : Int}

/-- The widths fall from the innermost block to the outermost, which has width zero. -/
structure Stacked (s : Offside) : Prop where
  falling : s.widths.Pairwise (· > ·)
  base : s.widths.getLast? = some 0

theorem stacked_initial : initial.Stacked := ⟨by simp [initial], rfl⟩

namespace Stacked

theorem widths_ne_nil (hs : s.Stacked) : s.widths ≠ [] := fun hnil => by
  simpa [hnil] using hs.base

theorem length_pos (hs : s.Stacked) : 0 < s.widths.length :=
  List.length_pos_iff.mpr hs.widths_ne_nil

theorem nonneg (hs : s.Stacked) (hw : w ∈ s.widths) : 0 ≤ w := by
  obtain ⟨front, hf⟩ := List.getLast?_eq_some_iff.mp hs.base
  have hp := hs.falling
  rw [hf] at hw hp
  obtain hw | hw := List.mem_append.mp hw
  · exact Int.le_of_lt ((List.pairwise_append.mp hp).2.2 w hw 0 (by simp))
  · exact Int.le_of_eq (List.mem_singleton.mp hw).symm

/-- Closing inner blocks leaves a stack. -/
theorem of_append {closed rest : List Int} (hs : s.Stacked) (h : s.widths = closed ++ w :: rest)
    (started : Bool) : Stacked ⟨w :: rest, started⟩ where
  falling := by
    have hp := hs.falling
    rw [h] at hp
    exact (List.pairwise_append.mp hp).2.1
  base := by
    have hb := hs.base
    simpa [h] using hb

theorem push {inner : Int} {rest : List Int} (hs : s.Stacked) (h : s.widths = inner :: rest)
    (hw : inner < w) (started : Bool) : Stacked ⟨w :: s.widths, started⟩ where
  falling := by
    refine List.pairwise_cons.mpr ⟨fun x hx => ?_, hs.falling⟩
    have hp := hs.falling
    rw [h] at hx hp
    obtain rfl | hx := List.mem_cons.mp hx
    · exact hw
    · exact Int.lt_trans ((List.pairwise_cons.mp hp).1 x hx) hw
  base := by
    have hb := hs.base
    rw [h] at hb ⊢
    rwa [List.getLast?_cons_cons]

/-- The blocks that a line of width `w` closes, and the next one around them. -/
theorem exists_closed (hs : s.Stacked) (hw : 0 ≤ w) : ∃ outer rest,
    s.widths.dropWhile (w < ·) = outer :: rest ∧ outer ≤ w ∧
      s.widths = s.widths.takeWhile (w < ·) ++ outer :: rest := by
  have hne : s.widths.dropWhile (w < ·) ≠ [] := by
    intro hnil
    have hall := List.dropWhile_eq_nil_iff.mp hnil 0 (List.mem_of_getLast? hs.base)
    simp only [decide_eq_true_eq] at hall
    omega
  obtain ⟨outer, rest, he⟩ := List.exists_cons_of_ne_nil hne
  refine ⟨outer, rest, he, ?_, ?_⟩
  · have hh := List.head?_dropWhile_not (fun x => decide (w < x)) s.widths
    rw [he] at hh
    simpa using hh
  · rw [← he, List.takeWhile_append_dropWhile]

end Stacked

/-- What a line of width `w` can do to the open blocks. -/
inductive Turn (s : Offside) (w : Int) (place : Place) : Emission → Prop
  /-- It opens a block. -/
  | deeper {inner : Int} {rest : List Int} (h : s.widths = inner :: rest) (hw : inner < w) :
    Turn s w place ⟨[⟨.indent, place⟩], { s with widths := w :: s.widths }, none⟩
  /-- It continues the innermost block. -/
  | level {rest : List Int} (h : s.widths = w :: rest) :
    Turn s w place ⟨if s.started then [⟨.newline, place⟩] else [], s, none⟩
  /-- It closes blocks and continues the one around them. -/
  | shallower {closed rest : List Int} (hc : closed ≠ []) (h : s.widths = closed ++ w :: rest)
    (hw : ∀ x ∈ closed, w < x) :
    Turn s w place ⟨closed.map fun _ => ⟨.dedent, place⟩, { s with widths := w :: rest }, none⟩
  /-- It closes blocks and lies deeper than the one around them. -/
  | stray {closed rest : List Int} {outer : Int} (hc : closed ≠ [])
    (h : s.widths = closed ++ outer :: rest) (hw : ∀ x ∈ closed, w < x) (ho : outer < w)
    (hd : Numeral.isShort outer && Numeral.isShort w) :
    Turn s w place ⟨(closed.map fun _ => ⟨.dedent, place⟩) ++
      [⟨.fault (.inconsistent outer w), place⟩], { s with widths := outer :: rest }, none⟩
  /-- The same, but the fault cannot be told. -/
  | untold {closed rest : List Int} {outer : Int} (hc : closed ≠ [])
    (h : s.widths = closed ++ outer :: rest) (hw : ∀ x ∈ closed, w < x) (ho : outer < w)
    (hd : ¬(Numeral.isShort outer && Numeral.isShort w)) :
    Turn s w place ⟨closed.map fun _ => ⟨.dedent, place⟩, { s with widths := outer :: rest },
      some .longWidth⟩

theorem Stacked.turn (hs : s.Stacked) (hw : 0 ≤ w) (place : Place) :
    Turn s w place (s.indentTo w place) := by
  obtain ⟨outer, rest, hd, ho, he⟩ := hs.exists_closed hw
  have hlt : ∀ x ∈ s.widths.takeWhile (w < ·), w < x := fun x hx => by
    simpa using List.mem_takeWhile_imp hx
  unfold indentTo
  split
  · next h => rw [h] at he; simp at he
  · next inner tail h =>
    split
    · next hin => exact .deeper h hin
    · next hin =>
      split
      · next heq => subst heq; exact .level h
      · next hne =>
        have hc : s.widths.takeWhile (w < ·) ≠ [] := by
          have : w < inner := by omega
          simp [h, this]
        simp only [hd]
        split
        · next heq => subst heq; exact .shallower hc he hlt
        · next hne' =>
          split
          · next hs => exact .stray hc he hlt (by omega) hs
          · next hs => exact .untold hc he hlt (by omega) hs

end Offside

/-- By how much a mark changes the number of open blocks. -/
def LayoutMark.rise : LayoutMark → Int
  | indent => 1
  | dedent => -1
  | _ => 0

/-- By how much tokens change the number of open blocks. -/
def riseOf : List LayoutToken → Int
  | [] => 0
  | t :: ts => t.mark.rise + riseOf ts

@[simp] theorem riseOf_nil : riseOf [] = 0 := rfl

@[simp] theorem riseOf_cons (t : LayoutToken) (ts : List LayoutToken) :
    riseOf (t :: ts) = t.mark.rise + riseOf ts := rfl

@[simp] theorem riseOf_append (ts us : List LayoutToken) :
    riseOf (ts ++ us) = riseOf ts + riseOf us := by
  induction ts with
  | nil => simp
  | cons t ts ih =>
    rw [List.cons_append, riseOf_cons, riseOf_cons, ih]
    omega

theorem riseOf_map_dedent {α : Type} (place : Place) (xs : List α) :
    riseOf (xs.map fun _ => ⟨.dedent, place⟩) = -xs.length := by
  induction xs with
  | nil => rfl
  | cons x xs ih =>
    rw [List.map_cons, riseOf_cons, ih, List.length_cons]
    simp only [LayoutMark.rise]
    omega

namespace Offside

variable {rules : LayoutRules} {s : Offside} {w : Int} {place : Place} {e : Emission}

namespace Turn

theorem stacked (ht : Turn s w place e) (hs : s.Stacked) : e.state.Stacked := by
  cases ht with
  | deeper h hw => exact hs.push h hw _
  | level h => exact hs
  | shallower hc h hw => exact hs.of_append h _
  | stray hc h hw ho hd => exact hs.of_append h _
  | untold hc h hw ho hd => exact hs.of_append h _

theorem rise (ht : Turn s w place e) : riseOf e.tokens + s.widths.length = e.state.widths.length := by
  cases ht with
  | deeper h hw =>
    simp only [riseOf_cons, riseOf_nil, LayoutMark.rise, List.length_cons]
    omega
  | level h => cases s.started <;> simp [LayoutMark.rise]
  | shallower hc h hw =>
    simp only [riseOf_map_dedent, h, List.length_append]
    omega
  | stray hc h hw ho hd =>
    rw [riseOf_append, riseOf_map_dedent, h, List.length_append]
    simp only [riseOf_cons, riseOf_nil, LayoutMark.rise]
    omega
  | untold hc h hw ho hd =>
    simp only [riseOf_map_dedent, h, List.length_append]
    omega

/-- The tokens of a turn open, close or separate; they hold no line and no end. -/
theorem mark_of_mem (ht : Turn s w place e) {t : LayoutToken} (h : t ∈ e.tokens) :
    t.place = place ∧ (t.mark = .indent ∨ t.mark = .newline ∨ t.mark = .dedent ∨
      ∃ cause, t.mark = .fault cause) := by
  cases ht with
  | deeper => simp_all
  | level => split at h <;> simp_all
  | shallower => simp only [List.mem_map] at h; obtain ⟨x, -, rfl⟩ := h; simp
  | stray =>
    simp only [List.mem_append, List.mem_map, List.mem_singleton] at h
    obtain ⟨x, -, rfl⟩ | rfl := h <;> simp
  | untold => simp only [List.mem_map] at h; obtain ⟨x, -, rfl⟩ := h; simp

end Turn

/-- The fault of a line whose white space mixes tabs and spaces against the rules. -/
def mixedFaults (rules : LayoutRules) (l : ContentLine) : List LayoutToken :=
  if isMixed l.indent && !rules.allowMixed then [⟨.fault .mixed, l.indentPlace⟩] else []

theorem mark_of_mem_mixedFaults {l : ContentLine} {t : LayoutToken}
    (ht : t ∈ mixedFaults rules l) : t.mark = .fault .mixed := by
  unfold mixedFaults at ht
  split at ht <;> simp_all

theorem riseOf_mixedFaults (l : ContentLine) : riseOf (mixedFaults rules l) = 0 := by
  unfold mixedFaults
  split <;> rfl

/-- A line of which the width can be told: a fault of its white space, what relates it to the open
blocks, and its text. -/
theorem line_of_width {l : ContentLine} (hw : rules.width l.indent = .ok w) :
    s.line rules l = ((s.indentTo w l.place.opening).after (mixedFaults rules l)).andThen fun s' =>
      ⟨[⟨.text l.content, l.place⟩], { s' with started := true }, none⟩ := by
  rw [line, hw]
  rfl

/-- A line is a turn of the open blocks and then the text of the line. -/
theorem Stacked.line_eq (h : 1 ≤ rules.tabWidth) (hs : s.Stacked) (l : ContentLine) :
    ∃ w e, rules.width l.indent = .ok w ∧ 0 ≤ w ∧ Turn s w l.place.opening e ∧
      s.line rules l = (e.after (mixedFaults rules l)).andThen fun s' =>
        ⟨[⟨.text l.content, l.place⟩], { s' with started := true }, none⟩ := by
  obtain ⟨w, hw, h0⟩ := rules.exists_width h l.indent
  exact ⟨w, s.indentTo w l.place.opening, hw, h0, hs.turn h0 _, line_of_width hw⟩

/-- What every emission keeps that reads content lines in the state `s`. -/
structure Keeps (s : Offside) (e : Emission) : Prop where
  stacked : e.state.Stacked
  rise : riseOf e.tokens + s.widths.length = e.state.widths.length
  unended : ∀ t ∈ e.tokens, t.mark ≠ .eof

theorem Keeps.andThen {next : Offside → Emission} (he : s.Keeps e)
    (hn : e.state.Keeps (next e.state)) : s.Keeps (e.andThen next) := by
  cases hb : e.breakdown with
  | some b => rwa [Emission.andThen_of_some hb]
  | none =>
    rw [Emission.andThen_of_none hb]
    refine ⟨hn.stacked, ?_, ?_⟩
    · have h₁ := he.rise
      have h₂ := hn.rise
      simp only [Emission.after_tokens, Emission.after_state, riseOf_append]
      omega
    · intro t ht
      obtain ht | ht := List.mem_append.mp ht
      · exact he.unended t ht
      · exact hn.unended t ht

theorem Stacked.keeps_line (h : 1 ≤ rules.tabWidth) (hs : s.Stacked) (l : ContentLine) :
    s.Keeps (s.line rules l) := by
  obtain ⟨w, e, -, -, ht, he⟩ := hs.line_eq h l
  rw [he]
  refine Keeps.andThen ⟨ht.stacked hs, ?_, ?_⟩ ⟨?_, ?_, ?_⟩
  · rw [Emission.after_tokens, riseOf_append, riseOf_mixedFaults, Emission.after_state, ← ht.rise]
    omega
  · intro t hmem
    obtain hmem | hmem := List.mem_append.mp hmem
    · simp [mark_of_mem_mixedFaults hmem]
    · obtain ⟨-, h | h | h | ⟨cause, h⟩⟩ := ht.mark_of_mem hmem <;> simp [h]
  · exact ⟨(ht.stacked hs).falling, (ht.stacked hs).base⟩
  · simp [LayoutMark.rise]
  · simp

theorem Stacked.keeps_lines (h : 1 ≤ rules.tabWidth) (ls : List ContentLine) (hs : s.Stacked) :
    s.Keeps (s.lines rules ls) := by
  induction ls generalizing s with
  | nil => exact ⟨hs, by simp [lines], by simp [lines]⟩
  | cons l ls ih =>
    have hl := hs.keeps_line h l
    exact hl.andThen (ih hl.stacked)

/-- The tokens of a line that was read end with its text. -/
theorem line_of_none {l : ContentLine} (h : (s.line rules l).breakdown = none) :
    (s.line rules l).state.started = true ∧ ∃ w, (s.line rules l).tokens =
      mixedFaults rules l ++ (s.indentTo w l.place.opening).tokens ++
        [⟨.text l.content, l.place⟩] := by
  cases hw : rules.width l.indent with
  | error b => simp [line, hw] at h
  | ok w =>
    rw [line_of_width hw] at h ⊢
    rw [Emission.andThen_of_none (Emission.andThen_breakdown.mp h).1]
    exact ⟨rfl, w, rfl⟩

/-- The tokens of lines that were read end with the text of the last one. -/
theorem lines_of_none {ls : List ContentLine} (hne : ls ≠ [])
    (h : (s.lines rules ls).breakdown = none) :
    (s.lines rules ls).state.started = true ∧ ∃ front content place,
      (s.lines rules ls).tokens = front ++ [⟨.text content, place⟩] := by
  induction ls generalizing s with
  | nil => exact absurd rfl hne
  | cons l ls ih =>
    rw [lines] at h ⊢
    obtain ⟨hl, hr⟩ := Emission.andThen_breakdown.mp h
    rw [Emission.andThen_of_none hl]
    by_cases hls : ls = []
    · subst hls
      obtain ⟨hst, w, ht⟩ := line_of_none hl
      exact ⟨hst, _, l.content, l.place, by
        simp only [lines, ht, Emission.after, List.append_nil]
        rfl⟩
    · obtain ⟨hst, front, content, place, ht⟩ := ih hls hr
      exact ⟨hst, (s.line rules l).tokens ++ front, content, place, by simp [ht]⟩

end Offside

end NovelScript
