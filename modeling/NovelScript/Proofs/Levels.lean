import NovelScript.Proofs.Completion
import NovelScript.Proofs.Shape

/-!
# The widths of lines

`Levels` follows the widths of the open blocks along the tokens of a layout: an opening adds a
greater width, a closing takes one away, and every line has the width of the innermost block. A
layout without faults of the indentation is of this kind from the outermost block on.
-/

namespace NovelScript

/-- From the widths `st` of the open blocks, innermost first, the tokens lead to the widths `st'`.
Their texts are the given content lines, each as wide as the block it lies in, and none of them
mixes tabs and spaces against the rules. -/
inductive Levels (rules : LayoutRules) :
    List Int → List LayoutToken → List ContentLine → List Int → Prop
  | nil (st : List Int) : Levels rules st [] [] st
  | text {w : Int} {st st' : List Int} {ts : List LayoutToken} {l : ContentLine}
    {ls : List ContentLine} (hw : rules.width l.indent = .ok w)
    (hm : Offside.mixedFaults rules l = []) (h : Levels rules (w :: st) ts ls st') :
    Levels rules (w :: st) (l.token :: ts) (l :: ls) st'
  | indent {v w : Int} {st st' : List Int} {t : LayoutToken} {ts : List LayoutToken}
    {ls : List ContentLine} (ht : t.mark = .indent) (hv : w < v)
    (h : Levels rules (v :: w :: st) ts ls st') : Levels rules (w :: st) (t :: ts) ls st'
  | dedent {v : Int} {st st' : List Int} {t : LayoutToken} {ts : List LayoutToken}
    {ls : List ContentLine} (ht : t.mark = .dedent) (h : Levels rules st ts ls st') :
    Levels rules (v :: st) (t :: ts) ls st'
  | newline {st st' : List Int} {t : LayoutToken} {ts : List LayoutToken} {ls : List ContentLine}
    (ht : t.mark = .newline) (h : Levels rules st ts ls st') : Levels rules st (t :: ts) ls st'

namespace Levels

variable {rules : LayoutRules} {st st' st'' : List Int} {ts us : List LayoutToken}
  {ls ms : List ContentLine}

theorem append (h : Levels rules st ts ls st') (h' : Levels rules st' us ms st'') :
    Levels rules st (ts ++ us) (ls ++ ms) st'' := by
  induction h with
  | nil => exact h'
  | text hw hm _ ih => exact .text hw hm (ih h')
  | indent ht hv _ ih => exact .indent ht hv (ih h')
  | dedent ht _ ih => exact .dedent ht (ih h')
  | newline ht _ ih => exact .newline ht (ih h')

theorem exists_of_append (h : Levels rules st (ts ++ us) ls st'') : ∃ st' ls₁ ls₂,
    ls = ls₁ ++ ls₂ ∧ Levels rules st ts ls₁ st' ∧ Levels rules st' us ls₂ st'' := by
  induction ts generalizing st ls with
  | nil => exact ⟨st, [], ls, rfl, .nil st, h⟩
  | cons t ts ih =>
    cases h with
    | text hw hm h =>
      obtain ⟨st', ls₁, ls₂, rfl, h₁, h₂⟩ := ih h
      exact ⟨st', _ :: ls₁, ls₂, rfl, .text hw hm h₁, h₂⟩
    | indent ht hv h =>
      obtain ⟨st', ls₁, ls₂, rfl, h₁, h₂⟩ := ih h
      exact ⟨st', ls₁, ls₂, rfl, .indent ht hv h₁, h₂⟩
    | dedent ht h =>
      obtain ⟨st', ls₁, ls₂, rfl, h₁, h₂⟩ := ih h
      exact ⟨st', ls₁, ls₂, rfl, .dedent ht h₁, h₂⟩
    | newline ht h =>
      obtain ⟨st', ls₁, ls₂, rfl, h₁, h₂⟩ := ih h
      exact ⟨st', ls₁, ls₂, rfl, .newline ht h₁, h₂⟩

/-- Closings take away as many widths as there are closings. -/
theorem closings (closed st : List Int) (h : ts.length = closed.length)
    (ht : ∀ t ∈ ts, t.mark = .dedent) : Levels rules (closed ++ st) ts [] st := by
  induction closed generalizing ts with
  | nil =>
    rw [List.eq_nil_of_length_eq_zero h]
    exact .nil st
  | cons v closed ih =>
    cases ts with
    | nil => simp at h
    | cons t ts =>
      exact .dedent (ht t List.mem_cons_self) (ih (by simpa using h)
        fun u hu => ht u (List.mem_cons_of_mem _ hu))

/-- Tokens add as many widths as they open blocks. -/
theorem length_eq (h : Levels rules st ts ls st') : (st'.length : Int) = st.length + riseOf ts := by
  induction h with
  | nil => simp
  | text hw hm _ ih =>
    rw [ih, riseOf_cons]
    simp [ContentLine.token, LayoutMark.rise]
  | indent ht hv _ ih =>
    rw [ih, riseOf_cons, ht]
    simp only [List.length_cons, LayoutMark.rise]
    omega
  | dedent ht _ ih =>
    rw [ih, riseOf_cons, ht]
    simp only [List.length_cons, LayoutMark.rise]
    omega
  | newline ht _ ih =>
    rw [ih, riseOf_cons, ht]
    simp [LayoutMark.rise]

/-- The width of the outermost block stays, unless that is closed as well. -/
theorem getLast?_eq_or (h : Levels rules st ts ls st') :
    st'.getLast? = st.getLast? ∨ st' = [] := by
  induction h with
  | nil => exact .inl rfl
  | text hw hm _ ih => exact ih
  | indent ht hv _ ih => rwa [List.getLast?_cons_cons] at ih
  | @dedent v st st' t ts ls ht h ih =>
    cases st with
    | nil => exact .inr (ih.elim List.getLast?_eq_none_iff.mp id)
    | cons w st => rwa [List.getLast?_cons_cons]
  | newline ht _ ih => exact ih

/-- The texts among the tokens are the lines. -/
theorem texts (h : Levels rules st ts ls st') : textsOf ts = ls.map ContentLine.token := by
  have hskip : ∀ {t : LayoutToken} {ts : List LayoutToken} {m : LayoutMark}, t.mark = m →
      m.tag ≠ .text → textsOf (t :: ts) = textsOf ts := fun ht hm =>
    textsOf_cons_of_ne (by rwa [LayoutToken.tag, ht]) _
  induction h with
  | nil => rfl
  | text hw hm _ ih => exact congrArg (_ :: ·) ih
  | indent ht _ _ ih => rw [hskip ht (by decide), ih]
  | dedent ht _ ih => rw [hskip ht (by decide), ih]
  | newline ht _ ih => rw [hskip ht (by decide), ih]

/-- A text that is reached with all blocks closed is that of a line without indentation. -/
theorem exists_line {t : LayoutToken} (h : Levels rules [0] (ts ++ t :: us) ls st)
    (hr : riseOf ts = 0) (ht : t.tag = .text) : ∃ front l rest, ls = front ++ l :: rest ∧
      t = l.token ∧ textsOf ts = front.map ContentLine.token ∧ rules.width l.indent = .ok 0 ∧
      Offside.mixedFaults rules l = [] := by
  obtain ⟨st', front, rest, rfl, hts, hus⟩ := h.exists_of_append
  have hne : ∀ m : LayoutMark, m.tag ≠ .text → t.mark ≠ m := fun m hm he => hm (by
    rw [LayoutToken.tag, he] at ht
    exact ht)
  have hlen := hts.length_eq
  have hlast := hts.getLast?_eq_or
  rw [hr] at hlen
  cases hus with
  | @text w st' _ _ l rest hw hm =>
    -- Only the outermost block is open, and its width is zero.
    rw [List.length_cons, List.length_singleton] at hlen
    obtain rfl : st' = [] := List.eq_nil_of_length_eq_zero (by omega)
    obtain hlast | hlast := hlast
    · obtain rfl : w = 0 := by simpa using hlast
      exact ⟨front, l, rest, rfl, rfl, hts.texts, hw, hm⟩
    · cases hlast
  | indent he | dedent he | newline he => exact absurd he (hne _ (by decide))

end Levels

namespace Offside

variable {rules : LayoutRules} {s : Offside} {l : ContentLine}

theorem firstFault?_mixedFaults {us : List LayoutToken}
    (h : firstFault? (mixedFaults rules l ++ us) = none) : mixedFaults rules l = [] := by
  unfold mixedFaults at h ⊢
  split at h
  · simp [firstFault?] at h
  · next hm => rw [if_neg hm]

/-- A line without a fault leads from the widths before it to the widths after it. -/
theorem Stacked.levels_line (h : 1 ≤ rules.tabWidth) (hs : s.Stacked)
    (hb : (s.line rules l).breakdown = none) (hf : firstFault? (s.line rules l).tokens = none) :
    Levels rules s.widths (s.line rules l).tokens [l] (s.line rules l).state.widths := by
  obtain ⟨w, e, hw, -, ht, he⟩ := hs.line_eq h l
  rw [he] at hb
  have hnone : e.breakdown = none := (Emission.andThen_breakdown.mp hb).1
  rw [he, Emission.andThen_of_none (e := e.after _) hnone] at hf ⊢
  simp only [Emission.after_tokens, Emission.after_state, List.append_assoc] at hf ⊢
  have hm := firstFault?_mixedFaults hf
  rw [hm, List.nil_append] at hf ⊢
  have htext : ∀ st, Levels rules (w :: st) [l.token] [l] (w :: st) := fun st =>
    .text hw hm (.nil _)
  cases ht with
  | deeper hwidths hin =>
    rw [hwidths]
    exact .indent rfl hin (htext _)
  | level hwidths =>
    rw [hwidths]
    cases s.started with
    | true => exact .newline rfl (htext _)
    | false => exact htext _
  | @shallower closed rest hc hwidths hlt =>
    rw [hwidths]
    refine (Levels.closings closed (w :: rest) (by simp) fun t ht => ?_).append (htext rest)
    obtain ⟨x, -, rfl⟩ := List.mem_map.mp ht
    rfl
  | stray =>
    rw [firstFault?_append, firstFault?_append] at hf
    simp [firstFault?] at hf
  | untold => cases hnone

theorem Stacked.levels_lines (h : 1 ≤ rules.tabWidth) (hs : s.Stacked) {ls : List ContentLine}
    (hb : (s.lines rules ls).breakdown = none)
    (hf : firstFault? (s.lines rules ls).tokens = none) :
    Levels rules s.widths (s.lines rules ls).tokens ls (s.lines rules ls).state.widths := by
  induction ls generalizing s with
  | nil => exact .nil _
  | cons l ls ih =>
    rw [lines] at hb hf ⊢
    obtain ⟨hl, hr⟩ := Emission.andThen_breakdown.mp hb
    rw [Emission.andThen_of_none hl] at hf ⊢
    rw [Emission.after_tokens, firstFault?_append, Option.or_eq_none_iff] at hf
    exact (hs.levels_line h hl hf.1).append (ih (hs.keeps_line h l).stacked hr hf.2)

/-- The end of a text closes all blocks but the outermost. -/
theorem levels_finish (rules : LayoutRules) (text : List Char) (lastLine : Int) (s : Offside) :
    ∃ closers place,
    (s.finish text lastLine).tokens = closers ++ [⟨.eof, place⟩] ∧
      Levels rules s.widths closers [] (s.widths.drop (s.widths.length - 1)) := by
  unfold finish
  refine ⟨_, _, rfl, ?_⟩
  split
  · next hlen =>
    have hsplit := List.take_append_drop (s.widths.length - 1) s.widths
    conv => enter [2]; rw [← hsplit]
    refine Levels.closings _ _ ?_ fun t ht => ?_
    · simp
    · rw [List.eq_of_mem_replicate ht]
  · next hlen =>
    have hdrop : s.widths.drop (s.widths.length - 1) = s.widths := by
      rw [show s.widths.length - 1 = 0 by omega, List.drop_zero]
    rw [hdrop]
    split
    · exact .newline rfl (.nil _)
    · exact .nil _

end Offside

/-- A layout without faults follows the widths of its content lines. -/
theorem levels_of_layout {rules : LayoutRules} (h : 1 ≤ rules.tabWidth) {text : List Char}
    {front : List LayoutToken} {place : Place}
    (hl : layout rules text = .ok (front ++ [⟨.eof, place⟩])) (hf : firstFault? front = none) :
    ∃ st, Levels rules [0] front (contentLines text) st := by
  obtain ⟨hb, htokens⟩ := layout_eq_ok.mp hl
  obtain ⟨closers, place', hfin, hclose⟩ := Offside.levels_finish rules text
    (Text.lines text).length (Offside.initial.lines rules (contentLines text)).state
  rw [hfin, ← List.append_assoc] at htokens
  obtain ⟨rfl, -⟩ := List.append_inj' htokens rfl
  rw [firstFault?_append, Option.or_eq_none_iff] at hf
  have hlines := (Offside.stacked_initial.levels_lines h hb hf.1).append hclose
  rw [List.append_nil] at hlines
  exact ⟨_, hlines⟩

end NovelScript
