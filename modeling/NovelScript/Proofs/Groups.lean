import Mathlib.Data.List.Chain
import NovelScript.Proofs.Survivors

/-!
# The tokens of a layout in groups

A layout has one group of tokens for each content line and a tail. A group says how its line lies to
the open blocks and ends with the text of the line; the tail closes what is open. So a separator
never touches the opening or the closing of a block, and the end comes once, after everything else.
-/

namespace NovelScript

/-- How a line lies to the lines before it. -/
inductive Relating : List LayoutMark → Prop
  | deeper : Relating [.indent]
  | level : Relating [.newline]
  | shallower (n : Nat) : Relating (List.replicate (n + 1) .dedent)
  | stray (n : Nat) (outer w : Int) :
    Relating (List.replicate (n + 1) .dedent ++ [.fault (.inconsistent outer w)])

/-- The group of a line. Only the first line of a text may lie at the outermost block without
anything that says so. -/
inductive LineGroup (rules : LayoutRules) (first : Bool) (l : ContentLine) : List LayoutMark → Prop
  | first (hf : first) (hw : rules.width l.indent = .ok 0) : LineGroup rules first l
    ((Offside.mixedFaults rules l).map LayoutToken.mark ++ [.text l.content])
  | related {ms : List LayoutMark} (h : Relating ms) : LineGroup rules first l
    ((Offside.mixedFaults rules l).map LayoutToken.mark ++ (ms ++ [.text l.content]))

/-- The groups of lines, of which the first one may be the first of the text. -/
inductive LineGroups (rules : LayoutRules) : Bool → List ContentLine → List LayoutMark → Prop
  | nil (first : Bool) : LineGroups rules first [] []
  | cons {first : Bool} {l : ContentLine} {ls : List ContentLine} {ms ns : List LayoutMark}
    (h : LineGroup rules first l ms) (hs : LineGroups rules false ls ns) :
    LineGroups rules first (l :: ls) (ms ++ ns)

/-- What ends a layout, with lines or without. -/
inductive LayoutTail : (hasLines : Bool) → List LayoutMark → Prop
  | closing (n : Nat) : LayoutTail true (List.replicate (n + 1) .dedent ++ [.eof])
  | level : LayoutTail true [.newline, .eof]
  | bare : LayoutTail false [.eof]

/-- A group for each line and a tail. -/
def Regular (rules : LayoutRules) (ls : List ContentLine) (ms : List LayoutMark) : Prop :=
  ∃ groups tail, ms = groups ++ tail ∧ LineGroups rules true ls groups ∧
    LayoutTail (!ls.isEmpty) tail

/-- A separator does not touch an opening or a closing. -/
def MayTouch (a b : LayoutMark) : Prop :=
  (a = .newline → b ≠ .indent ∧ b ≠ .dedent) ∧ (b = .newline → a ≠ .indent ∧ a ≠ .dedent)

instance (a b : LayoutMark) : Decidable (MayTouch a b) := inferInstanceAs (Decidable (_ ∧ _))

namespace MayTouch

theorem text_left (content : List Char) (b : LayoutMark) : MayTouch (.text content) b := by
  simp [MayTouch]

theorem text_right (a : LayoutMark) (content : List Char) : MayTouch a (.text content) := by
  simp [MayTouch]

theorem fault_left (cause : LayoutFault) (b : LayoutMark) : MayTouch (.fault cause) b := by
  simp [MayTouch]

theorem fault_right (a : LayoutMark) (cause : LayoutFault) : MayTouch a (.fault cause) := by
  simp [MayTouch]

theorem eof_right (a : LayoutMark) : MayTouch a .eof := by
  simp [MayTouch]

theorem isChain_concat {ms : List LayoutMark} {a : LayoutMark} (h : ms.IsChain MayTouch)
    (ha : ∀ m, MayTouch m a) : (ms ++ [a]).IsChain MayTouch :=
  h.append (.singleton a) fun m _ _ hb => Option.some.inj hb ▸ ha m

theorem isChain_dedents (n : Nat) : (List.replicate n LayoutMark.dedent).IsChain MayTouch :=
  List.isChain_replicate_of_rel n (by simp [MayTouch])

end MayTouch

variable {rules : LayoutRules} {first hasLines : Bool} {l : ContentLine} {ls : List ContentLine}
  {ms ns : List LayoutMark}

theorem Relating.isChain (h : Relating ms) : ms.IsChain MayTouch := by
  cases h with
  | deeper | level => exact .singleton _
  | shallower n => exact MayTouch.isChain_dedents _
  | stray n outer w => exact MayTouch.isChain_concat (MayTouch.isChain_dedents _) (.fault_right · _)

theorem Relating.eof_not_mem (h : Relating ms) : LayoutMark.eof ∉ ms := by
  cases h <;> simp [List.mem_replicate]

theorem isChain_mixedFaults (h : ms.IsChain MayTouch) :
    ((Offside.mixedFaults rules l).map LayoutToken.mark ++ ms).IsChain MayTouch := by
  unfold Offside.mixedFaults
  split
  · exact h.cons fun b _ => .fault_left _ b
  · exact h

theorem eof_not_mem_mixedFaults :
    LayoutMark.eof ∉ (Offside.mixedFaults rules l).map LayoutToken.mark := by
  rintro hmem
  obtain ⟨t, ht, hm⟩ := List.mem_map.mp hmem
  rw [Offside.mark_of_mem_mixedFaults ht] at hm
  exact nomatch hm

namespace LineGroup

/-- A group ends with the text of its line. -/
theorem exists_front (h : LineGroup rules first l ms) : ∃ front,
    ms = front ++ [.text l.content] ∧ front.IsChain MayTouch ∧ .eof ∉ front := by
  cases h with
  | first hf hw =>
    have hchain : ((Offside.mixedFaults rules l).map LayoutToken.mark ++ []).IsChain MayTouch :=
      isChain_mixedFaults .nil
    rw [List.append_nil] at hchain
    exact ⟨_, rfl, hchain, eof_not_mem_mixedFaults⟩
  | related h =>
    refine ⟨_, (List.append_assoc _ _ _).symm, isChain_mixedFaults h.isChain, fun hmem => ?_⟩
    exact (List.mem_append.mp hmem).elim eof_not_mem_mixedFaults h.eof_not_mem

end LineGroup

namespace LineGroups

theorem isChain_append (h : LineGroups rules first ls ms) (hns : ns.IsChain MayTouch) :
    (ms ++ ns).IsChain MayTouch := by
  induction h with
  | nil => exact hns
  | cons hg hs ih =>
    obtain ⟨front, rfl, hfront, -⟩ := hg.exists_front
    rw [List.append_assoc, List.append_assoc, List.singleton_append]
    refine List.isChain_split.mpr ⟨MayTouch.isChain_concat hfront (.text_right · _), ?_⟩
    exact ih.cons fun b _ => .text_left _ b

theorem eof_not_mem (h : LineGroups rules first ls ms) : LayoutMark.eof ∉ ms := by
  induction h with
  | nil => exact List.not_mem_nil
  | cons hg hs ih =>
    obtain ⟨front, rfl, -, hfront⟩ := hg.exists_front
    simp [hfront, ih]

end LineGroups

theorem LayoutTail.exists_front (h : LayoutTail hasLines ms) : ∃ front,
    ms = front ++ [.eof] ∧ front.IsChain MayTouch ∧ .eof ∉ front := by
  cases h with
  | closing n => exact ⟨_, rfl, MayTouch.isChain_dedents _, by simp [List.mem_replicate]⟩
  | level => exact ⟨[.newline], rfl, .singleton _, by simp⟩
  | bare => exact ⟨[], rfl, .nil, by simp⟩

namespace Regular

theorem isChain (h : Regular rules ls ms) : ms.IsChain MayTouch := by
  obtain ⟨groups, tail, rfl, hgroups, htail⟩ := h
  obtain ⟨front, rfl, hfront, -⟩ := htail.exists_front
  exact hgroups.isChain_append (MayTouch.isChain_concat hfront .eof_right)

theorem exists_front (h : Regular rules ls ms) : ∃ front, ms = front ++ [.eof] ∧ .eof ∉ front := by
  obtain ⟨groups, tail, rfl, hgroups, htail⟩ := h
  obtain ⟨front, rfl, -, hfront⟩ := htail.exists_front
  exact ⟨groups ++ front, (List.append_assoc _ _ _).symm, fun hmem =>
    (List.mem_append.mp hmem).elim hgroups.eof_not_mem hfront⟩

end Regular

namespace Offside

variable {s : Offside} {w : Int} {place : Place} {e : Emission}

/-- Before its first line a scan has only the outermost block. -/
def Fresh (s : Offside) : Prop := s.started = false → s.widths = [0]

theorem map_mark_dedents {closed : List Int} (hc : closed ≠ []) (place : Place) :
    (closed.map fun _ => LayoutToken.mk .dedent place).map LayoutToken.mark =
      List.replicate (closed.length - 1 + 1) .dedent := by
  rw [Nat.sub_add_cancel (List.length_pos_iff.mpr hc), List.map_map]
  exact List.map_const ..

/-- A turn relates the line to the lines before it, unless it is at the very start. -/
theorem Turn.relating (hs : s.Fresh) (ht : Turn s w place e) (hb : e.breakdown = none) :
    Relating (e.tokens.map LayoutToken.mark) ∨ s.started = false ∧ w = 0 ∧ e.tokens = [] := by
  cases ht with
  | deeper => exact .inl .deeper
  | level h =>
    cases hst : s.started with
    | true => exact .inl .level
    | false =>
      rw [hs hst] at h
      exact .inr ⟨rfl, (List.cons.inj h).1.symm, rfl⟩
  | @shallower closed rest hc h hw =>
    rw [map_mark_dedents hc]
    exact .inl (.shallower _)
  | @stray closed rest outer hc h hw ho hd =>
    rw [List.map_append, map_mark_dedents hc]
    exact .inl (.stray _ outer w)
  | untold => exact nomatch hb

theorem Stacked.lineGroup (h : 1 ≤ rules.tabWidth) (hs : s.Stacked) (hf : s.Fresh)
    (hb : (s.line rules l).breakdown = none) :
    LineGroup rules (!s.started) l ((s.line rules l).tokens.map LayoutToken.mark) := by
  obtain ⟨w, e, hw, -, ht, he⟩ := hs.line_eq h l
  rw [he] at hb ⊢
  have hturn : e.breakdown = none := (Emission.andThen_breakdown.mp hb).1
  have htokens : (((e.after (mixedFaults rules l)).andThen fun s' =>
      ⟨[⟨.text l.content, l.place⟩], { s' with started := true }, none⟩).tokens.map
        LayoutToken.mark) = (mixedFaults rules l).map LayoutToken.mark ++
          (e.tokens.map LayoutToken.mark ++ [.text l.content]) := by
    rw [Emission.andThen_of_none (e := e.after _) hturn]
    simp
  rw [htokens]
  obtain hrelating | ⟨hstarted, rfl, hnil⟩ := ht.relating hf hturn
  · exact .related hrelating
  · rw [hnil]
    exact .first (by simp [hstarted]) hw

theorem Stacked.lineGroups (h : 1 ≤ rules.tabWidth) (hs : s.Stacked) (hf : s.Fresh)
    (hb : (s.lines rules ls).breakdown = none) :
    LineGroups rules (!s.started) ls ((s.lines rules ls).tokens.map LayoutToken.mark) := by
  induction ls generalizing s with
  | nil => exact .nil _
  | cons l ls ih =>
    rw [lines] at hb ⊢
    obtain ⟨hl, hr⟩ := Emission.andThen_breakdown.mp hb
    have hstarted := (line_of_none hl).1
    have hlater := ih (hs.keeps_line h l).stacked (fun hst => by simp [hst] at hstarted) hr
    rw [Emission.andThen_of_none hl, Emission.after_tokens, List.map_append]
    rw [hstarted] at hlater
    exact .cons (hs.lineGroup h hf hl) hlater

theorem layoutTail (hf : s.Fresh) (text : List Char) :
    LayoutTail s.started
      ((s.finish text (Text.lines text).length).tokens.map LayoutToken.mark) := by
  rw [tokens_finish, List.map_append, closing]
  split
  · next hlen =>
    have hstarted : s.started = true := by
      by_contra hnot
      rw [hf (eq_false_of_ne_true hnot)] at hlen
      exact absurd hlen (by decide)
    rw [List.map_replicate, hstarted, show s.widths.length - 1 = s.widths.length - 2 + 1 by omega]
    exact .closing _
  · split
    · next hstarted =>
      rw [hstarted]
      exact .level
    · next hstarted =>
      rw [eq_false_of_ne_true hstarted]
      exact .bare

end Offside

/-- A layout that does not break down has a group for each content line and a tail. So separators
keep clear of openings and closings, and the layout ends once. -/
theorem regular_of_layout (rules : LayoutRules) (h : 1 ≤ rules.tabWidth) (text : List Char) :
    (∀ b, layout rules text = .error b ↔ b = .longWidth ∧ LongDedent rules text) ∧
    ∀ tokens, layout rules text = .ok tokens →
      Regular rules (contentLines text) (tokens.map LayoutToken.mark) ∧
      (tokens.map LayoutToken.mark).IsChain MayTouch ∧
      ∃ front, tokens.map LayoutToken.mark = front ++ [.eof] ∧ .eof ∉ front := by
  refine ⟨layout_eq_error_iff h text, fun tokens hl => ?_⟩
  obtain ⟨hb, rfl⟩ := layout_eq_ok.mp hl
  have hgroups := Offside.stacked_initial.lineGroups h (fun _ => rfl) hb
  have hstarted : (Offside.initial.lines rules (contentLines text)).state.started =
      !(contentLines text).isEmpty := by
    cases hlines : contentLines text with
    | nil => rfl
    | cons l ls =>
      rw [hlines] at hb
      exact (Offside.lines_of_none (List.cons_ne_nil l ls) hb).1
  have hfresh : (Offside.initial.lines rules (contentLines text)).state.Fresh := by
    intro hnot
    rw [hnot, eq_comm, Bool.not_eq_false', List.isEmpty_iff] at hstarted
    rw [hstarted]
    rfl
  have hregular : Regular rules (contentLines text)
      (((Offside.initial.lines rules (contentLines text)).tokens ++
        ((Offside.initial.lines rules (contentLines text)).state.finish text
          (Text.lines text).length).tokens).map LayoutToken.mark) :=
    ⟨_, _, List.map_append, hgroups, hstarted ▸ Offside.layoutTail hfresh text⟩
  exact ⟨hregular, hregular.isChain, hregular.exists_front⟩

/-- The first line mixes tabs and spaces, and the last one strays. -/
def brokenLines : List Char := "\t \"a\"\n  \"b\"".toList

theorem regular_of_brokenLines : ∃ tokens, 1 ≤ ({} : LayoutRules).tabWidth ∧
    layout {} brokenLines = .ok tokens ∧ tokens.map LayoutToken.tag =
      [.error, .indent, .text, .dedent, .error, .text, .newline, .eof] ∧
    Regular {} (contentLines brokenLines) (tokens.map LayoutToken.mark) := by
  obtain ⟨tokens, hl, htags⟩ : ∃ tokens, layout {} brokenLines = .ok tokens ∧
      tokens.map LayoutToken.tag =
        [.error, .indent, .text, .dedent, .error, .text, .newline, .eof] :=
    ⟨(Offside.initial.scan {} brokenLines).tokens, by decide +kernel, by decide +kernel⟩
  exact ⟨tokens, by decide, hl, htags,
    ((regular_of_layout {} (by decide) brokenLines).2 tokens hl).1⟩

end NovelScript
