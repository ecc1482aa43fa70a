import NovelScript.Proofs.Continued
import NovelScript.Proofs.Indented
import NovelScript.Proofs.Shape
import NovelScript.Proofs.Tracking

/-!
# The nesting of a canonical form

The lines of a canonical form are those of the flat form, each with four spaces for every block
that is open around it. The offside rule opens and closes the same blocks at these lines as at the
lines that the flat form was read from, whatever widths those had.
-/

namespace NovelScript

/-- The lines among some pieces, with the number of blocks around each. -/
def linesAt : Nat → List Piece → List (Nat × List Char)
  | _, [] => []
  | d, .line _ text :: ps => (d, text) :: linesAt d ps
  | d, .indent :: ps => linesAt (d + 1) ps
  | d, .dedent :: ps => linesAt (d - 1) ps
  | d, .newline :: ps => linesAt d ps

theorem linesAt_separator (d : Nat) (s : Statement) (ps : List Piece) :
    linesAt d (s.separator ++ ps) = linesAt d ps := by
  unfold Statement.separator
  split <;> rfl

theorem linesAt_flatCaption (d : Nat) (caption : Option Say) (ps : List Piece) :
    linesAt d (flatCaption caption ++ ps) = writtenCaption d caption ++ linesAt d ps := by
  cases caption <;> rfl

mutual

/-- The lines of a flat form are the written ones. -/
theorem Statement.linesAt_flat (d : Nat) (ps : List Piece) : ∀ s : Statement,
    linesAt d (s.flat ++ ps) = s.written d ++ linesAt d ps
  | .simple action span => by simp [Statement.flat, Statement.written, linesAt]
  | .label name body span => by
    simp [Statement.flat, Statement.written, linesAt, Block.linesAt_flat d ps body]
  | .loop condition body span => by
    simp [Statement.flat, Statement.written, linesAt, Block.linesAt_flat d ps body]
  | .branch condition body elifs none span => by
    simp [Statement.flat, Statement.written, linesAt, Block.linesAt_flat d _ body,
      linesAt_flatElifs d ps elifs]
  | .branch condition body elifs (some block) span => by
    simp [Statement.flat, Statement.written, linesAt, Block.linesAt_flat d _ body,
      linesAt_flatElifs d _ elifs, Block.linesAt_flat d ps block]
  | .menu name caption choices span => by
    simp [Statement.flat, Statement.written, linesAt, linesAt_flatCaption,
      linesAt_flatChoices (d + 1) _ choices]

theorem Block.linesAt_flat (d : Nat) (ps : List Piece) : ∀ b : Block,
    linesAt d (b.flat ++ ps) = b.written (d + 1) ++ linesAt d ps
  | ⟨statements, span⟩ => by
    simp [Block.flat, Block.written, linesAt, linesAt_flatBody (d + 1) _ statements]

theorem linesAt_flatBody (d : Nat) (ps : List Piece) : ∀ ss : List Statement,
    linesAt d (flatBody ss ++ ps) = writtenAll d ss ++ linesAt d ps
  | [] => by simp [flatBody, writtenAll]
  | s :: rest => by
    rw [flatBody, writtenAll, List.append_assoc, List.append_assoc, Statement.linesAt_flat d _ s,
      List.append_assoc]
    split
    · rw [List.nil_append, linesAt_flatBody d ps rest]
    · rw [linesAt_separator, linesAt_flatBody d ps rest]

theorem linesAt_flatElifs (d : Nat) (ps : List Piece) : ∀ es : List ElifClause,
    linesAt d (flatElifs es ++ ps) = writtenElifs d es ++ linesAt d ps
  | [] => by simp [flatElifs, writtenElifs]
  | ⟨condition, body, span⟩ :: rest => by
    simp [flatElifs, writtenElifs, linesAt, Block.linesAt_flat d _ body,
      linesAt_flatElifs d ps rest]

theorem linesAt_flatChoices (d : Nat) (ps : List Piece) : ∀ cs : List Choice,
    linesAt d (flatChoices cs ++ ps) = writtenChoices d cs ++ linesAt d ps
  | [] => by simp [flatChoices, writtenChoices]
  | ⟨text, condition, body, span⟩ :: rest => by
    simp [flatChoices, writtenChoices, linesAt, Block.linesAt_flat d _ body,
      linesAt_flatChoices d ps rest]

end

theorem linesAt_flatAll (d : Nat) (ss : List Statement) :
    linesAt d (flatAll ss) = writtenAll d ss := by
  induction ss with
  | nil => rfl
  | cons s ss ih =>
    have hcons : flatAll (s :: ss) = s.flat ++ (s.separator ++ flatAll ss) := by simp [flatAll]
    rw [hcons, Statement.linesAt_flat, linesAt_separator, ih, writtenAll]

/-- Pieces that are no lines add none. -/
theorem linesAt_append_of_tag {ps qs : List Piece} (h : ∀ q ∈ qs, q.tag ≠ .text) (d : Nat) :
    linesAt d (ps ++ qs) = linesAt d ps := by
  induction ps generalizing d with
  | nil =>
    induction qs generalizing d with
    | nil => rfl
    | cons q qs ih =>
      have hq := h q List.mem_cons_self
      have hqs := ih fun q' hq' => h q' (List.mem_cons_of_mem _ hq')
      cases q with
      | line x text => exact absurd rfl hq
      | _ => exact hqs _
  | cons p ps ih => cases p <;> simp [linesAt, ih]

/-! The text of the canonical form. -/

/-- A content line is indented by four spaces for each block and has the content. -/
def IsLineOf (m : ContentLine) (l : Nat × List Char) : Prop :=
  m.indent = List.replicate (4 * l.1) ' ' ∧ m.content = l.2

theorem not_mem_content {text : List Char} {l : ContentLine} (h : l ∈ contentLines text) :
    '\n' ∉ l.content := by
  obtain ⟨n, k, line, hmem, he⟩ := exists_ofLine?_of_mem h
  obtain ⟨body, hbody, rfl, -, -⟩ := ContentLine.exists_of_ofLine? he
  intro hm
  have hin : '\n' ∈ body := (List.dropWhile_suffix _).subset hm
  exact Text.not_mem_of_mem_lines hmem (hbody.subset hin)

/-- The content lines of the text are the lines it is made of. -/
theorem isLineOf_textOf {ls : List (Nat × List Char)} (h : ∀ l ∈ ls, Solid l.2 ∧ '\n' ∉ l.2) :
    List.Forall₂ IsLineOf (contentLines (textOf ls)) ls := by
  unfold contentLines
  generalize 1 = number, 0 = lineStart
  induction ls generalizing number lineStart with
  | nil => exact .nil
  | cons l ls ih =>
    obtain ⟨hsolid, hline⟩ := h l List.mem_cons_self
    have htext : textOf (l :: ls) = indented (4 * l.1) l.2 ++ '\n' :: textOf ls := by
      simp [textOf]
    rw [htext, Text.lines_append, Text.lines_of_not_mem (not_mem_indented hline _),
      List.singleton_append, contentLinesFrom, hsolid.ofLine?_indented]
    exact .cons ⟨rfl, rfl⟩ (ih (fun l' hl' => h l' (List.mem_cons_of_mem _ hl')) _ _)

/-! Opening and closing. -/

/-- How the number of open blocks can change before a line, and the marks that tell it. -/
inductive Shift (started : Bool) : Nat → List LayoutMark → Nat → Prop
  | deeper (d : Nat) : Shift started d [.indent] (d + 1)
  | level (d : Nat) : Shift started d (if started then [.newline] else []) d
  | shallower (d k : Nat) : Shift started (d + (k + 1)) (List.replicate (k + 1) .dedent) d

/-- The widths of open blocks that are each four columns deeper than the one around them. -/
def evenWidths : Nat → List Int
  | 0 => [0]
  | d + 1 => 4 * (d + 1 : Nat) :: evenWidths d

theorem evenWidths_eq_cons (d : Nat) :
    ∃ rest : List Int, evenWidths d = ((4 * d : Nat) : Int) :: rest := by
  cases d with
  | zero => exact ⟨[], rfl⟩
  | succ d => exact ⟨evenWidths d, rfl⟩

theorem length_evenWidths (d : Nat) : (evenWidths d).length = d + 1 := by
  induction d with
  | zero => rfl
  | succ d ih => rw [evenWidths, List.length_cons, ih]

theorem evenWidths_eq_append (d k : Nat) : ∃ closed, evenWidths (d + k) = closed ++ evenWidths d ∧
    closed.length = k ∧ ∀ x ∈ closed, ((4 * d : Nat) : Int) < x := by
  induction k with
  | zero => exact ⟨[], rfl, rfl, by simp⟩
  | succ k ih =>
    obtain ⟨closed, he, hlen, hlt⟩ := ih
    refine ⟨((4 * (d + k + 1) : Nat) : Int) :: closed, ?_, by simp [hlen], fun x hx => ?_⟩
    · rw [List.cons_append, ← he]
      rfl
    · obtain rfl | hx := List.mem_cons.mp hx
      · omega
      · exact hlt x hx

namespace Offside

/-- How many blocks are open inside the outermost one. -/
def depth (s : Offside) : Nat := s.widths.length - 1

/-- The state with the same number of open blocks, each four columns deeper. -/
def even (s : Offside) : Offside := ⟨evenWidths s.depth, s.started⟩

variable {rules : LayoutRules} {s : Offside} {w : Int} {place : Place} {e : Emission} {d d' : Nat}
  {started : Bool} {marks : List LayoutMark} {l m : ContentLine}

/-- A turn without a fault changes the number of open blocks in one of the three ways. -/
theorem Turn.shift (h : Turn s w place e) (hb : e.breakdown = none)
    (hf : ∀ t ∈ e.tokens, t.tag ≠ .error) :
    Shift s.started s.depth (e.tokens.map LayoutToken.mark) e.state.depth := by
  cases h with
  | @deeper inner rest h hw =>
    have hd : s.depth + 1 = (Offside.mk (w :: s.widths) s.started).depth := by
      simp only [depth, h, List.length_cons]
      omega
    rw [← hd]
    exact .deeper _
  | level h =>
    have hmarks : (if s.started then [LayoutToken.mk .newline place] else []).map LayoutToken.mark =
        if s.started then [.newline] else [] := by
      split <;> rfl
    rw [hmarks]
    exact .level _
  | @shallower closed rest hc h hw =>
    obtain ⟨k, hk⟩ : ∃ k, closed.length = k + 1 :=
      Nat.exists_eq_add_one_of_ne_zero fun he => hc (List.eq_nil_of_length_eq_zero he)
    have hd : s.depth = (Offside.mk (w :: rest) s.started).depth + (k + 1) := by
      simp only [depth, h, List.length_append, List.length_cons]
      omega
    have hmarks : (closed.map fun _ => LayoutToken.mk .dedent place).map LayoutToken.mark =
        List.replicate (k + 1) .dedent := by
      rw [← hk, List.map_map]
      exact List.map_const
    rw [hmarks, hd]
    exact .shallower _ k
  | stray hc h hw ho hd => exact absurd rfl (hf _ (List.mem_append_right _ List.mem_cons_self))
  | untold hc h hw ho hd => exact nomatch hb

/-- A line of a text without faults is a shift and then its text. -/
theorem Stacked.line_shift (h : 1 ≤ rules.tabWidth) (hs : s.Stacked)
    (hb : (s.line rules l).breakdown = none) (hf : ∀ t ∈ (s.line rules l).tokens, t.tag ≠ .error) :
    ∃ front, (s.line rules l).tokens = front ++ [l.token] ∧ (s.line rules l).state.started = true ∧
      Shift s.started s.depth (front.map LayoutToken.mark) (s.line rules l).state.depth := by
  obtain ⟨w, e, -, -, hturn, hline⟩ := hs.line_eq h l
  rw [hline] at hb hf ⊢
  have hbe : (e.after (mixedFaults rules l)).breakdown = none :=
    (Emission.andThen_breakdown.mp hb).1
  rw [Emission.andThen_of_none hbe] at hf ⊢
  have hmixed : mixedFaults rules l = [] := List.eq_nil_iff_forall_not_mem.mpr fun t ht =>
    hf t (by simp [ht]) (by rw [LayoutToken.tag, mark_of_mem_mixedFaults ht]; rfl)
  rw [hmixed] at hf ⊢
  refine ⟨e.tokens, rfl, rfl, hturn.shift hbe fun t ht => hf t ?_⟩
  exact List.mem_append_left _ ht

/-- Lines that are each indented by four columns more shift in the same way. -/
theorem exists_indentTo_of_shift (h : Shift started d marks d') (place : Place) :
    ∃ tokens, indentTo ⟨evenWidths d, started⟩ (4 * d' : Nat) place =
      ⟨tokens, ⟨evenWidths d', started⟩, none⟩ ∧ tokens.map LayoutToken.mark = marks := by
  cases h with
  | deeper =>
    obtain ⟨rest, hr⟩ := evenWidths_eq_cons d
    refine ⟨[⟨.indent, place⟩], ?_, rfl⟩
    rw [indentTo, hr]
    simp only
    rw [if_pos (by omega), ← hr]
    rfl
  | level =>
    obtain ⟨rest, hr⟩ := evenWidths_eq_cons d
    refine ⟨if started then [⟨.newline, place⟩] else [], ?_, by split <;> rfl⟩
    rw [indentTo, hr]
    simp only [Int.lt_irrefl, if_false, if_true]
  | shallower _ k =>
    obtain ⟨closed, he, hlen, hlt⟩ := evenWidths_eq_append d' (k + 1)
    obtain ⟨rest, hr⟩ := evenWidths_eq_cons d'
    have hpos : ∀ x ∈ closed, decide (((4 * d' : Nat) : Int) < x) = true := fun x hx => by
      simpa using hlt x hx
    have hstop : ∀ xs : List Int, (((4 * d' : Nat) : Int) :: xs).takeWhile
        (((4 * d' : Nat) : Int) < ·) = [] := fun xs => by simp
    have hdrop : ∀ xs : List Int, (((4 * d' : Nat) : Int) :: xs).dropWhile
        (((4 * d' : Nat) : Int) < ·) = ((4 * d' : Nat) : Int) :: xs := fun xs => by simp
    refine ⟨closed.map fun _ => ⟨.dedent, place⟩, ?_, ?_⟩
    · rw [indentTo, he]
      obtain ⟨x, closed', rfl⟩ := List.exists_cons_of_length_eq_add_one hlen
      have hx := hlt x List.mem_cons_self
      simp only [List.cons_append]
      rw [if_neg (by omega), if_neg (by omega), ← List.cons_append,
        List.takeWhile_append_of_pos hpos, List.dropWhile_append_of_pos hpos, hr, hstop, hdrop,
        List.append_nil]
      simp only [if_true]
    · rw [List.map_map, ← hlen]
      exact List.map_const

theorem exists_line_of_shift (h : Shift started d marks d') (rules : LayoutRules) {c : List Char}
    (hm : IsLineOf m (d', c)) : ∃ tokens, line rules m ⟨evenWidths d, started⟩ =
      ⟨tokens, ⟨evenWidths d', true⟩, none⟩ ∧
        tokens.map LayoutToken.mark = marks ++ [.text c] := by
  obtain ⟨tokens, ht, hmarks⟩ := exists_indentTo_of_shift h m.place.opening
  refine ⟨tokens ++ [⟨.text m.content, m.place⟩], ?_, ?_⟩
  · rw [line_eq_of_replicate hm.1, ht, Emission.andThen_of_none rfl]
    rfl
  · have hc : m.content = c := hm.2
    rw [List.map_append, hmarks, ← hc]
    rfl

end Offside

end NovelScript
