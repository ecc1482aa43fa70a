import NovelScript.Proofs.Continued
import NovelScript.Proofs.Depth
import NovelScript.Proofs.Indented

/-!
# Scripts that can be completed

A text that ends with a line feed can be completed to a script exactly when its lines all fit: the
offside rule reads them to their end and an assembly takes every token. If some token does not fit,
no continuation helps, and the fault is not that the script ended. If all fit, one or two spoken
lines complete what is still open.
-/

namespace NovelScript

open Line

/-- A spoken line that can stand in any block. -/
def fillerLine : List Char := ['"', 'a', '"']

/-- The line of a choice that can stand in any menu. -/
def fillerChoice : List Char := ['"', 'a', '"', ':']

theorem solid_fillerLine : Solid fillerLine := ⟨⟨'"', _, rfl, by decide, by decide⟩, by decide⟩

theorem solid_fillerChoice : Solid fillerChoice := ⟨⟨'"', _, rfl, by decide, by decide⟩, by decide⟩

namespace Reader

theorem head_fillerLine (place : Place) : ∃ action span c,
    head (.ofContent fillerLine place) = .ok (.simple action span) c := ⟨_, _, _, rfl⟩

theorem say?_fillerChoice (place : Place) : ∃ c,
    say? (.ofContent fillerChoice place) = .ok none c := ⟨_, rfl⟩

theorem opensBlock_of_colon {c : Cursor} (h : c.skipBlanks.rest = [':']) (construct : String) :
    ∃ d, opensBlock construct c = .ok () d := by
  have hp : punct ":".toList c = .ok (some (c.skipBlanks.take 1 (.punct [':'])).1)
      (c.skipBlanks.take 1 (.punct [':'])).2 := by
    rw [punct_eq (by decide), h, if_pos (by decide)]
    rfl
  have hr : (c.skipBlanks.take 1 (.punct [':'])).2.rest = [] := by
    have ht : (c.skipBlanks.take 1 (.punct [':'])).2.rest = c.skipBlanks.rest.drop 1 := by
      simp [Cursor.rest, Cursor.take]
    rw [ht, h]
    rfl
  have hs : (c.skipBlanks.take 1 (.punct [':'])).2.skipBlanks.rest = [] := by
    simp only [Cursor.rest, Cursor.skipBlanks, List.drop_eq_nil_iff] at hr ⊢
    omega
  refine ⟨(c.skipBlanks.take 1 (.punct [':'])).2.skipBlanks, ?_⟩
  rw [opensBlock, expectPunct, required, run_bind, run_bind, hp]
  simp [endOfLine, run_bind, atEnd_eq, hs]

theorem choiceHead_fillerChoice (place : Place) : ∃ text c,
    choiceHead (.ofContent fillerChoice place) = .ok (text, none) c := by
  have hl : ∃ l, string (.ofContent fillerChoice place) = .ok (some l)
      { Cursor.ofContent fillerChoice place with pos := 3, last := some l } := ⟨_, rfl⟩
  obtain ⟨l, hl⟩ := hl
  have hk : keyword "if".toList
      { Cursor.ofContent fillerChoice place with pos := 3, last := some l } =
        .ok none { Cursor.ofContent fillerChoice place with pos := 3, last := some l } := by
    rw [keyword_eq, if_neg (by rw [show name? _ = none from rfl]; exact nofun)]
    rfl
  have hd : ∃ d, opensBlock "menu choice"
      { Cursor.ofContent fillerChoice place with pos := 3, last := some l } = .ok () d :=
    opensBlock_of_colon rfl _
  obtain ⟨d, hd⟩ := hd
  refine ⟨l, d, ?_⟩
  rw [choiceHead, expectString, required, run_bind, run_bind, hl]
  simp only [run_pure, run_bind, hk, hd]

end Reader

namespace Assembly

variable {a b : Assembly} {t : LayoutToken} {ts us : List LayoutToken} {s : Statement}

/-- After a line an action is complete, or a block or the choices of a menu have to follow. -/
theorem stage_of_text {content : List Char} (h : Step a t b) (ht : t.mark = .text content) :
    (∃ s, b.stage = .after s ∧ ¬s.isCompound) ∨ (∃ owner, b.stage = .block owner) ∨
      (∃ m, b.stage = .menu m) ∨ ∃ m, b.stage = .captioned m := by
  have hhead : ∀ h : Head, (∃ s, h.stage = .after s ∧ ¬s.isCompound) ∨
      (∃ owner, h.stage = .block owner) ∨ (∃ m, h.stage = .menu m) ∨
        ∃ m, h.stage = .captioned m := by
    intro h
    cases h with
    | simple action span => exact .inl ⟨_, rfl, by simp [Statement.isCompound]⟩
    | label name keyword => exact .inr (.inl ⟨_, rfl⟩)
    | branch condition keyword => exact .inr (.inl ⟨_, rfl⟩)
    | loop condition keyword => exact .inr (.inl ⟨_, rfl⟩)
    | menu name keyword => exact .inr (.inr (.inl ⟨_, rfl⟩))
  cases h with
  | first hs hr => exact hhead _
  | next hs hc hr => exact hhead _
  | separate hs hc hm => simp [ht] at hm
  | close hs ho hm => simp [ht] at hm
  | elif hs hl hr => exact .inr (.inl ⟨_, rfl⟩)
  | otherwise hs hl hr => exact .inr (.inl ⟨_, rfl⟩)
  | enter hs hm => simp [ht] at hm
  | enterMenu hs hm => simp [ht] at hm
  | caption hs hr => exact .inr (.inr (.inr ⟨_, rfl⟩))
  | captioned hs hm => simp [ht] at hm
  | choice hs hr => exact .inr (.inl ⟨_, rfl⟩)
  | leave hs hm => simp [ht] at hm

/-- A token that does not fit refuses every layout that starts with the same lines, and not because
the layout ends. -/
theorem finish_of_run_none {front : List LayoutToken} {content : List Char} {place : Place}
    (hts : ts = front ++ [⟨.text content, place⟩]) (he : ∀ t ∈ ts, t.mark ≠ .eof)
    (h : a.run ts = none) :
    ∃ f : Fault, f.cause.faultClass ≠ .premature ∧ ∀ us, a.finish (ts ++ us) = .error f := by
  induction ts generalizing a front with
  | nil => simp at hts
  | cons t ts ih =>
    rw [run] at h
    cases hm : a.move t with
    | on b =>
      rw [hm] at h
      cases front with
      | nil =>
        obtain ⟨-, rfl⟩ := List.cons.inj hts
        exact absurd h (by simp [run])
      | cons u front =>
        obtain ⟨-, hts'⟩ := List.cons.inj hts
        obtain ⟨f, hf, hfin⟩ := ih hts' (fun u hu => he u (List.mem_cons_of_mem _ hu)) h
        exact ⟨f, hf, fun us => by rw [List.cons_append, finish_of_on hm, hfin us]⟩
    | complete ss => exact absurd (mark_of_complete hm) (he t List.mem_cons_self)
    | refuse what =>
      refine ⟨⟨.unexpected what t.found, t.place.wideSpot⟩, by simp [Cause.faultClass], fun us => ?_⟩
      -- The line at the end is still ahead, so the token is not refused for the end of the layout.
      have hended : Progress.isEnded { rest := t :: ts ++ us } = false := by
        rw [hts]
        simp [Progress.isEnded]
      rw [List.cons_append, finish, hm]
      simp only
      rw [Progress.refusal, ← List.cons_append, hended]
      rfl
    | fault f =>
      refine ⟨f, faultClass_of_fault hm, fun us => ?_⟩
      rw [List.cons_append, finish, hm]

/-- The end of a layout completes a script or leaves it incomplete. -/
theorem finish_of_isEnded (h : Progress.isEnded { rest := ts }) :
    (∃ ss, a.finish ts = .ok ss) ∨
      ∃ f : Fault, a.finish ts = .error f ∧ f.cause.faultClass = .premature := by
  have hrefuse : ∀ (p : Progress) what, p.isEnded → (p.refusal what).cause.faultClass = .premature := by
    intro p what hp
    rw [Progress.refusal, if_pos hp]
    rfl
  induction ts generalizing a with
  | nil =>
    rw [finish]
    have ho := outcome_move a (Progress.next { rest := [] })
    generalize a.move (Progress.next { rest := [] }) = m at ho
    cases ho with
    | on h' => exact .inr ⟨_, rfl, hrefuse _ _ rfl⟩
    | ended hs hd ho' ht => exact .inl ⟨_, rfl⟩
    | endedAfter hs ho' ht => exact .inl ⟨_, rfl⟩
    | refuse what => exact .inr ⟨_, rfl, hrefuse _ _ rfl⟩
    | astray ht => cases ht
    | fault ht hf => cases ht
  | cons t ts ih =>
    have hts : Progress.isEnded { rest := ts } := by
      simp only [Progress.isEnded, List.all_cons, Bool.and_eq_true] at h ⊢
      exact h.2
    have ht' : t.mark = .newline ∨ t.mark = .dedent ∨ t.mark = .eof := by
      simp only [Progress.isEnded, List.all_cons, Bool.and_eq_true, Bool.or_eq_true,
        decide_eq_true_eq] at h
      obtain ⟨(h | h) | h, -⟩ := h
      · exact .inl h
      · exact .inr (.inl h)
      · exact .inr (.inr h)
    rw [finish]
    have ho := outcome_move a t
    generalize a.move t = m at ho
    cases ho with
    | on h' => exact ih hts
    | ended hs hd ho' ht => exact .inl ⟨_, rfl⟩
    | endedAfter hs ho' ht => exact .inl ⟨_, rfl⟩
    | refuse what => exact .inr ⟨_, rfl, hrefuse _ _ h⟩
    | astray ht => rw [ht] at ht'; simp at ht'
    | fault ht hf => rw [ht] at ht'; simp at ht'

/-- The last line was that of an action. -/
def AfterAction (a : Assembly) : Prop := ∃ s, a.stage = .after s ∧ ¬s.isCompound

theorem run_fillerLine (ha : a.stage = .line) (place : Place) :
    ∃ b, a.run [⟨.text fillerLine, place⟩] = some b ∧ b.AfterAction := by
  obtain ⟨action, span, c, hr⟩ := Reader.head_fillerLine place
  refine ⟨{ a with stage := .after (.simple action span) }, ?_, _, rfl, by simp [Statement.isCompound]⟩
  rw [run_cons]
  refine ⟨_, ?_, rfl⟩
  simp only [move, take, ha, onLine, readLine, hr, reduceCtorEq, false_and, if_false, Head.stage]

theorem run_fillerBlock {owner : Owner} (ha : a.stage = .block owner) (place place' : Place) :
    ∃ b, a.run [⟨.indent, place⟩, ⟨.text fillerLine, place'⟩] = some b ∧ b.AfterAction := by
  obtain ⟨b, hb, hs⟩ := run_fillerLine (a := ⟨.line, [], (owner, a.done) :: a.outer⟩) rfl place'
  refine ⟨b, run_cons.mpr ⟨_, ?_, hb⟩, hs⟩
  simp only [move, take, ha, require, LayoutToken.tag, LayoutMark.tag, if_true]

theorem move_fillerChoice {m : OpenMenu} (ha : a.stage.menu? = some m) (place : Place) :
    ∃ b owner, a.move ⟨.text fillerChoice, place⟩ = .on b ∧ b.stage = .block owner := by
  obtain ⟨c, hsay⟩ := Reader.say?_fillerChoice place
  obtain ⟨text, c', hchoice⟩ := Reader.choiceHead_fillerChoice place
  refine ⟨{ a with stage := .block (.choice m text none) }, _, ?_, rfl⟩
  have hlook : (Option.isSome <$> Reader.say?) (.ofContent fillerChoice place) = .ok false c := by
    rw [run_map, hsay]
    rfl
  have hon : a.onChoice m ⟨.text fillerChoice, place⟩ =
      .on { a with stage := .block (.choice m text none) } := by
    simp only [onChoice, readLine, hchoice]
  rw [move, take]
  cases hst : a.stage <;> simp_all [Stage.menu?, lookAt]

/-- Two tokens take an open menu to the block of its next choice. -/
theorem run_fillerChoice {m : OpenMenu} {t : LayoutToken} (hm : a.move t = .on b)
    (hb : b.stage.menu? = some m) (place : Place) : ∃ c owner,
      a.run [t, ⟨.text fillerChoice, place⟩] = some c ∧ c.stage = .block owner := by
  obtain ⟨c, owner, hc, hs⟩ := move_fillerChoice hb place
  exact ⟨c, owner, run_cons.mpr ⟨b, hm, run_cons.mpr ⟨c, hc, rfl⟩⟩, hs⟩

/-- After these lines everything is read, and the last line was that of an action. -/
def Fits (rules : LayoutRules) (o : Offside) (a : Assembly) (ls : List ContentLine) : Prop :=
  (o.lines rules ls).breakdown = none ∧
    ∃ b, a.run (o.lines rules ls).tokens = some b ∧ b.AfterAction

/-- The line `content` after `n` spaces. -/
def spaced (number lineStart n : Nat) (content : List Char) : ContentLine :=
  ⟨number, lineStart, List.replicate n ' ', content⟩

theorem contentLinesFrom_indented {content : List Char} (hc : Solid content) (hn : '\n' ∉ content)
    (number lineStart n : Nat) :
    contentLinesFrom number lineStart (Text.lines (indented n content)) =
      [spaced number lineStart n content] := by
  rw [Text.lines_of_not_mem (not_mem_indented hn n)]
  simp only [contentLinesFrom, hc.ofLine?_indented]
  rfl

variable {rules : LayoutRules} {o : Offside} {n : Nat} {rest : List Int}

theorem fits_block {owner : Owner} (ho : o.widths = (n : Int) :: rest)
    (ha : a.stage = .block owner) (number lineStart : Nat) :
    a.Fits rules o [spaced number lineStart (n + 1) fillerLine] := by
  have hl : o.lines rules [spaced number lineStart (n + 1) fillerLine] =
      ⟨[⟨.indent, (spaced number lineStart (n + 1) fillerLine).place.opening⟩,
        ⟨.text fillerLine, (spaced number lineStart (n + 1) fillerLine).place⟩],
        ⟨((n + 1 : Nat) : Int) :: n :: rest, true⟩, none⟩ := by
    rw [Offside.lines, Offside.line_deeper (n := n + 1) rfl ho (by omega)]
    rfl
  rw [Fits, hl]
  exact ⟨rfl, run_fillerBlock ha _ _⟩

theorem fits_initial (number lineStart : Nat) : initial.Fits rules .initial
    (contentLinesFrom number lineStart (Text.lines (indented 0 fillerLine))) := by
  have hl : Offside.initial.lines rules [spaced number lineStart 0 fillerLine] =
      ⟨[⟨.text fillerLine, (spaced number lineStart 0 fillerLine).place⟩], ⟨[0], true⟩, none⟩ := by
    rw [Offside.lines, Offside.line_eq_of_replicate (n := 0) rfl]
    rfl
  rw [contentLinesFrom_indented solid_fillerLine (by decide), Fits, hl]
  exact ⟨rfl, run_fillerLine rfl _⟩

/-- A choice and its block follow a line when the line of the choice leads to a block. -/
theorem fits_choice {owner : Owner} {ts : List LayoutToken} {l : ContentLine} {tail : List Int}
    (hl : o.line rules l = ⟨ts, ⟨(n : Int) :: tail, true⟩, none⟩) (hr : a.run ts = some b)
    (hb : b.stage = .block owner) (number lineStart : Nat) :
    a.Fits rules o [l, spaced number lineStart (n + 1) fillerLine] := by
  have hblock : b.Fits rules ⟨(n : Int) :: tail, true⟩ [spaced number lineStart (n + 1) fillerLine] :=
    fits_block rfl hb number lineStart
  obtain ⟨hnone, c, hc, hs⟩ := hblock
  have he : o.lines rules [l, spaced number lineStart (n + 1) fillerLine] =
      (Offside.lines rules [spaced number lineStart (n + 1) fillerLine]
        ⟨(n : Int) :: tail, true⟩).after ts := by
    rw [Offside.lines, hl, Emission.andThen_of_none rfl]
  rw [Fits, he, Emission.after_breakdown, Emission.after_tokens, run_append, hr]
  exact ⟨hnone, c, hc, hs⟩

/-- Whatever the last line was, its statement is completed by one choice and one spoken line, by
the spoken line alone, or by nothing. -/
theorem exists_fits (rules : LayoutRules) (ho : o.Stacked) (hst : o.started = true)
    (ha : a.AfterAction ∨ (∃ owner, a.stage = .block owner) ∨ (∃ m, a.stage = .menu m) ∨
      ∃ m, a.stage = .captioned m) :
    ∃ u, ∀ number lineStart,
      a.Fits rules o (contentLinesFrom number lineStart (Text.lines u)) := by
  obtain ⟨w, rest, hw⟩ := List.exists_cons_of_ne_nil
    (fun h : o.widths = [] => by simpa [h] using ho.base)
  obtain ⟨n, rfl⟩ := Int.eq_ofNat_of_zero_le (ho.nonneg (hw ▸ List.mem_cons_self))
  have hboth : ∀ j k number lineStart, contentLinesFrom number lineStart
      (Text.lines (indented j fillerChoice ++ '\n' :: indented k fillerLine)) =
      [spaced number lineStart j fillerChoice,
        spaced (number + 1) (lineStart + (indented j fillerChoice).length + 1) k fillerLine] := by
    intro j k number lineStart
    rw [Text.lines_append, contentLinesFrom_append,
      contentLinesFrom_indented solid_fillerChoice (by decide),
      contentLinesFrom_indented solid_fillerLine (by decide),
      Text.lines_of_not_mem (not_mem_indented (by decide) j)]
    rfl
  obtain ha | ⟨owner, ha⟩ | ⟨m, ha⟩ | ⟨m, ha⟩ := ha
  · exact ⟨[], fun number lineStart => ⟨rfl, a, rfl, ha⟩⟩
  · refine ⟨indented (n + 1) fillerLine, fun number lineStart => ?_⟩
    rw [contentLinesFrom_indented solid_fillerLine (by decide)]
    exact fits_block hw ha _ _
  · refine ⟨indented (n + 1) fillerChoice ++ '\n' :: indented (n + 2) fillerLine,
      fun number lineStart => ?_⟩
    have hm : ∀ place, a.move ⟨.indent, place⟩ = .on { a with stage := .caption m } := fun place => by
      simp only [move, take, ha, require, LayoutToken.tag, LayoutMark.tag, if_true]
    obtain ⟨b, owner, hr, hb⟩ := run_fillerChoice (hm _) rfl _
    rw [hboth]
    exact fits_choice (Offside.line_deeper rfl hw (by omega)) hr hb _ _
  · refine ⟨indented n fillerChoice ++ '\n' :: indented (n + 1) fillerLine,
      fun number lineStart => ?_⟩
    have hm : ∀ place, a.move ⟨.newline, place⟩ = .on { a with stage := .choice m } := fun place => by
      simp only [move, take, ha, require, LayoutToken.tag, LayoutMark.tag, if_true, reduceCtorEq,
        if_false]
    obtain ⟨b, owner, hr, hb⟩ := run_fillerChoice (hm _) rfl _
    rw [hboth]
    exact fits_choice (Offside.line_level rfl hw hst) hr hb _ _

/-- After an action as many closings complete the script as blocks are open. -/
theorem finish_end (h : a.AfterAction) (hd : a.depth + 1 = o.widths.length) (hst : o.started = true)
    (text : List Char) (lastLine : Int) :
    ∃ ss, a.finish (o.finish text lastLine).tokens = .ok ss := by
  obtain ⟨s, hs, hc⟩ := h
  have hsettled : a.Settled := .inl ⟨s, by rw [hs]; rfl⟩
  unfold Offside.finish
  by_cases hl : o.widths.length > 1
  · simp only [if_pos hl]
    rw [show o.widths.length - 1 = a.depth by omega]
    exact finish_closings hsettled _
  · simp only [if_neg hl, hst, if_true]
    obtain ⟨place, hplace⟩ : ∃ place : Place, place =
      ⟨max lastLine 1, Text.tailLength text + 1, text.length, text.length⟩ := ⟨_, rfl⟩
    have houter : a.outer = [] := by
      cases ho : a.outer with
      | nil => rfl
      | cons top outer =>
        have hp := top.1.levels_pos
        simp only [depth, ho, outerLevels] at hd
        omega
    have hsep : a.move ⟨.newline, place⟩ = .on ⟨.line, a.done ++ [s], a.outer⟩ := by
      simp [move, take, hs, onEnd, closer, houter, hc, require, LayoutToken.tag, LayoutMark.tag]
    have hend : move ⟨.line, a.done ++ [s], a.outer⟩ ⟨.eof, place⟩ = .complete (a.done ++ [s]) := by
      simp [move, take, onLine, houter]
    refine ⟨a.done ++ [s], ?_⟩
    rw [← hplace, List.singleton_append, finish_of_on hsep, finish, hend]

end Assembly

theorem firstFault?_append (ts us : List LayoutToken) :
    firstFault? (ts ++ us) = (firstFault? ts).or (firstFault? us) := by
  induction ts with
  | nil => rfl
  | cons t ts ih =>
    rw [List.cons_append, firstFault?, firstFault?, ih]
    cases t.mark <;> rfl

theorem firstFault?_eq_none {ts : List LayoutToken} :
    firstFault? ts = none ↔ ∀ t ∈ ts, t.tag ≠ .error := by
  induction ts with
  | nil => simp [firstFault?]
  | cons t ts ih =>
    rw [firstFault?, List.forall_mem_cons, ← ih, LayoutToken.tag]
    cases t.mark <;> simp [LayoutMark.tag]

/-- Tokens that an assembly takes hold no fault. -/
theorem firstFault?_of_run {a b : Assembly} {ts : List LayoutToken} (h : a.run ts = some b) :
    firstFault? ts = none := by
  induction ts generalizing a with
  | nil => rfl
  | cons t ts ih =>
    obtain ⟨c, hm, hc⟩ := Assembly.run_cons.mp h
    have hr := ih hc
    rw [firstFault?]
    split
    · next cause ht => simp [Assembly.move, ht] at hm
    · exact hr

theorem faultClass_of_firstFault? {f : Fault} {ts : List LayoutToken} (h : firstFault? ts = some f) :
    f.cause.faultClass = .layout := by
  induction ts with
  | nil => simp [firstFault?] at h
  | cons t ts ih =>
    rw [firstFault?] at h
    split at h
    · cases h
      rfl
    · exact ih h

theorem isEnded_finish (o : Offside) (text : List Char) (lastLine : Int) :
    Progress.isEnded { rest := (o.finish text lastLine).tokens } := by
  unfold Offside.finish
  by_cases hl : o.widths.length > 1
  · simp [hl, Progress.isEnded]
  · by_cases hst : o.started <;> simp [hl, hst, Progress.isEnded]

theorem firstFault?_of_isEnded {ts : List LayoutToken} (h : Progress.isEnded { rest := ts }) :
    firstFault? ts = none := by
  induction ts with
  | nil => rfl
  | cons t ts ih =>
    simp only [Progress.isEnded, List.all_cons, Bool.and_eq_true, Bool.or_eq_true,
      decide_eq_true_eq] at h
    rw [firstFault?, ih h.2]
    obtain ⟨(h | h) | h, -⟩ := h <;> rw [h]

namespace Script

variable {rules : LayoutRules} {t : List Char} {a : Assembly} (file : Option Path)

/-- What the offside rule makes of the lines of a text. -/
def linesOf (rules : LayoutRules) (t : List Char) : Emission :=
  Offside.initial.lines rules (contentLines t)

theorem layout_eq_linesOf {tokens : List LayoutToken} : layout rules t = .ok tokens ↔
    (linesOf rules t).breakdown = none ∧ tokens = (linesOf rules t).tokens ++
      ((linesOf rules t).state.finish t (Text.lines t).length).tokens := layout_eq_ok

/-- All lines of the text fit, and `a` has taken them. -/
def Admits (rules : LayoutRules) (t : List Char) (a : Assembly) : Prop :=
  (linesOf rules t).breakdown = none ∧ Assembly.initial.run (linesOf rules t).tokens = some a

/-- The script is refused, but not because it ends too early. -/
def Hopeless (rules : LayoutRules) (t : List Char) (file : Option Path) : Prop :=
  ∃ e, parse rules t file = .error e ∧ ∀ r, e = .refused r → r.faultClass ≠ .premature

theorem linesOf_append (ht : t = [] ∨ t.getLast? = some '\n') (s : List Char) :
    linesOf rules (t ++ s) = (linesOf rules t).andThen
      (Offside.lines rules (contentLinesFrom (t.count '\n' + 1) t.length (Text.lines s))) := by
  rw [linesOf, contentLines_append ht, Offside.lines_append]
  rfl

theorem breakdown_linesOf_of_append (ht : t = [] ∨ t.getLast? = some '\n') {s : List Char}
    (hb : (linesOf rules (t ++ s)).breakdown = none) : (linesOf rules t).breakdown = none := by
  rw [linesOf_append ht] at hb
  exact (Emission.andThen_breakdown.mp hb).1

theorem keeps_linesOf (h : 1 ≤ rules.tabWidth) (t : List Char) :
    Offside.initial.Keeps (linesOf rules t) :=
  Offside.stacked_initial.keeps_lines h _

/-- The tokens of lines that were read are none, or they end with a text. -/
theorem tokens_linesOf (h : (linesOf rules t).breakdown = none) :
    (contentLines t = [] ∧ (linesOf rules t).tokens = []) ∨
      ((linesOf rules t).state.started = true ∧ ∃ front content place,
        (linesOf rules t).tokens = front ++ [⟨.text content, place⟩]) := by
  by_cases hc : contentLines t = []
  · exact .inl ⟨hc, by rw [linesOf, hc]; rfl⟩
  · exact .inr (Offside.lines_of_none hc h)

theorem firstFault?_of_admits (h : Admits rules t a) :
    firstFault? ((linesOf rules t).tokens ++ ((linesOf rules t).state.finish t
      (Text.lines t).length).tokens) = none := by
  rw [firstFault?_append, firstFault?_of_run h.2, firstFault?_of_isEnded (isEnded_finish _ _ _)]
  rfl

/-- A script is read when an assembly takes its layout up to the end, and the end completes it. -/
theorem parse_of_run {front : List LayoutToken} {place : Place} {ss : List Statement}
    (hl : layout rules t = .ok (front ++ [⟨.eof, place⟩]))
    (hrun : Assembly.initial.run front = some a) (hcomplete : a.move ⟨.eof, place⟩ = .complete ss) :
    parse rules t file = .ok ⟨ss, file, Parser.extentOf ss⟩ := by
  have hnone : firstFault? (front ++ [⟨.eof, place⟩]) = none := by
    rw [firstFault?_append, firstFault?_of_run hrun]
    rfl
  refine parse_of_finish file hl hnone ?_
  rw [Assembly.finish_append_of_run hrun]
  exact Assembly.finish_of_complete (p := { rest := [⟨.eof, place⟩] }) hcomplete

/-- A script of which the lines fit is read, or it ends too early. -/
theorem parse_of_admits (h : Admits rules t a) :
    (∃ f, parse rules t file = .ok f) ∨
      ∃ r, parse rules t file = .error (.refused r) ∧ r.faultClass = .premature := by
  have hf := firstFault?_of_admits h
  obtain ⟨hb, hr⟩ := h
  have hl := layout_eq_ok.mpr ⟨hb, rfl⟩
  have hfin := Assembly.finish_append_of_run hr ((linesOf rules t).state.finish t
    (Text.lines t).length).tokens
  obtain ⟨ss, hss⟩ | ⟨f, hf', hc⟩ := Assembly.finish_of_isEnded (a := a)
    (isEnded_finish (linesOf rules t).state t (Text.lines t).length)
  · exact .inl ⟨_, parse_of_finish file hl hf (hfin.trans hss)⟩
  · exact .inr ⟨_, parse_of_refused file hl hf (hfin.trans hf'), hc⟩

/-- A text with lines that do not fit cannot be continued to a script. -/
theorem hopeless_of_not_admits (h : 1 ≤ rules.tabWidth) (ht : t = [] ∨ t.getLast? = some '\n')
    (hn : ∀ a, ¬Admits rules t a) (s : List Char) : Hopeless rules (t ++ s) file := by
  cases hl : layout rules (t ++ s) with
  | error b => exact ⟨_, parse_of_breakdown file hl, fun r hr => by cases hr⟩
  | ok tokens =>
    obtain ⟨hb, htok⟩ := layout_eq_linesOf.mp hl
    cases hf : firstFault? tokens with
    | some f =>
      refine ⟨_, parse_of_fault file hl hf, fun r hr => ?_⟩
      cases hr
      simp [Fault.report, Report.located, Report.bare, faultClass_of_firstFault? hf]
    | none =>
      have hb' := breakdown_linesOf_of_append ht hb
      have hrun : Assembly.initial.run (linesOf rules t).tokens = none := by
        cases hr : Assembly.initial.run (linesOf rules t).tokens with
        | none => rfl
        | some a => exact absurd ⟨hb', hr⟩ (hn a)
      obtain ⟨-, hnil⟩ | ⟨-, front, content, place, hlast⟩ := tokens_linesOf hb'
      · rw [hnil] at hrun
        exact nomatch hrun
      · obtain ⟨f, hclass, hfin⟩ :=
          Assembly.finish_of_run_none hlast (keeps_linesOf h t).unended hrun
        obtain ⟨more, hmore⟩ : ∃ more, tokens = (linesOf rules t).tokens ++ more := by
          change tokens = (linesOf rules (t ++ s)).tokens ++ _ at htok
          rw [linesOf_append ht, Emission.andThen_of_none hb', Emission.after_tokens,
            List.append_assoc] at htok
          exact ⟨_, htok⟩
        refine ⟨_, parse_of_refused file hl hf (hmore ▸ hfin more), fun r hr => ?_⟩
        cases hr
        simpa [Fault.report, Report.located, Report.bare] using hclass

/-- A script is read when its lines fit and the last one is that of an action. -/
theorem exists_parse_of_admits (h : 1 ≤ rules.tabWidth) (ha : Admits rules t a)
    (hs : a.AfterAction) : ∃ f, parse rules t file = .ok f := by
  obtain ⟨hb, hr⟩ := ha
  have hk := keeps_linesOf h t
  have hd := Assembly.depth_of_run hr
  have hrise := hk.rise
  have hstarted : (linesOf rules t).state.started = true := by
    obtain ⟨-, hnil⟩ | ⟨hst, -⟩ := tokens_linesOf hb
    · rw [hnil] at hr
      cases hr
      obtain ⟨s, hs, -⟩ := hs
      simp [Assembly.initial] at hs
    · exact hst
  have hdepth : a.depth + 1 = (linesOf rules t).state.widths.length := by
    have h0 : Assembly.initial.depth = 0 := rfl
    have h1 : Offside.initial.widths.length = 1 := rfl
    omega
  obtain ⟨ss, hss⟩ := Assembly.finish_end hs hdepth hstarted t (Text.lines t).length
  exact ⟨_, parse_of_finish file (layout_eq_ok.mpr ⟨hb, rfl⟩) (firstFault?_of_admits ⟨hb, hr⟩)
    ((Assembly.finish_append_of_run hr _).trans hss)⟩

/-- A text of which the lines fit can be continued to a script. -/
theorem exists_continuation (h : 1 ≤ rules.tabWidth) (ht : t = [] ∨ t.getLast? = some '\n')
    (ha : Admits rules t a) : ∃ s f, parse rules (t ++ s) file = .ok f := by
  obtain ⟨hb, hr⟩ := ha
  have hfits : ∃ u, ∀ number lineStart, a.Fits rules (linesOf rules t).state
      (contentLinesFrom number lineStart (Text.lines u)) := by
    obtain ⟨hnil, -⟩ | ⟨hst, front, content, place, hlast⟩ := tokens_linesOf hb
    · have hinit : linesOf rules t = ⟨[], .initial, none⟩ := by
        rw [linesOf, hnil]
        rfl
      rw [hinit] at hr ⊢
      cases hr
      exact ⟨indented 0 fillerLine, fun number lineStart => Assembly.fits_initial _ _⟩
    · rw [hlast, Assembly.run_append] at hr
      obtain ⟨b, -, hb'⟩ := Option.bind_eq_some_iff.mp hr
      obtain ⟨c, hm, hc⟩ := Assembly.run_cons.mp hb'
      cases hc
      exact Assembly.exists_fits rules (keeps_linesOf h t).stacked hst
        (Assembly.stage_of_text (Assembly.step_of_move hm) rfl)
  obtain ⟨u, hu⟩ := hfits
  obtain ⟨hnone, b, hrun, hs⟩ := hu (t.count '\n' + 1) t.length
  refine ⟨u, exists_parse_of_admits file h (a := b) ⟨?_, ?_⟩ hs⟩
  · rw [linesOf_append ht]
    exact Emission.andThen_breakdown.mpr ⟨hb, hnone⟩
  · rw [linesOf_append ht, Emission.andThen_of_none hb, Emission.after_tokens,
      Assembly.run_append, hr]
    exact hrun

/-- A text that is empty or ends with a line feed is a script, or is refused because it ends too
early, exactly when it can be continued to a script. -/
theorem parse_or_premature_iff_exists_continuation (rules : LayoutRules) (h : 1 ≤ rules.tabWidth)
    (t : List Char) (ht : t = [] ∨ t.getLast? = some '\n') (file : Option Path) :
    ((∃ f, parse rules t file = .ok f) ∨
      ∃ r, parse rules t file = .error (.refused r) ∧ r.faultClass = .premature) ↔
    ∃ s f, parse rules (t ++ s) file = .ok f := by
  by_cases ha : ∃ a, Admits rules t a
  · obtain ⟨a, ha⟩ := ha
    exact ⟨fun _ => exists_continuation file h ht ha, fun _ => parse_of_admits file ha⟩
  · have hn := hopeless_of_not_admits file h ht (fun a hadm => ha ⟨a, hadm⟩)
    constructor
    · intro hp
      obtain ⟨e, he, hclass⟩ := hn []
      rw [List.append_nil] at he
      obtain ⟨f, hf⟩ | ⟨r, hr, hpre⟩ := hp
      · rw [he] at hf
        exact nomatch hf
      · rw [he] at hr
        exact absurd hpre (hclass r (Except.error.inj hr))
    · rintro ⟨s, f, hf⟩
      obtain ⟨e, he, -⟩ := hn s
      rw [he] at hf
      exact nomatch hf

/-- A comment alone is no script yet, but can be continued to one. -/
theorem exists_continuation_of_comment : ∃ s f, parse {} (['#', '\n'] ++ s) = .ok f :=
  (parse_or_premature_iff_exists_continuation {} (by decide) ['#', '\n'] (.inr rfl) none).mp
    (.inr ⟨_, rfl, rfl⟩)

end Script

end NovelScript
