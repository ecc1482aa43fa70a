import NovelScript.Proofs.HeadNodes
import NovelScript.Proofs.Tracking
import NovelScript.Proofs.TreeLines

/-!
# The lines of a script are read as its heads

Every content line of a script that was read is the head of a statement, of a clause, of a caption
or of a choice, and the tree has these heads in the same order.
-/

namespace NovelScript

/-- The token is a line that is read as the given one. -/
inductive LayoutToken.ReadsLine (t : LayoutToken) : HeadLine → Prop
  | head {h : Head} (hr : t.Reads Reader.head h) : ReadsLine t h.headLine
  | elif {condition : Expression} {keyword : Span}
    (hr : t.Reads Reader.elifHead (condition, keyword)) : ReadsLine t (.elif condition)
  | otherwise (hr : t.Reads Reader.elseHead ()) : ReadsLine t .otherwise
  | caption {line : Say} (hr : t.Reads Reader.captionHead (some line)) :
    ReadsLine t (.action (.say line))
  | choice {text : Lexeme} {condition : Option Expression}
    (hr : t.Reads Reader.choiceHead (text, condition)) :
    ReadsLine t (.choice (Reader.literalOf text) condition)

theorem LayoutToken.ReadsLine.tag {t : LayoutToken} {head : HeadLine} (h : t.ReadsLine head) :
    t.tag = .text := by
  cases h with
  | head hr | elif hr | otherwise hr | caption hr | choice hr => exact hr.tag

namespace Assembly

variable {a b : Assembly} {t : LayoutToken} {ts us : List LayoutToken}

/-- The lines among the tokens are read as those that the step adds. -/
def Grows (a : Assembly) (ts : List LayoutToken) (b : Assembly) : Prop :=
  ∃ heads, List.Forall₂ LayoutToken.ReadsLine (textsOf ts) heads ∧
    b.headLines = a.headLines ++ heads

theorem grows_of_line {head : HeadLine} (h : t.ReadsLine head)
    (hb : b.headLines = a.headLines ++ [head]) : a.Grows [t] b := by
  refine ⟨[head], ?_, hb⟩
  rw [textsOf_cons_of_text h.tag]
  exact .cons h .nil

theorem grows_of_mark {m : LayoutMark} (ht : t.mark = m) (hm : m.tag ≠ .text)
    (hb : b.headLines = a.headLines) : a.Grows [t] b := by
  refine ⟨[], ?_, by rw [hb, List.append_nil]⟩
  rw [textsOf_cons_of_ne (by rwa [LayoutToken.tag, ht])]
  exact .nil

/-- A step adds the line that its token is read as, if the token is a line. -/
theorem grows_of_step (h : Step a t b) (ha : a.Sound) : a.Grows [t] b := by
  cases h with
  | @first head hs hr =>
    refine grows_of_line (.head hr) ?_
    rw [headLines_head, ← hs]
  | @next s head hs hc hr =>
    refine grows_of_line (.head hr) ?_
    rw [headLines_head, headLines_statement hs]
  | @separate s hs hc ht =>
    refine grows_of_mark ht (by decide) (headLines_statement ?_)
    rw [hs, Stage.statement?]
  | close hs ho ht => exact grows_of_mark ht (by decide) (headLines_close hs ho _)
  | elif hs hl hr =>
    refine grows_of_line (.elif hr) ?_
    simp [headLines, hs, Stage.headLines, Owner.headLines]
  | otherwise hs hl hr =>
    refine grows_of_line (.otherwise hr) ?_
    simp [headLines, hs, Stage.headLines, Owner.headLines]
  | enter hs ht =>
    refine grows_of_mark ht (by decide) ?_
    simp [headLines, hs, Stage.headLines, outerHeadLines, headLinesAll]
  | enterMenu hs ht | captioned hs ht =>
    refine grows_of_mark ht (by decide) ?_
    simp [headLines, hs, Stage.headLines]
  | @caption m line hs hr =>
    have hm : (Stage.caption m).Sound := hs ▸ ha.stage
    exact grows_of_line (.caption hr) (headLines_caption hs hm line)
  | choice hs hr => exact grows_of_line (.choice hr) (headLines_choice hs _ _)
  | leave hs ht => exact grows_of_mark ht (by decide) (headLines_leave hs)

theorem Grows.trans {c : Assembly} (h : a.Grows ts b) (h' : b.Grows us c) :
    a.Grows (ts ++ us) c := by
  obtain ⟨heads, hread, hb⟩ := h
  obtain ⟨more, hmore, hc⟩ := h'
  refine ⟨heads ++ more, ?_, by rw [hc, hb, List.append_assoc]⟩
  rw [textsOf_append]
  exact List.rel_append hread hmore

theorem grows_of_run (h : a.run us = some b) (ha : Tracks ts a) (ho : Ordered (ts ++ us)) :
    a.Grows us b := by
  induction us generalizing ts a with
  | nil =>
    cases h
    exact ⟨[], .nil, (List.append_nil _).symm⟩
  | cons u us ih =>
    obtain ⟨c, hm, hc⟩ := run_cons.mp h
    have hstep := step_of_move hm
    have ho' : Ordered (ts ++ [u] ++ us) := by rwa [List.append_assoc]
    have hrest := ih hc (tracks_of_step hstep ha (ordered_of_append ho)) ho'
    exact (grows_of_step hstep ha.sound).trans hrest

/-- The lines of a complete script are those of its statements. -/
theorem headLines_of_complete {ss : List Statement} (h : a.move t = .complete ss) :
    a.headLines = headLinesAll ss := by
  obtain ⟨-, houter, hstage⟩ := move_eq_complete_iff.mp h
  rw [headLines, houter, outerHeadLines, List.nil_append]
  obtain ⟨hs, -, rfl⟩ | ⟨s, hs, rfl⟩ := hstage
  · rw [hs, Stage.headLines, List.append_nil]
  · rw [headLinesAll_append, headLinesAll_singleton, Stage.headLines_of_statement? hs]

end Assembly

namespace Script

variable {rules : LayoutRules} {text : List Char} {file : Option Path} {f : SourceFile}

/-- The content lines of a script that was read are read as the lines of its tree. -/
theorem readsLines_of_parse (h : parse rules text file = .ok f) :
    List.Forall₂ (fun l head => l.token.ReadsLine head) (contentLines text) f.headLines := by
  obtain ⟨front, place, a, -, hshape, hrun, hcomplete, -, -⟩ := exists_run_of_parse h
  obtain ⟨heads, hread, ha⟩ := Assembly.grows_of_run hrun Assembly.tracks_initial
    (Assembly.ordered_of_append (ordered_of_shaped hshape))
  have hinitial : Assembly.initial.headLines = [] := by
    simp [Assembly.headLines, Assembly.initial, outerHeadLines, Stage.headLines, headLinesAll]
  rw [Assembly.headLines_of_complete hcomplete, hinitial, List.nil_append] at ha
  rw [hshape.textsOf_front, List.forall₂_map_left_iff] at hread
  rw [SourceFile.headLines, ha]
  exact hread

theorem exists_line_of_mem_headLines (h : parse rules text file = .ok f) {head : HeadLine}
    (hh : head ∈ f.headLines) : ∃ l ∈ contentLines text, l.token.ReadsLine head := by
  have hread := readsLines_of_parse h
  obtain ⟨i, hi, rfl⟩ := List.getElem_of_mem hh
  exact ⟨_, List.getElem_mem (hread.length_eq ▸ hi), hread.get _ hi⟩

end Script

end NovelScript
