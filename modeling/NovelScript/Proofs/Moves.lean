import NovelScript.Proofs.Depth
import NovelScript.Proofs.Rereading

/-!
# Every step is a move

`Step` says what a token can do to an assembly by what its line holds, a move says it by what is
tried in turn. The two agree because no line passes for two things where only one of them is meant:
the line of a statement starts no clause, a clause starts with one keyword only, and a line that has
the text of a choice is not spoken.
-/

namespace NovelScript

open Line Text

namespace Assembly

section

variable {α : Type} {r : Reader α} {x : α} {a b : Assembly} {t : LayoutToken} {s : Statement}
  {m : OpenMenu}

theorem readLine_of_reads (h : t.Reads r x) (next : α → Move) (what : String) :
    readLine r next what t = next x := by
  obtain ⟨content, c, hm, hr⟩ := h
  simp only [readLine, hm, hr]

theorem lookAt_of_reads {r : Reader Bool} {found : Bool} (h : t.Reads r found)
    (next other : LayoutToken → Move) :
    lookAt r next other t = if found then next t else other t := by
  obtain ⟨content, c, hm, hr⟩ := h
  simp only [lookAt, hm, hr]
  cases found <;> rfl

theorem onLine_of_reads {h : Head} (hr : t.Reads Reader.head h) :
    a.onLine t = .on { a with stage := h.stage } := by
  have hne : t.mark ≠ .eof := by
    obtain ⟨content, c, hm, -⟩ := hr
    simp [hm]
  rw [onLine, if_neg fun he => hne he.1, readLine_of_reads hr]

/-- The line of a statement may follow a statement that owns blocks. -/
theorem onEnd_of_reads {h : Head} (hr : t.Reads Reader.head h) (hc : s.isCompound) :
    a.onEnd s t = .on ⟨h.stage, a.done ++ [s], a.outer⟩ := by
  have hclose : t.tag ≠ a.closer := by
    rw [hr.tag, closer]
    split <;> decide
  rw [onEnd]
  simp only [if_neg hclose, if_pos hc]
  rw [onLine_of_reads hr]

theorem onChoice_of_reads {text : Lexeme} {condition : Option Expression}
    (hr : t.Reads Reader.choiceHead (text, condition)) :
    a.onChoice m t = .on { a with stage := .block (.choice m text condition) } := by
  rw [onChoice, readLine_of_reads hr]

/-- The line of a statement starts no clause. -/
theorem reads_startsClause_of_head {h : Head} {k : String} (hr : t.Reads Reader.head h)
    (hk : Reader.IsClauseWord k) : t.Reads (Reader.startsClause k) false := by
  obtain ⟨content, c, hm, hr⟩ := hr
  obtain ⟨e, he⟩ := Reader.startsClause_of_head hk hr
  exact ⟨content, e, hm, he⟩

/-- A line that starts with one keyword starts no clause of another one. -/
theorem reads_startsClause_of_ne {k l : String} (hr : t.Reads (Reader.startsClause k) true)
    (hne : k.toList ≠ l.toList) : t.Reads (Reader.startsClause l) false := by
  obtain ⟨content, c, hm, hr⟩ := hr
  obtain ⟨next, e, hnext, hr⟩ := run_bind_eq_ok.mp hr
  rw [Reader.peekName_eq] at hnext
  cases hnext
  by_cases hk : name? (Cursor.ofContent content t.place).skipBlanks.rest = some k.toList
  · refine ⟨content, (Cursor.ofContent content t.place).skipBlanks, hm, ?_⟩
    unfold Reader.startsClause
    rw [run_bind_of_ok Reader.peekName_eq, hk, if_neg fun he => hne (Option.some.inj he)]
    rfl
  · rw [if_neg hk] at hr
    cases hr

theorem reads_say?_of_choiceHead {y : Lexeme × Option Expression}
    (hr : t.Reads Reader.choiceHead y) : t.Reads (Option.isSome <$> Reader.say?) false := by
  obtain ⟨content, c, hm, hr⟩ := hr
  obtain ⟨e, he⟩ := Reader.say?_of_choiceHead hr
  exact ⟨content, e, hm, by rw [run_map, he]; rfl⟩

theorem reads_say?_of_captionHead {line : Say} (hr : t.Reads Reader.captionHead (some line)) :
    t.Reads (Option.isSome <$> Reader.say?) true := by
  obtain ⟨content, c, hm, hr⟩ := hr
  obtain ⟨e, he⟩ := Reader.say?_of_captionHead hr
  exact ⟨content, e, hm, by rw [run_map, he]; rfl⟩

theorem isClauseWord_elif : Reader.IsClauseWord "elif" := by
  unfold Reader.IsClauseWord
  decide

theorem isClauseWord_else : Reader.IsClauseWord "else" := by
  unfold Reader.IsClauseWord
  decide

/-- Every step is a move. -/
theorem move_of_step (h : Step a t b) : a.move t = .on b := by
  cases h with
  | first hs hr =>
    rw [move_of_ne hr.ne_error, take, hs]
    exact onLine_of_reads hr
  | @next s head hs hc hr =>
    rw [move_of_ne hr.ne_error, take]
    cases hst : a.stage with
    | after s' =>
      rw [hst] at hs
      cases hs
      exact onEnd_of_reads hr hc
    | clause br =>
      rw [hst] at hs
      cases hs
      -- No clause starts like a statement, so both looks at the line find none.
      simp only [onElif]
      rw [lookAt_of_reads (reads_startsClause_of_head hr isClauseWord_elif), if_neg (by simp),
        onElse, lookAt_of_reads (reads_startsClause_of_head hr isClauseWord_else), if_neg (by simp)]
      exact onEnd_of_reads hr hc
    | _ => simp [hst, Stage.statement?] at hs
  | @separate s hs hc ht =>
    have htag : t.tag = .newline := by rw [LayoutToken.tag, ht]; rfl
    have hclose : t.tag ≠ a.closer := by
      rw [htag, closer]
      split <;> decide
    rw [move_of_ne (by simp [htag]), take, hs]
    simp only [onEnd]
    rw [if_neg hclose, if_neg hc, require, if_pos htag]
  | close hs ho ht => exact move_dedent hs ho ht
  | elif hs hl hr =>
    rw [move_of_ne hr.ne_error, take, hs]
    simp only [onElif]
    rw [lookAt_of_reads hl, if_pos rfl, readLine_of_reads hr]
  | otherwise hs hl hr =>
    have helif := reads_startsClause_of_ne (l := "elif") hl (by decide)
    rw [move_of_ne hr.ne_error, take, hs]
    simp only [onElif]
    rw [lookAt_of_reads helif, if_neg (by simp), onElse, lookAt_of_reads hl, if_pos rfl,
      readLine_of_reads hr]
  | enter hs ht =>
    simp only [move, take, hs, ht, require, LayoutToken.tag, LayoutMark.tag, if_true]
  | enterMenu hs ht =>
    simp only [move, take, hs, ht, require, LayoutToken.tag, LayoutMark.tag, if_true]
  | caption hs hr =>
    rw [move_of_ne hr.ne_error, take, hs]
    simp only
    rw [lookAt_of_reads (reads_say?_of_captionHead hr), if_pos rfl, readLine_of_reads hr]
  | captioned hs ht =>
    simp only [move, take, hs, ht, require, LayoutToken.tag, LayoutMark.tag, if_true, reduceCtorEq,
      if_false]
  | @choice m text condition hs hr =>
    have hne : t.mark ≠ .dedent := by
      obtain ⟨content, c, hm, -⟩ := hr
      simp [hm]
    rw [move_of_ne hr.ne_error, take]
    cases hst : a.stage with
    | caption m' =>
      rw [hst] at hs
      cases hs
      simp only
      rw [lookAt_of_reads (reads_say?_of_choiceHead hr), if_neg (by simp)]
      exact onChoice_of_reads hr
    | choice m' =>
      rw [hst] at hs
      cases hs
      exact onChoice_of_reads hr
    | chosen m' =>
      rw [hst] at hs
      cases hs
      simp only [if_neg hne]
      exact onChoice_of_reads hr
    | _ => simp [hst, Stage.menu?] at hs
  | leave hs ht => simp only [move, take, hs, ht, if_true]

/-- The steps of an assembly are the moves that take it on. -/
theorem move_eq_on_iff : a.move t = .on b ↔ Step a t b := ⟨step_of_move, move_of_step⟩

/-- The end completes a script in which no block is open and no line is left unfinished. -/
theorem move_eq_complete_iff {ss : List Statement} : a.move t = .complete ss ↔
    t.mark = .eof ∧ a.outer = [] ∧ ((a.stage = .line ∧ a.done ≠ [] ∧ ss = a.done) ∨
      ∃ s, a.stage.statement? = some s ∧ ss = a.done ++ [s]) := by
  constructor
  · intro h
    have ho := outcome_move a t
    rw [h] at ho
    cases ho with
    | ended hs hd ho ht => exact ⟨ht, ho, .inl ⟨hs, hd, rfl⟩⟩
    | endedAfter hs ho ht => exact ⟨ht, ho, .inr ⟨_, hs, rfl⟩⟩
  · rintro ⟨ht, ho, ⟨hs, hd, rfl⟩ | ⟨s, hs, rfl⟩⟩
    · simp [move, take, hs, onLine, ho, ht, hd]
    · exact move_eof hs ho ht

end

end Assembly

end NovelScript
