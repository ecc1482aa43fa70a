import NovelScript.Proofs.OpenBlocks
import NovelScript.Proofs.Step

/-!
# The depth of an assembly

An assembly has as many open blocks as the offside rule has: each opening adds one and each closing
takes one away. A choice stands inside the block of its menu, so its own block counts twice. When
the last statement is complete, as many closings as the depth says complete the script.
-/

namespace NovelScript

/-- How many blocks the block below a line adds to the blocks around the whole statement. -/
def Owner.levels : Owner → Nat
  | choice .. => 2
  | _ => 1

/-- How many blocks of a statement that is being read are open. -/
def Stage.levels : Stage → Nat
  | block (.choice ..) | caption _ | captioned _ | choice _ | chosen _ => 1
  | _ => 0

theorem Owner.levels_pos (owner : Owner) : 1 ≤ owner.levels := by
  cases owner <;> simp [levels]

theorem Owner.levels_close (owner : Owner) (block : Block) :
    (owner.close block).levels + 1 = owner.levels := by
  cases owner <;> rfl

theorem Stage.levels_block (owner : Owner) : (Stage.block owner).levels + 1 = owner.levels := by
  cases owner <;> rfl

theorem Head.levels_stage (h : Head) : h.stage.levels = 0 := by
  cases h <;> rfl

theorem Stage.levels_of_statement? {g : Stage} {s : Statement} (h : g.statement? = some s) :
    g.levels = 0 := by
  cases g <;> simp_all [statement?, levels]

theorem Stage.levels_of_menu? {g : Stage} {m : OpenMenu} (h : g.menu? = some m) :
    g.levels = 1 := by
  cases g <;> simp_all [menu?, levels]

theorem LayoutToken.Reads.rise {α : Type} {t : LayoutToken} {reader : Reader α} {x : α}
    (h : t.Reads reader x) : t.mark.rise = 0 := by
  obtain ⟨content, c, hm, -⟩ := h
  rw [hm]
  rfl

namespace Assembly

variable {a b : Assembly} {t : LayoutToken} {ts : List LayoutToken} {s : Statement}

/-- How many blocks the lines around the innermost sequence of statements add. -/
def outerLevels : List (Owner × List Statement) → Nat
  | [] => 0
  | (owner, _) :: outer => owner.levels + outerLevels outer

/-- How many blocks of the layout are open. -/
def depth (a : Assembly) : Nat := a.stage.levels + outerLevels a.outer

theorem depth_of_step (h : Step a t b) : (b.depth : Int) = a.depth + t.mark.rise := by
  unfold depth
  cases h with
  | first hs hr =>
    rw [hs, hr.rise, Head.levels_stage]
    simp [Stage.levels]
  | next hs hc hr => simp [hr.rise, Head.levels_stage, Stage.levels_of_statement? hs]
  | separate hs hc ht => simp [hs, ht, Stage.levels, LayoutMark.rise]
  | @close s owner done outer hs ho ht =>
    have hl := owner.levels_close ⟨a.done ++ [s], Parser.extentOf (a.done ++ [s])⟩
    simp only [Stage.levels_of_statement? hs, ho, ht, LayoutMark.rise, outerLevels]
    omega
  | elif hs hl hr => simp [hs, hr.rise, Stage.levels]
  | otherwise hs hl hr => simp [hs, hr.rise, Stage.levels]
  | @enter owner hs ht =>
    have hl := Stage.levels_block owner
    rw [hs, ht, outerLevels, ← hl]
    simp only [LayoutMark.rise, show Stage.line.levels = 0 from rfl]
    omega
  | enterMenu hs ht =>
    simp only [hs, ht, LayoutMark.rise, Stage.levels]
    omega
  | caption hs hr => simp [hs, hr.rise, Stage.levels]
  | captioned hs ht => simp [hs, ht, LayoutMark.rise, Stage.levels]
  | choice hs hr =>
    rw [Stage.levels_of_menu? hs, hr.rise]
    simp [Stage.levels]
  | leave hs ht =>
    simp only [hs, ht, LayoutMark.rise, Stage.levels]
    omega

theorem depth_of_run (h : a.run ts = some b) : (b.depth : Int) = a.depth + riseOf ts := by
  induction ts generalizing a with
  | nil =>
    cases h
    simp
  | cons t ts ih =>
    obtain ⟨c, hm, hc⟩ := run_cons.mp h
    rw [ih hc, depth_of_step (step_of_move hm), riseOf_cons]
    omega

theorem move_dedent {owner : Owner} {done : List Statement}
    {outer : List (Owner × List Statement)} (hs : a.stage.statement? = some s)
    (ho : a.outer = (owner, done) :: outer) (ht : t.mark = .dedent) :
    a.move t =
      .on ⟨owner.close ⟨a.done ++ [s], Parser.extentOf (a.done ++ [s])⟩, done, outer⟩ := by
  have htag : t.tag = .dedent := by rw [LayoutToken.tag, ht]; rfl
  have hend : a.onEnd s t =
      .on ⟨owner.close ⟨a.done ++ [s], Parser.extentOf (a.done ++ [s])⟩, done, outer⟩ := by
    simp [onEnd, closer, close, ho, htag]
  have hmove : a.move t = a.take t := move_of_ne (by simp [htag])
  rw [hmove, take]
  cases hst : a.stage <;> simp_all [Stage.statement?, onElif, onElse, lookAt]

theorem move_eof (hs : a.stage.statement? = some s) (ho : a.outer = []) (ht : t.mark = .eof) :
    a.move t = .complete (a.done ++ [s]) := by
  have htag : t.tag = .eof := by rw [LayoutToken.tag, ht]; rfl
  have hend : a.onEnd s t = .complete (a.done ++ [s]) := by
    simp [onEnd, closer, close, ho, htag]
  have hmove : a.move t = a.take t := move_of_ne (by simp [htag])
  rw [hmove, take]
  cases hst : a.stage <;> simp_all [Stage.statement?, onElif, onElse, lookAt]

/-- The last statement is complete, or the last choice of the menu that is being read. -/
def Settled (a : Assembly) : Prop := (∃ s, a.stage.statement? = some s) ∨ ∃ m, a.stage = .chosen m

theorem settled_close (owner : Owner) (block : Block) (done : List Statement)
    (outer : List (Owner × List Statement)) : Settled ⟨owner.close block, done, outer⟩ := by
  cases owner with
  | choice => exact .inr ⟨_, rfl⟩
  | _ => exact .inl ⟨_, rfl⟩

/-- Closings take a settled assembly of some depth to a settled one that is less deep. -/
theorem exists_move_dedent (h : a.Settled) (hd : 0 < a.depth) (ht : t.mark = .dedent) :
    ∃ b, a.move t = .on b ∧ b.Settled := by
  obtain ⟨s, hs⟩ | ⟨m, hs⟩ := h
  · cases ho : a.outer with
    | nil => simp [depth, outerLevels, ho, Stage.levels_of_statement? hs] at hd
    | cons top outer => exact ⟨_, move_dedent hs ho ht, settled_close _ _ _ _⟩
  · refine ⟨{ a with stage := .after m.statement }, ?_, .inl ⟨_, rfl⟩⟩
    simp [move, take, hs, ht]

/-- A settled assembly is completed by as many closings as blocks are open. -/
theorem finish_closings (h : a.Settled) (place : Place) : ∃ ss,
    a.finish (List.replicate a.depth ⟨.dedent, place⟩ ++ [⟨.eof, place⟩]) = .ok ss := by
  generalize hn : a.depth = n
  induction n generalizing a with
  | zero =>
    obtain ⟨s, hs⟩ | ⟨m, hs⟩ := h
    · have ho : a.outer = [] := by
        cases ho : a.outer with
        | nil => rfl
        | cons top outer =>
          have hl := top.1.levels_pos
          simp only [depth, ho, outerLevels] at hn
          omega
      refine ⟨a.done ++ [s], ?_⟩
      simp [finish, move_eof hs ho]
    · simp [depth, hs, Stage.levels] at hn
  | succ n ih =>
    obtain ⟨b, hm, hb⟩ := exists_move_dedent (t := ⟨.dedent, place⟩) h (by omega) rfl
    have hd := depth_of_step (step_of_move hm)
    simp only [LayoutMark.rise] at hd
    obtain ⟨ss, hss⟩ := ih hb (by omega)
    refine ⟨ss, ?_⟩
    rw [List.replicate_succ, List.cons_append, finish_of_on hm, hss]

end Assembly

end NovelScript
