import NovelScript.Proofs.Moves
import NovelScript.Proofs.Moving
import NovelScript.Proofs.Parallel

/-!
# Assemblies elsewhere

An assembly takes the same steps when its lines stand elsewhere and when other statements were read
before its own. In the first case everything it has read is moved by the distance, in the second
one the other statements stand before its own ones in the outermost sequence.
-/

namespace NovelScript

open Line

variable {k : Distance}

namespace Likeness

/-- What stands in a text, and the same elsewhere. -/
def moved (k : Distance) : Likeness where
  place p p' := p' = p.moved k
  span s s' := s' = s.moved k
  cause := Eq
  strict := True
  span_of_place := by
    rintro p _ rfl
    exact p.moved_span k
  cover := by
    rintro a _ b _ rfl rfl
    exact (Span.moved_cover k a b).symm

theorem tokens_moved (k : Distance) (t : LayoutToken) : (moved k).Tokens t (t.moved k) := by
  obtain ⟨m, p⟩ := t
  cases m with
  | text content =>
    have htoken : LayoutToken.moved k ⟨.text content, p⟩ = ⟨.text (content ++ []), p.moved k⟩ := by
      rw [List.append_nil]
      rfl
    have hplace : ∀ i n : Nat, (p.moved k).stretch i n = (p.stretch i n).moved k := by
      intro i n
      simp only [Place.stretch, Place.moved, Place.mk.injEq, true_and]
      omega
    rw [htoken]
    exact .line ⟨content, [], p, p.moved k, rfl, fun _ => rfl, rfl, fun _ => hplace _ _⟩
  | fault c => exact .fault rfl rfl
  | _ => exact .same (by decide) rfl

end Likeness

/-! Trees that match a tree elsewhere. -/

theorem Action.mapSpans_moved (a : Action) : a.mapSpans (Span.moved k) = a.moved k := by
  cases a <;> rfl

mutual

theorem Statement.mapSpans_moved : ∀ s : Statement, s.mapSpans (Span.moved k) = s.moved k
  | .simple a _ => by rw [Statement.mapSpans, Statement.moved, a.mapSpans_moved]
  | .label _ b _ | .loop _ b _ => by
    rw [Statement.mapSpans, Statement.moved, b.mapSpans_moved]
    rfl
  | .branch _ b es none _ => by
    rw [Statement.mapSpans, Statement.moved, b.mapSpans_moved, mapElifSpans_moved es]
    rfl
  | .branch _ b es (some o) _ => by
    rw [Statement.mapSpans, Statement.moved, b.mapSpans_moved, mapElifSpans_moved es,
      o.mapSpans_moved]
    rfl
  | .menu _ _ cs _ => by
    rw [Statement.mapSpans, Statement.moved, mapChoiceSpans_moved cs]
    rfl

theorem Block.mapSpans_moved : ∀ b : Block, b.mapSpans (Span.moved k) = b.moved k
  | ⟨ss, _⟩ => by rw [Block.mapSpans, Block.moved, mapAllSpans_moved ss]

theorem mapAllSpans_moved : ∀ ss : List Statement, mapAllSpans (Span.moved k) ss = movedAll k ss
  | [] => rfl
  | s :: ss => by rw [mapAllSpans, movedAll, s.mapSpans_moved, mapAllSpans_moved ss]

theorem mapElifSpans_moved : ∀ es : List ElifClause,
    mapElifSpans (Span.moved k) es = movedElifs k es
  | [] => rfl
  | ⟨_, b, _⟩ :: es => by
    rw [mapElifSpans, movedElifs, b.mapSpans_moved, mapElifSpans_moved es]
    rfl

theorem mapChoiceSpans_moved : ∀ cs : List Choice,
    mapChoiceSpans (Span.moved k) cs = movedChoices k cs
  | [] => rfl
  | ⟨_, _, b, _⟩ :: cs => by
    rw [mapChoiceSpans, movedChoices, b.mapSpans_moved, mapChoiceSpans_moved cs]
    rfl

end

theorem eq_moved_of_matches {ss ss' : List Statement}
    (h : List.Forall₂ (Statement.Matches (Likeness.moved k).span) ss ss') :
    ss' = ss.map (Statement.moved k) := by
  rw [eq_mapAllSpans_of_matches (fun _ _ hs => hs) h, mapAllSpans_moved, movedAll_eq_map]

/-- Lines that complete a script complete it elsewhere. -/
theorem Assembly.exists_elsewhere (k : Distance) {t u : LayoutToken} {ts : List LayoutToken}
    {head : Head} {c : Assembly} {ss : List Statement} (hr : t.Reads Reader.head head)
    (hrun : run ⟨head.stage, [], []⟩ ts = some c) (hc : c.move u = .complete ss) :
    ∃ head' c', (t.moved k).Reads Reader.head head' ∧
      run ⟨head'.stage, [], []⟩ (ts.map (LayoutToken.moved k)) = some c' ∧
      c'.move (u.moved k) = .complete (ss.map (Statement.moved k)) := by
  obtain ⟨head', hr', hhead⟩ := (Likeness.tokens_moved k t).exists_reads
    (fun _ => Likeness.LinePair.Follows.head) hr
  have htokens : List.Forall₂ (Likeness.moved k).Tokens ts (ts.map (LayoutToken.moved k)) :=
    List.forall₂_map_right_iff.mpr (List.forall₂_same.mpr fun t _ => Likeness.tokens_moved k t)
  have hstart : Matches (Likeness.moved k).span ⟨head.stage, [], []⟩ ⟨head'.stage, [], []⟩ :=
    ⟨hhead.stage, .nil, .nil⟩
  obtain ⟨c', hrun', hmatch⟩ := Likeness.exists_run_of_matches htokens hstart hrun
  have hmoves := Likeness.Moves.move hmatch (Likeness.tokens_moved k u)
  rw [hc] at hmoves
  generalize hm : c'.move (u.moved k) = m at hmoves
  cases hmoves with
  | complete hss =>
    rw [← eq_moved_of_matches hss]
    exact ⟨head', c', hr', hrun', hm⟩

/-! Other statements before the own ones. -/

/-- The statements of a sequence, with others before them if the sequence is the outermost. -/
def doneAfter (ss done : List Statement) : List (Owner × List Statement) → List Statement
  | [] => ss ++ done
  | _ :: _ => done

/-- The blocks around a sequence, with other statements before the outermost sequence. -/
def outerAfter (ss : List Statement) : List (Owner × List Statement) → List (Owner × List Statement)
  | [] => []
  | (owner, done) :: outer => (owner, doneAfter ss done outer) :: outerAfter ss outer

theorem doneAfter_concat (ss done : List Statement) (s : Statement)
    (outer : List (Owner × List Statement)) :
    doneAfter ss (done ++ [s]) outer = doneAfter ss done outer ++ [s] := by
  cases outer with
  | nil => exact (List.append_assoc ..).symm
  | cons => rfl

theorem isEmpty_outerAfter (ss : List Statement) (outer : List (Owner × List Statement)) :
    (outerAfter ss outer).isEmpty = outer.isEmpty := by
  cases outer <;> rfl

namespace Assembly

/-- The assembly that has read other statements before its own. -/
def after (ss : List Statement) (a : Assembly) : Assembly :=
  ⟨a.stage, doneAfter ss a.done a.outer, outerAfter ss a.outer⟩

end Assembly

def Move.after (ss : List Statement) : Move → Move
  | on a => .on (a.after ss)
  | complete statements => .complete (ss ++ statements)
  | m => m

namespace Assembly

section

variable {α : Type} {a b : Assembly} {t : LayoutToken} {ts : List LayoutToken} {ss : List Statement}

theorem readLine_after {reader : Reader α} {next next' : α → Move} {what : String}
    (h : ∀ x, next' x = (next x).after ss) :
    readLine reader next' what t = (readLine reader next what t).after ss := by
  unfold readLine
  split
  · split
    · exact h _
    · rfl
  · rfl

theorem require_after {tag : Tag} {next next' : Assembly} (h : next' = next.after ss) :
    require tag next' t = (require tag next t).after ss := by
  rw [h, require, require]
  split <;> rfl

theorem lookAt_after {reader : Reader Bool} {next next' other other' : LayoutToken → Move}
    (hn : next' t = (next t).after ss) (ho : other' t = (other t).after ss) :
    lookAt reader next' other' t = (lookAt reader next other t).after ss := by
  unfold lookAt
  split
  · split
    · exact hn
    · exact ho
    · rfl
  · exact ho

theorem closer_after (a : Assembly) : (a.after ss).closer = a.closer := by
  rw [closer, closer, after, isEmpty_outerAfter]

theorem onLine_after (ht : t.mark ≠ .eof) : (a.after ss).onLine t = (a.onLine t).after ss := by
  rw [onLine, onLine, if_neg fun h => ht h.1, if_neg fun h => ht h.1]
  exact readLine_after fun _ => rfl

theorem close_after (a : Assembly) : (a.after ss).close = a.close.after ss := by
  obtain ⟨stage, done, outer⟩ := a
  cases outer <;> rfl

theorem onEnd_after (ht : t.mark ≠ .eof) (s : Statement) :
    (a.after ss).onEnd s t = (a.onEnd s t).after ss := by
  have hnext : Assembly.mk .line ((a.after ss).done ++ [s]) (a.after ss).outer =
      (Assembly.mk .line (a.done ++ [s]) a.outer).after ss := by
    rw [after, after, doneAfter_concat]
  simp only [onEnd, hnext, closer_after]
  split
  · exact close_after _
  · split
    · exact onLine_after ht
    · exact require_after rfl

theorem after_mk (ss : List Statement) (g : Stage) :
    (Assembly.mk g [] []).after ss = ⟨g, ss, []⟩ :=
  congrArg (Assembly.mk g · []) (List.append_nil ss)

/-- An assembly moves on in the same way after other statements. -/
theorem move_after (ht : t.mark ≠ .eof) : (a.after ss).move t = (a.move t).after ss := by
  have hstage : (a.after ss).stage = a.stage := rfl
  unfold move
  split
  · rfl
  · rw [take, take, hstage]
    cases a.stage with
    | line => exact onLine_after ht
    | after s => exact onEnd_after ht s
    | clause b =>
      exact lookAt_after (readLine_after fun _ => rfl)
        (lookAt_after (readLine_after fun _ => rfl) (onEnd_after ht _))
    | block owner => exact require_after rfl
    | menu m => exact require_after rfl
    | caption m =>
      exact lookAt_after (readLine_after fun _ => rfl) (readLine_after fun _ => rfl)
    | captioned m =>
      simp only
      split
      · rfl
      · exact require_after rfl
    | choice m => exact readLine_after fun _ => rfl
    | chosen m =>
      simp only
      split
      · rfl
      · exact readLine_after fun _ => rfl

theorem run_after (ht : ∀ t ∈ ts, t.mark ≠ .eof) :
    (a.after ss).run ts = (a.run ts).map (after ss) := by
  induction ts generalizing a with
  | nil => rfl
  | cons t ts ih =>
    rw [run, run, move_after (ht t List.mem_cons_self)]
    cases a.move t with
    | on b => exact ih fun u hu => ht u (List.mem_cons_of_mem _ hu)
    | _ => rfl

theorem complete_after {us : List Statement} (h : a.move t = .complete us) :
    (a.after ss).move t = .complete (ss ++ us) := by
  obtain ⟨ht, ho, hcases⟩ := move_eq_complete_iff.mp h
  have hdone : (a.after ss).done = ss ++ a.done := by rw [after, ho]; rfl
  refine move_eq_complete_iff.mpr ⟨ht, by rw [after, ho]; rfl, ?_⟩
  obtain ⟨hs, hd, rfl⟩ | ⟨s, hs, rfl⟩ := hcases
  · exact .inl ⟨hs, by simp [hdone, hd], hdone.symm⟩
  · exact .inr ⟨s, hs, by rw [hdone, List.append_assoc]⟩

/-- After a step something was read. -/
theorem begun_of_step (h : Step a t b) (hs : b.stage = .line) (ho : b.outer = []) :
    b.done ≠ [] := by
  cases h with
  | @first head => cases head <;> cases hs
  | @next s head => cases head <;> cases hs
  | separate => simp
  | @close s owner => cases owner <;> cases hs
  | enter => cases ho
  | _ => cases hs

theorem begun_of_run (h : a.run (t :: ts) = some b) (hs : b.stage = .line) (ho : b.outer = []) :
    b.done ≠ [] := by
  obtain ⟨c, hm, hc⟩ := run_cons.mp h
  induction ts generalizing a t c with
  | nil =>
    cases hc
    exact begun_of_step (step_of_move hm) hs ho
  | cons u ts ih =>
    obtain ⟨d, hu, hd⟩ := run_cons.mp hc
    exact ih hc d hu hd

/-- What is completed after other statements is completed without them, if something was read. -/
theorem exists_complete_of_after {us : List Statement} (h : (a.after ss).move t = .complete us)
    (ha : a.stage = .line → a.outer = [] → a.done ≠ []) : ∃ vs, a.move t = .complete vs := by
  obtain ⟨ht, ho, hcases⟩ := move_eq_complete_iff.mp h
  have ho' : a.outer = [] := by
    rw [← List.isEmpty_iff, ← isEmpty_outerAfter ss, List.isEmpty_iff]
    exact ho
  obtain ⟨hs, -, -⟩ | ⟨s, hs, -⟩ := hcases
  · exact ⟨_, move_eq_complete_iff.mpr ⟨ht, ho', .inl ⟨hs, ha hs ho', rfl⟩⟩⟩
  · exact ⟨_, move_eq_complete_iff.mpr ⟨ht, ho', .inr ⟨s, hs, rfl⟩⟩⟩

end

end Assembly

end NovelScript
