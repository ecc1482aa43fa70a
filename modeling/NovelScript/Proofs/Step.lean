import NovelScript.Proofs.Agreement
import NovelScript.Proofs.Locality

/-!
# The steps of an assembly

`Step` lists the ways in which a token takes an assembly on to the next one, and `Outcome` adds the
ways in which a script ends or a token does not fit. Every move of an assembly is one of them, so
properties of whole layouts are proved by cases on a step and by induction along a run.
-/

namespace NovelScript

/-- The statement that is complete unless a further clause follows. -/
def Stage.statement? : Stage → Option Statement
  | after s => some s
  | clause b => some (b.statement none)
  | _ => none

/-- The menu that the next line may give a choice. -/
def Stage.menu? : Stage → Option OpenMenu
  | caption m | choice m | chosen m => some m
  | _ => none

/-- The token is a line in which the reader finds `x`. -/
def LayoutToken.Reads {α : Type} (t : LayoutToken) (reader : Reader α) (x : α) : Prop :=
  ∃ content c, t.mark = .text content ∧ reader (.ofContent content t.place) = .ok x c

theorem LayoutToken.Reads.tag {α : Type} {t : LayoutToken} {reader : Reader α} {x : α}
    (h : t.Reads reader x) : t.tag = .text := by
  obtain ⟨content, c, hm, -⟩ := h
  rw [LayoutToken.tag, hm]
  rfl

theorem LayoutToken.Reads.ne_error {α : Type} {t : LayoutToken} {reader : Reader α} {x : α}
    (h : t.Reads reader x) : t.tag ≠ .error := by
  rw [h.tag]
  decide

namespace Assembly

/-- The token `t` takes the assembly on to another one. -/
inductive Step (a : Assembly) (t : LayoutToken) : Assembly → Prop
  | first {h : Head} (hs : a.stage = .line) (hr : t.Reads Reader.head h) :
    Step a t { a with stage := h.stage }
  | next {s : Statement} {h : Head} (hs : a.stage.statement? = some s) (hc : s.isCompound)
    (hr : t.Reads Reader.head h) : Step a t ⟨h.stage, a.done ++ [s], a.outer⟩
  | separate {s : Statement} (hs : a.stage = .after s) (hc : ¬s.isCompound)
    (ht : t.mark = .newline) : Step a t ⟨.line, a.done ++ [s], a.outer⟩
  | close {s : Statement} {owner : Owner} {done : List Statement}
    {outer : List (Owner × List Statement)} (hs : a.stage.statement? = some s)
    (ho : a.outer = (owner, done) :: outer) (ht : t.mark = .dedent) :
    Step a t ⟨owner.close ⟨a.done ++ [s], Parser.extentOf (a.done ++ [s])⟩, done, outer⟩
  | elif {b : OpenBranch} {condition : Expression} {keyword : Span} (hs : a.stage = .clause b)
    (hl : t.Reads (Reader.startsClause "elif") true)
    (hr : t.Reads Reader.elifHead (condition, keyword)) :
    Step a t { a with stage := .block (.elif b condition keyword) }
  | otherwise {b : OpenBranch} (hs : a.stage = .clause b)
    (hl : t.Reads (Reader.startsClause "else") true) (hr : t.Reads Reader.elseHead ()) :
    Step a t { a with stage := .block (.otherwise b) }
  | enter {owner : Owner} (hs : a.stage = .block owner) (ht : t.mark = .indent) :
    Step a t ⟨.line, [], (owner, a.done) :: a.outer⟩
  | enterMenu {m : OpenMenu} (hs : a.stage = .menu m) (ht : t.mark = .indent) :
    Step a t { a with stage := .caption m }
  | caption {m : OpenMenu} {line : Say} (hs : a.stage = .caption m)
    (hr : t.Reads Reader.captionHead (some line)) :
    Step a t { a with stage := .captioned { m with caption := some line } }
  | captioned {m : OpenMenu} (hs : a.stage = .captioned m) (ht : t.mark = .newline) :
    Step a t { a with stage := .choice m }
  | choice {m : OpenMenu} {text : Lexeme} {condition : Option Expression}
    (hs : a.stage.menu? = some m) (hr : t.Reads Reader.choiceHead (text, condition)) :
    Step a t { a with stage := .block (.choice m text condition) }
  | leave {m : OpenMenu} (hs : a.stage = .chosen m) (ht : t.mark = .dedent) :
    Step a t { a with stage := .after m.statement }

/-- What a token can come to. -/
inductive Outcome (a : Assembly) (t : LayoutToken) : Move → Prop
  | on {b : Assembly} (h : Step a t b) : Outcome a t (.on b)
  | ended (hs : a.stage = .line) (hd : a.done ≠ []) (ho : a.outer = []) (ht : t.mark = .eof) :
    Outcome a t (.complete a.done)
  | endedAfter {s : Statement} (hs : a.stage.statement? = some s) (ho : a.outer = [])
    (ht : t.mark = .eof) : Outcome a t (.complete (a.done ++ [s]))
  | refuse (what : String) : Outcome a t (.refuse what)
  | astray {cause : LayoutFault} (ht : t.mark = .fault cause) :
    Outcome a t (.fault ⟨.layout cause, t.place.wideSpot⟩)
  | fault {content : List Char} {f : Fault} (ht : t.mark = .text content)
    (hf : f.LiesAhead (.ofContent content t.place)) : Outcome a t (.fault f)

section

variable {α : Type} {a : Assembly} {t : LayoutToken} {s : Statement}

theorem outcome_readLine {reader : Reader α} (hl : reader.Local) {next : α → Assembly}
    (what : String) (h : ∀ x, t.Reads reader x → Step a t (next x)) :
    Outcome a t (readLine reader (fun x => .on (next x)) what t) := by
  unfold readLine
  split
  · next content hm =>
    split
    · next x c hr => exact .on (h x ⟨content, c, hm, hr⟩)
    · next f c hr => exact .fault hm (hl.liesAhead hr)
  · exact .refuse what

theorem outcome_require {tag : Tag} {next : Assembly} (h : t.tag = tag → Step a t next) :
    Outcome a t (require tag next t) := by
  unfold require
  split
  · next ht => exact .on (h ht)
  · exact .refuse _

theorem outcome_lookAt {reader : Reader Bool} (hl : reader.Local) {next other : LayoutToken → Move}
    (hn : t.Reads reader true → Outcome a t (next t)) (ho : Outcome a t (other t)) :
    Outcome a t (lookAt reader next other t) := by
  unfold lookAt
  split
  · next content hm =>
    split
    · next c hr => exact hn ⟨content, c, hm, hr⟩
    · exact ho
    · next f c hr => exact .fault hm (hl.liesAhead hr)
  · exact ho

theorem mark_of_tag {t : LayoutToken} : (t.tag = .indent → t.mark = .indent) ∧
    (t.tag = .dedent → t.mark = .dedent) ∧ (t.tag = .newline → t.mark = .newline) ∧
    (t.tag = .eof → t.mark = .eof) := by
  unfold LayoutToken.tag
  cases t.mark <;> simp [LayoutMark.tag]

/-- A statement has to start, where no statement came before or a compound one did. -/
theorem outcome_head {b : Assembly} (h : ∀ head, t.Reads Reader.head head →
    Step a t { b with stage := head.stage })
    (he : t.mark = .eof → b.outer = [] → b.done ≠ [] → Outcome a t (.complete b.done)) :
    Outcome a t (b.onLine t) := by
  unfold onLine
  split
  · next ht =>
    split
    · exact .refuse _
    · next hd => exact he ht.1 ht.2 (by simpa using hd)
  · exact outcome_readLine Reader.Local.head _ h

theorem outcome_onEnd (hs : a.stage.statement? = some s)
    (hsep : ¬s.isCompound → a.stage = .after s) : Outcome a t (a.onEnd s t) := by
  unfold onEnd
  simp only
  split
  · next ht =>
    unfold close closer at *
    cases ho : a.outer with
    | nil =>
      simp only [ho, List.isEmpty_nil, if_true] at ht ⊢
      exact .endedAfter hs ho (mark_of_tag.2.2.2 ht)
    | cons top outer =>
      simp only [ho, List.isEmpty_cons] at ht ⊢
      exact .on (.close hs ho (mark_of_tag.2.1 ht))
  · next ht =>
    split
    · next hc =>
      refine outcome_head (fun _ hr => .next hs hc hr) fun he ho _ => ?_
      exact absurd (by simp [LayoutToken.tag, he, LayoutMark.tag, closer, show a.outer = [] from ho]) ht
    · next hc => exact outcome_require fun ht => .separate (hsep hc) hc (mark_of_tag.2.2.1 ht)

/-- A line that was found to be spoken gives a caption. -/
theorem exists_caption {caption : Option Say} (hl : t.Reads (Option.isSome <$> Reader.say?) true)
    (hr : t.Reads Reader.captionHead caption) : ∃ line, caption = some line := by
  obtain ⟨content, c, hm, hl⟩ := hl
  obtain ⟨content', d, hm', hr⟩ := hr
  rw [hm] at hm'
  cases hm'
  obtain ⟨found, hf, hsome⟩ := run_map_eq_ok.mp hl
  obtain ⟨line, e, hline, hend⟩ := run_bind_eq_ok.mp hr
  rw [hf] at hline
  cases hline
  obtain ⟨-, e', -, hpure⟩ := run_bind_eq_ok.mp hend
  cases hpure
  exact Option.isSome_iff_exists.mp hsome

theorem outcome_onChoice {m : OpenMenu} (hs : a.stage.menu? = some m) :
    Outcome a t (a.onChoice m t) :=
  outcome_readLine Reader.Composed.choiceHead.isLocal _ fun _ hr => .choice hs hr

/-- Every move is one of the listed outcomes. -/
theorem outcome_move (a : Assembly) (t : LayoutToken) : Outcome a t (a.move t) := by
  unfold move
  split
  · next cause hm => exact .astray hm
  · unfold take
    split
    · next hs => exact outcome_head (fun _ hr => .first hs hr) fun he ho hd => .ended hs hd ho he
    · next s hs => exact outcome_onEnd (by simp [hs, Stage.statement?]) fun _ => hs
    · next b hs =>
      have hend : a.stage.statement? = some (b.statement none) := by simp [hs, Stage.statement?]
      refine outcome_lookAt (Reader.Local.startsClause _)
        (fun hl =>
          outcome_readLine Reader.Composed.elifHead.isLocal _ fun _ hr => .elif hs hl hr) ?_
      refine outcome_lookAt (Reader.Local.startsClause _)
        (fun hl =>
          outcome_readLine Reader.Composed.elseHead.isLocal _ fun _ hr => .otherwise hs hl hr) ?_
      exact outcome_onEnd hend fun hc => absurd rfl hc
    · next owner hs => exact outcome_require fun ht => .enter hs (mark_of_tag.1 ht)
    · next m hs => exact outcome_require fun ht => .enterMenu hs (mark_of_tag.1 ht)
    · next m hs =>
      refine outcome_lookAt (Reader.Local.map Reader.Local.say?) (fun hl => ?_)
        (outcome_onChoice (by simp [hs, Stage.menu?]))
      refine outcome_readLine Reader.Local.captionHead _ fun caption hr => ?_
      obtain ⟨line, rfl⟩ := exists_caption hl hr
      exact .caption hs hr
    · next m hs =>
      split
      · exact .refuse _
      · exact outcome_require fun ht => .captioned hs (mark_of_tag.2.2.1 ht)
    · next m hs => exact outcome_onChoice (by simp [hs, Stage.menu?])
    · next m hs =>
      split
      · next ht => exact .on (.leave hs ht)
      · exact outcome_onChoice (by simp [hs, Stage.menu?])

theorem step_of_move {b : Assembly} (h : a.move t = .on b) : Step a t b := by
  have ho := outcome_move a t
  rw [h] at ho
  cases ho with
  | on hs => exact hs

/-- The end of a layout takes no assembly on. -/
theorem ne_eof_of_step {b : Assembly} (h : Step a t b) : t.mark ≠ .eof := by
  have hreads : ∀ {α : Type} {r : Reader α} {x : α}, t.Reads r x → t.mark ≠ .eof := by
    rintro α r x ⟨content, c, hm, -⟩
    simp [hm]
  cases h with
  | first _ hr | next _ _ hr | elif _ _ hr | otherwise _ _ hr | caption _ hr | choice _ hr =>
    exact hreads hr
  | separate _ _ ht | close _ _ ht | enter _ ht | enterMenu _ ht | captioned _ ht | leave _ ht =>
    simp [ht]

theorem mark_of_complete {ss : List Statement} (h : a.move t = .complete ss) : t.mark = .eof := by
  have ho := outcome_move a t
  rw [h] at ho
  cases ho with
  | ended hs hd ho ht => exact ht
  | endedAfter hs ho ht => exact ht

/-- No token is at fault because the script ends. -/
theorem faultClass_of_fault {f : Fault} (h : a.move t = .fault f) :
    f.cause.faultClass ≠ .premature := by
  have ho := outcome_move a t
  rw [h] at ho
  cases ho with
  | astray ht => simp [Cause.faultClass]
  | fault ht hf => obtain hc | hc := hf.faultClass <;> simp [hc]

end

/-- Carries an assembly through tokens that all fit. -/
def run (a : Assembly) : List LayoutToken → Option Assembly
  | [] => some a
  | t :: ts =>
    match a.move t with
    | .on b => b.run ts
    | _ => none

variable {a b : Assembly} {t : LayoutToken} {ts us : List LayoutToken}

theorem run_cons : a.run (t :: ts) = some b ↔ ∃ c, a.move t = .on c ∧ c.run ts = some b := by
  rw [run]
  cases a.move t <;> simp

theorem run_append : a.run (ts ++ us) = (a.run ts).bind fun b => b.run us := by
  induction ts generalizing a with
  | nil => rfl
  | cons t ts ih =>
    rw [List.cons_append, run, run]
    cases a.move t with
    | on b => exact ih
    | _ => rfl

/-- No token of a run is the end of a layout. -/
theorem ne_eof_of_mem_run (h : a.run ts = some b) (ht : t ∈ ts) : t.mark ≠ .eof := by
  induction ts generalizing a with
  | nil => cases ht
  | cons u ts ih =>
    obtain ⟨c, hm, hc⟩ := run_cons.mp h
    obtain rfl | ht := List.mem_cons.mp ht
    · exact ne_eof_of_step (step_of_move hm)
    · exact ih hc ht

/-- After tokens that all fit, the rest of the layout decides. -/
theorem finish_append_of_run (h : a.run ts = some b) (us : List LayoutToken) :
    a.finish (ts ++ us) = b.finish us := by
  induction ts generalizing a with
  | nil =>
    cases h
    rfl
  | cons t ts ih =>
    obtain ⟨c, hm, hc⟩ := run_cons.mp h
    rw [List.cons_append, finish_of_on hm, ih hc]

end Assembly

end NovelScript
