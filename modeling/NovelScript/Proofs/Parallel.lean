import NovelScript.Proofs.Following
import NovelScript.Proofs.Step

/-!
# Assemblies of two readings

An assembly that reads the second of two layouts stays in step with one that reads the first, as
long as the tokens correspond. What they have read matches, they complete a script together, and
they meet the same faults.
-/

namespace NovelScript

open Line

section

variable (R : Span → Span → Prop)

structure OpenMenu.Matches (m m' : OpenMenu) : Prop where
  name : Option.Rel (LabelName.Matches R) m.name m'.name
  keyword : R m.keyword m'.keyword
  caption : Option.Rel (Say.Matches R) m.caption m'.caption
  choices : List.Forall₂ (Choice.Matches R) m.choices m'.choices

structure OpenBranch.Matches (b b' : OpenBranch) : Prop where
  condition : b.condition.Matches R b'.condition
  keyword : R b.keyword b'.keyword
  body : b.body.Matches R b'.body
  elifs : List.Forall₂ (ElifClause.Matches R) b.elifs b'.elifs

inductive Owner.Matches : Owner → Owner → Prop
  | label {n n' : LabelName} {s s' : Span} (hn : n.Matches R n') (hs : R s s') :
    Matches (.label n s) (.label n' s')
  | loop {c c' : Expression} {s s' : Span} (hc : c.Matches R c') (hs : R s s') :
    Matches (.loop c s) (.loop c' s')
  | branch {c c' : Expression} {s s' : Span} (hc : c.Matches R c') (hs : R s s') :
    Matches (.branch c s) (.branch c' s')
  | elif {b b' : OpenBranch} {c c' : Expression} {s s' : Span} (hb : b.Matches R b')
    (hc : c.Matches R c') (hs : R s s') : Matches (.elif b c s) (.elif b' c' s')
  | otherwise {b b' : OpenBranch} (hb : b.Matches R b') : Matches (.otherwise b) (.otherwise b')
  | choice {m m' : OpenMenu} {t t' : Lexeme} {c c' : Option Expression} (hm : m.Matches R m')
    (ht : (Reader.literalOf t).Matches R (Reader.literalOf t'))
    (hc : Option.Rel (Expression.Matches R) c c') : Matches (.choice m t c) (.choice m' t' c')

inductive Stage.Matches : Stage → Stage → Prop
  | line : Matches .line .line
  | after {s s' : Statement} (h : s.Matches R s') : Matches (.after s) (.after s')
  | clause {b b' : OpenBranch} (h : b.Matches R b') : Matches (.clause b) (.clause b')
  | block {o o' : Owner} (h : o.Matches R o') : Matches (.block o) (.block o')
  | menu {m m' : OpenMenu} (h : m.Matches R m') : Matches (.menu m) (.menu m')
  | caption {m m' : OpenMenu} (h : m.Matches R m') : Matches (.caption m) (.caption m')
  | captioned {m m' : OpenMenu} (h : m.Matches R m') : Matches (.captioned m) (.captioned m')
  | choice {m m' : OpenMenu} (h : m.Matches R m') : Matches (.choice m) (.choice m')
  | chosen {m m' : OpenMenu} (h : m.Matches R m') : Matches (.chosen m) (.chosen m')

structure Assembly.Matches (a a' : Assembly) : Prop where
  stage : a.stage.Matches R a'.stage
  done : List.Forall₂ (Statement.Matches R) a.done a'.done
  outer : List.Forall₂ (fun o o' => o.1.Matches R o'.1 ∧
    List.Forall₂ (Statement.Matches R) o.2 o'.2) a.outer a'.outer

end

theorem Assembly.matches_initial (R : Span → Span → Prop) : initial.Matches R initial :=
  ⟨.line, .nil, .nil⟩

namespace Likeness

variable (κ : Likeness)

/-- Tokens that correspond: two that say the same, two faults of the layout, or two lines. -/
inductive Tokens : LayoutToken → LayoutToken → Prop
  | same {m : LayoutMark} {p p' : Place} (hm : m.tag ≠ .text ∧ m.tag ≠ .error)
    (hp : κ.place p p') : Tokens ⟨m, p⟩ ⟨m, p'⟩
  | fault {c c' : LayoutFault} {p p' : Place} (hc : κ.cause c c') (hp : κ.place p p') :
    Tokens ⟨.fault c, p⟩ ⟨.fault c', p'⟩
  | line (K : κ.LinePair) : Tokens ⟨.text K.content, K.here⟩ ⟨.text (K.content ++ K.tail), K.there⟩

/-- Moves that come to the same. A fault need not be met again unless the likeness is strict. -/
inductive Moves : Move → Move → Prop
  | on {a a' : Assembly} (h : a.Matches κ.span a') : Moves (.on a) (.on a')
  | complete {ss ss' : List Statement} (h : List.Forall₂ (Statement.Matches κ.span) ss ss')
    (hne : ss ≠ []) : Moves (.complete ss) (.complete ss')
  | refuse (what : String) : Moves (.refuse what) (.refuse what)
  | fault {f : Fault} {m : Move} (h : κ.strict → ∃ f', m = .fault f' ∧ κ.Faults f f') :
    Moves (.fault f) m

variable {κ} {t t' : LayoutToken}

theorem Tokens.tag_eq (h : κ.Tokens t t') : t'.tag = t.tag := by
  cases h <;> rfl

theorem Tokens.place (h : κ.Tokens t t') : κ.place t.place t'.place := by
  cases h with
  | same hm hp => exact hp
  | fault hc hp => exact hp
  | line K => exact K.place

theorem Tokens.mark_iff (h : κ.Tokens t t') {m : LayoutMark} (hm : m.tag ≠ .text ∧ m.tag ≠ .error) :
    t.mark = m ↔ t'.mark = m := by
  cases h with
  | same => rfl
  | fault =>
    constructor <;>
    · rintro rfl
      exact absurd rfl hm.2
  | line =>
    constructor <;>
    · rintro rfl
      exact absurd rfl hm.1

end Likeness

/-! The parts of an assembly. -/

section

variable {κ : Likeness} {R : Span → Span → Prop}

open Likeness.LinePair.Follows (getLastD)

theorem forall₂_concat {α β : Type} {T : α → β → Prop} {xs : List α} {ys : List β} {a : α} {b : β}
    (h : List.Forall₂ T xs ys) (hab : T a b) : List.Forall₂ T (xs ++ [a]) (ys ++ [b]) :=
  List.rel_append h (.cons hab .nil)

theorem forall₂_span {α : Type} {T : α → α → Prop} {f : α → Span} {xs ys : List α}
    (h : List.Forall₂ T xs ys) (hf : ∀ x y, T x y → R (f x) (f y)) :
    List.Forall₂ R (xs.map f) (ys.map f) := by
  rw [List.forall₂_map_left_iff, List.forall₂_map_right_iff]
  exact h.imp hf

theorem OpenMenu.Matches.statement {m m' : OpenMenu} (h : m.Matches κ.span m') :
    m.statement.Matches κ.span m'.statement := by
  have hspans := forall₂_span h.choices fun _ _ hc => hc.span
  exact .menu h.name h.caption h.choices (κ.cover h.keyword (getLastD hspans h.keyword))

theorem OpenBranch.Matches.statement {b b' : OpenBranch} (h : b.Matches κ.span b')
    {o o' : Option Block} (ho : Option.Rel (Block.Matches κ.span) o o') :
    (b.statement o).Matches κ.span (b'.statement o') := by
  refine .branch h.condition h.body h.elifs ho (κ.cover h.keyword ?_)
  cases ho with
  | none => exact getLastD (forall₂_span h.elifs fun _ _ he => he.body.span) h.body.span
  | some hb => exact hb.span

theorem Head.Matches.stage {h h' : Head} (hm : h.Matches R h') : h.stage.Matches R h'.stage := by
  cases hm with
  | simple ha hs => exact .after (.simple ha hs)
  | label hn hs => exact .block (.label hn hs)
  | branch hc hs => exact .block (.branch hc hs)
  | loop hc hs => exact .block (.loop hc hs)
  | menu hn hs => exact .menu ⟨hn, hs, .none, .nil⟩

theorem Owner.Matches.close {o o' : Owner} (h : o.Matches κ.span o') {b b' : Block}
    (hb : b.Matches κ.span b') : (o.close b).Matches κ.span (o'.close b') := by
  cases h with
  | label hn hs => exact .after (.label hn hb (κ.cover hs hb.span))
  | loop hc hs => exact .after (.loop hc hb (κ.cover hs hb.span))
  | branch hc hs => exact .clause ⟨hc, hs, hb, .nil⟩
  | elif hbr hc hs =>
    exact .clause { hbr with
      elifs := forall₂_concat hbr.elifs (.mk hc hb (κ.cover hs hb.span)) }
  | otherwise hbr => exact .after (hbr.statement (.some hb))
  | choice hm ht hc =>
    exact .chosen { hm with
      choices := forall₂_concat hm.choices (.mk ht hc hb (κ.cover ht.span hb.span)) }

theorem span_extentOf {ss ss' : List Statement} (h : List.Forall₂ (Statement.Matches κ.span) ss ss')
    (hne : ss ≠ []) : κ.span (Parser.extentOf ss) (Parser.extentOf ss') := by
  cases h with
  | nil => exact absurd rfl hne
  | cons hs hss =>
    have hspans := forall₂_span (hss.cons hs) fun _ _ hs => hs.span
    exact κ.cover hs.span (getLastD hspans hs.span)

end

namespace Likeness

variable {κ : Likeness} {t t' : LayoutToken} {a a' : Assembly}

theorem Tokens.found_eq (h : κ.Tokens t t') (hs : κ.strict) (ht : t.tag ≠ .error) :
    t'.found = t.found := by
  cases h with
  | same => rfl
  | fault => exact absurd rfl ht
  | line K => rw [K.strict hs, List.append_nil]; rfl

theorem Tokens.exists_reads {α : Type} {r : Reader α} {T : α → α → Prop}
    (hr : ∀ K : κ.LinePair, K.Follows T r r) (h : κ.Tokens t t') {x : α} (hx : t.Reads r x) :
    ∃ x', t'.Reads r x' ∧ T x x' := by
  obtain ⟨content, c, hm, hx⟩ := hx
  cases h with
  | same hne => exact absurd (congrArg LayoutMark.tag hm) hne.1
  | fault => cases hm
  | line K =>
    cases hm
    have hread := hr K _ _ K.cursors
    rw [hx] at hread
    generalize hy : r (.ofContent (K.content ++ K.tail) K.there) = y at hread
    cases y with
    | ok b c' => exact ⟨b, ⟨_, c', rfl, hy⟩, hread.1⟩
    | error f' c' => exact False.elim hread

theorem LinePair.Results.exists_error {α β : Type} {K : κ.LinePair} {T : α → β → Prop} {f : Fault}
    {c : Cursor} {y : EStateM.Result Fault Cursor β} (h : K.Results T (.error f c) y)
    (hs : κ.strict) : ∃ f' c', y = .error f' c' ∧ κ.Faults f f' := by
  cases y with
  | ok b c' => exact absurd hs h
  | error f' c' => exact ⟨f', c', rfl, h hs⟩

namespace Moves

open Assembly (readLine lookAt require)

theorem ite {p p' : Prop} [Decidable p] [Decidable p'] {m n m' n' : Move} (hp : p ↔ p')
    (hm : κ.Moves m m') (hn : κ.Moves n n') :
    κ.Moves (if p then m else n) (if p' then m' else n') := by
  by_cases h : p
  · rwa [if_pos h, if_pos (hp.mp h)]
  · rwa [if_neg h, if_neg fun h' => h (hp.mpr h')]

theorem readLine {α : Type} {r : Reader α} {T : κ.LinePair → α → α → Prop}
    (hr : ∀ K : κ.LinePair, K.Follows (T K) r r) {next next' : α → Move}
    (hn : ∀ K x x', T K x x' → κ.Moves (next x) (next' x')) (what : String)
    (h : κ.Tokens t t') : κ.Moves (readLine r next what t) (readLine r next' what t') := by
  unfold Assembly.readLine
  cases h with
  | @same m p p' hm hp =>
    cases m with
    | text => exact absurd rfl hm.1
    | _ => exact .refuse what
  | fault => exact .refuse what
  | line K =>
    have hread := hr K _ _ K.cursors
    simp only
    generalize r (.ofContent K.content K.here) = x,
      r (.ofContent (K.content ++ K.tail) K.there) = y at hread
    cases x with
    | ok a c =>
      cases y with
      | ok b c' => exact hn K a b hread.1
      | error f' c' => exact False.elim hread
    | error f c =>
      refine .fault fun hs => ?_
      obtain ⟨f', c', rfl, hf⟩ := hread.exists_error hs
      exact ⟨f', rfl, hf⟩

theorem lookAt {r : Reader Bool} (hr : ∀ K : κ.LinePair, K.Follows Eq r r)
    {next next' other other' : LayoutToken → Move} (h : κ.Tokens t t')
    (hn : κ.Moves (next t) (next' t')) (ho : κ.Moves (other t) (other' t')) :
    κ.Moves (lookAt r next other t) (lookAt r next' other' t') := by
  unfold Assembly.lookAt
  cases h with
  | @same m p p' hm hp =>
    cases m with
    | text => exact absurd rfl hm.1
    | _ => exact ho
  | fault => exact ho
  | line K =>
    have hread := hr K _ _ K.cursors
    simp only
    generalize r (.ofContent K.content K.here) = x,
      r (.ofContent (K.content ++ K.tail) K.there) = y at hread
    cases x with
    | ok a c =>
      cases y with
      | ok b c' =>
        obtain ⟨rfl, -⟩ := hread
        cases a with
        | true => exact hn
        | false => exact ho
      | error f' c' => exact False.elim hread
    | error f c =>
      refine .fault fun hs => ?_
      obtain ⟨f', c', rfl, hf⟩ := hread.exists_error hs
      exact ⟨f', rfl, hf⟩

theorem require {tag : Tag} (ha : a.Matches κ.span a') (h : κ.Tokens t t') :
    κ.Moves (require tag a t) (require tag a' t') :=
  ite (by rw [h.tag_eq]) (.on ha) (.refuse _)

section

variable (ha : a.Matches κ.span a') (h : κ.Tokens t t')

include ha

theorem close (hne : a.done ≠ []) : κ.Moves a.close a'.close := by
  have houter := ha.outer
  unfold Assembly.close
  generalize a.outer = outer, a'.outer = outer' at houter
  cases houter with
  | nil => exact .complete ha.done hne
  | cons ho houter =>
    exact .on ⟨ho.1.close ⟨ha.done, span_extentOf ha.done hne⟩, ho.2, houter⟩

include h

theorem onLine : κ.Moves (a.onLine t) (a'.onLine t') := by
  have houter : a.outer = [] ↔ a'.outer = [] := by
    have houter := ha.outer
    generalize a.outer = outer, a'.outer = outer' at houter
    cases houter <;> simp
  refine ite (and_congr (h.mark_iff (by decide)) houter) ?_
    (readLine (fun _ => .head) (fun _ _ _ hx => ?_) _ h)
  · have hdone := ha.done
    generalize a.done = done, a'.done = done' at hdone
    cases hdone with
    | nil => exact .refuse _
    | cons hs hss => exact .complete (.cons hs hss) (List.cons_ne_nil _ _)
  · exact .on ⟨hx.stage, ha.done, ha.outer⟩

theorem onEnd {s s' : Statement} (hs : s.Matches κ.span s') :
    κ.Moves (a.onEnd s t) (a'.onEnd s' t') := by
  have hclosed : Assembly.Matches κ.span ⟨.line, a.done ++ [s], a.outer⟩
      ⟨.line, a'.done ++ [s'], a'.outer⟩ := ⟨.line, forall₂_concat ha.done hs, ha.outer⟩
  have hcloser : a'.closer = a.closer := by
    have houter := ha.outer
    unfold Assembly.closer
    generalize a.outer = outer, a'.outer = outer' at houter
    cases houter <;> rfl
  refine ite (by rw [h.tag_eq, hcloser]) (close hclosed (by simp)) ?_
  exact ite (by rw [hs.isCompound]) (onLine hclosed h) (require hclosed h)

theorem onElif {b b' : OpenBranch} (hb : b.Matches κ.span b') :
    κ.Moves (a.onElif b t) (a'.onElif b' t') := by
  refine lookAt (fun _ => .startsClause _) h (readLine (fun _ => .elifHead) ?_ _ h) ?_
  · rintro K ⟨c, k⟩ ⟨c', k'⟩ ⟨hc, hk⟩
    exact .on ⟨.block (.elif hb hc hk), ha.done, ha.outer⟩
  · refine lookAt (fun _ => .startsClause _) h (readLine (fun _ => .elseHead) ?_ _ h)
      (onEnd ha h (hb.statement .none))
    rintro K - - -
    exact .on ⟨.block (.otherwise hb), ha.done, ha.outer⟩

theorem onChoice {m m' : OpenMenu} (hm : m.Matches κ.span m') :
    κ.Moves (a.onChoice m t) (a'.onChoice m' t') := by
  refine readLine (fun _ => .choiceHead) ?_ _ h
  rintro K ⟨l, c⟩ ⟨l', c'⟩ ⟨hl, hc⟩
  exact .on ⟨.block (.choice hm (LinePair.Follows.literalOf hl) hc), ha.done, ha.outer⟩

theorem take : κ.Moves (a.take t) (a'.take t') := by
  have hstage := ha.stage
  unfold Assembly.take
  generalize a.stage = stage, a'.stage = stage' at hstage
  cases hstage with
  | line => exact onLine ha h
  | after hs => exact onEnd ha h hs
  | clause hb => exact onElif ha h hb
  | block ho => exact require ⟨.line, .nil, .cons ⟨ho, ha.done⟩ ha.outer⟩ h
  | menu hm => exact require ⟨.caption hm, ha.done, ha.outer⟩ h
  | @caption m m' hm =>
    refine lookAt (fun _ => .map .say? fun o o' ho => ?_) h
      (readLine (fun _ => .captionHead) (fun K o o' ho => ?_) _ h) (onChoice ha h hm)
    · cases ho <;> rfl
    · exact .on ⟨.captioned { hm with caption := ho }, ha.done, ha.outer⟩
  | captioned hm =>
    exact ite (h.mark_iff (by decide)) (.refuse _) (require ⟨.choice hm, ha.done, ha.outer⟩ h)
  | choice hm => exact onChoice ha h hm
  | chosen hm =>
    exact ite (h.mark_iff (by decide)) (.on ⟨.after hm.statement, ha.done, ha.outer⟩)
      (onChoice ha h hm)

/-- Assemblies that match make moves that come to the same. -/
theorem move : κ.Moves (a.move t) (a'.move t') := by
  by_cases ht : t.tag = .error
  · cases h with
    | @same m p p' hm hp => exact absurd ht hm.2
    | fault hc hp => exact .fault fun _ => ⟨_, rfl, .layout hc, .wide hp⟩
    | line K => cases ht
  · rw [Assembly.move_of_ne ht, Assembly.move_of_ne (h.tag_eq ▸ ht)]
    exact take ha h

end

end Moves

/-- Tokens that correspond carry assemblies that match to assemblies that match. -/
theorem exists_run_of_matches {ts ts' : List LayoutToken} {b : Assembly}
    (hts : List.Forall₂ κ.Tokens ts ts') (ha : a.Matches κ.span a') (h : a.run ts = some b) :
    ∃ b', a'.run ts' = some b' ∧ b.Matches κ.span b' := by
  induction hts generalizing a a' with
  | nil =>
    cases h
    exact ⟨a', rfl, ha⟩
  | cons ht hts ih =>
    obtain ⟨c, hc, hb⟩ := Assembly.run_cons.mp h
    have hmove := Moves.move ha ht
    rw [hc] at hmove
    generalize hm : a'.move _ = m at hmove
    cases hmove with
    | on hmatch =>
      obtain ⟨b', hb', hmatch'⟩ := ih hmatch hb
      exact ⟨b', Assembly.run_cons.mpr ⟨_, hm, hb'⟩, hmatch'⟩

/-- Scripts that come to the same: statements that match, or faults. -/
inductive Ends (κ : Likeness) :
    Except Fault (List Statement) → Except Fault (List Statement) → Prop
  | complete {ss ss' : List Statement} (h : List.Forall₂ (Statement.Matches κ.span) ss ss')
    (hne : ss ≠ []) : Ends κ (.ok ss) (.ok ss')
  | fault {f : Fault} {x : Except Fault (List Statement)}
    (h : κ.strict → ∃ f', x = .error f' ∧ κ.Faults f f') : Ends κ (.error f) x

theorem refusal_of_tokens {ts ts' : List LayoutToken} (ht : κ.Tokens t t')
    (hts : List.Forall₂ κ.Tokens ts ts') (hne : t.tag ≠ .error) (hs : κ.strict) (what : String) :
    κ.Faults (Progress.refusal { rest := t :: ts } what)
      (Progress.refusal { rest := t' :: ts' } what) := by
  have hended : ∀ {us us'}, List.Forall₂ κ.Tokens us us' →
      Progress.isEnded { rest := us } = Progress.isEnded { rest := us' } := by
    intro us us' hus
    unfold Progress.isEnded
    induction hus with
    | nil => rfl
    | cons hu _ ih =>
      simp only [List.all_cons, ih, hu.mark_iff (m := .newline) (by decide),
        hu.mark_iff (m := .dedent) (by decide), hu.mark_iff (m := .eof) (by decide)]
  refine ⟨?_, .wide ht.place⟩
  simp only [Progress.refusal, hended (.cons ht hts), Progress.next, List.headD_cons,
    ht.found_eq hs hne]
  exact .same _

/-- Assemblies that match bring layouts that correspond to the same end. -/
theorem Ends.finish {ts ts' : List LayoutToken} (hts : List.Forall₂ κ.Tokens ts ts')
    (ha : a.Matches κ.span a') (he : ∃ t ∈ ts, t.mark = .eof) :
    κ.Ends (a.finish ts) (a'.finish ts') := by
  induction hts generalizing a a' with
  | nil =>
    obtain ⟨t, ht, -⟩ := he
    cases ht
  | @cons t t' ts ts' ht hts ih =>
    have hmove := Moves.move ha ht
    rw [Assembly.finish, Assembly.finish]
    generalize hm : a.move t = m, a'.move t' = m' at hmove
    cases hmove with
    | on hb =>
      -- The assemblies match again, and the end of the script is still to come.
      refine ih hb ?_
      obtain ⟨u, hu, heof⟩ := he
      obtain rfl | hu := List.mem_cons.mp hu
      · exact absurd heof (Assembly.ne_eof_of_step (Assembly.step_of_move hm))
      · exact ⟨u, hu, heof⟩
    | complete hss hne => exact .complete hss hne
    | refuse what =>
      refine .fault fun hs => ⟨_, rfl, refusal_of_tokens ht hts (fun htag => ?_) hs what⟩
      obtain ⟨cause, hc⟩ := LayoutToken.exists_fault htag
      simp [Assembly.move, hc] at hm
    | fault hf =>
      refine .fault fun hs => ?_
      obtain ⟨f', rfl, hf'⟩ := hf hs
      exact ⟨f', rfl, hf'⟩

end Likeness

end NovelScript
