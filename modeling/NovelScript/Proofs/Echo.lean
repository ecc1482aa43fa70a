import NovelScript.Proofs.Moves
import NovelScript.Proofs.Tracking

/-!
# Assemblies that differ in their spans only

An assembly that reads canonical lines stays in step with one that read the original lines: the two
have the same `bare` tree after each token.
-/

namespace NovelScript

open Line Text

section

variable {α : Type} {r : Reader α} {x : α} {t : LayoutToken}

/-- The canonical line of a piece is alike to the line in the token. -/
def Rewrites (t : LayoutToken) (p : Piece) : Prop :=
  ∀ x text, p = .line x text → Alike t.value text ∧ Reader.Filled text

/-- A token that holds the canonical line is read like the one that holds the original line. -/
theorem LayoutToken.Reads.again {p : List Char} {Q : α → Prop} (h : t.Reads r x)
    (ha : ∀ c d, r c = .ok x d → Reader.Again r c.rest p Q) (start : Option Int) :
    Rewrites t (.line start p) ∧ ∀ u : LayoutToken, u.mark = .text p → ∃ y, u.Reads r y ∧ Q y := by
  obtain ⟨content, c, hm, hr⟩ := h
  have hagain := ha _ _ hr
  refine ⟨?_, fun u hu => ?_⟩
  · rintro _ _ ⟨⟩
    have hv : t.value = content := by rw [LayoutToken.value, hm]
    rw [hv]
    exact ⟨hagain.alike, hagain.filled⟩
  · obtain ⟨y, d, hy, hq⟩ := hagain.reads u.place
    exact ⟨y, ⟨p, d, hu, hy⟩, hq⟩

end

/-! Assemblies without spans. -/

def OpenMenu.bare (m : OpenMenu) : OpenMenu :=
  ⟨m.name.map LabelName.bare, .blank, m.caption.map Say.bare, m.choices.map Choice.bare⟩

def OpenBranch.bare (b : OpenBranch) : OpenBranch :=
  ⟨b.condition.bare, .blank, b.body.bare, b.elifs.map ElifClause.bare⟩

def Owner.bare : Owner → Owner
  | label name _ => .label name.bare .blank
  | loop condition _ => .loop condition.bare .blank
  | branch condition _ => .branch condition.bare .blank
  | elif b condition _ => .elif b.bare condition.bare .blank
  | otherwise b => .otherwise b.bare
  | choice m text condition =>
    .choice m.bare { text with place := ⟨0, 0, 0, 0⟩ } (condition.map Expression.bare)

def Stage.bare : Stage → Stage
  | line => .line
  | after s => .after s.bare
  | clause b => .clause b.bare
  | block owner => .block owner.bare
  | menu m => .menu m.bare
  | caption m => .caption m.bare
  | captioned m => .captioned m.bare
  | choice m => .choice m.bare
  | chosen m => .chosen m.bare

def Assembly.bare (a : Assembly) : Assembly :=
  ⟨a.stage.bare, a.done.map Statement.bare, a.outer.map fun o => (o.1.bare, o.2.map Statement.bare)⟩

section

variable {b b' : OpenBranch} {m m' : OpenMenu} {s s' : Statement} {g g' : Stage} {o o' : Owner}
  {block block' : Block}

theorem bare_elif {c c' : Expression} {x x' : Span} (hc : c'.bare = c.bare)
    (hb : block'.bare = block.bare) :
    (ElifClause.mk c' block' x').bare = (ElifClause.mk c block x).bare := by
  simp only [ElifClause.bare, hc, hb]

theorem bare_choice {l l' : Lexeme} {c c' : Option Expression} {x x' : Span}
    (hl : l'.word = l.word) (hc : c'.map Expression.bare = c.map Expression.bare)
    (hb : block'.bare = block.bare) :
    (Choice.mk (Reader.literalOf l') c' block' x').bare =
      (Choice.mk (Reader.literalOf l) c block x).bare := by
  simp only [Choice.bare, StringLiteral.bare, Reader.literalOf, Lexeme.value, hl, hc, hb]

theorem isCompound_of_bare (h : s'.bare = s.bare) : s'.isCompound = s.isCompound := by
  have hbare : ∀ t : Statement, t.bare.isCompound = t.isCompound := by
    intro t
    cases t with
    | branch condition body elifs otherwise span =>
      cases otherwise <;> rw [Statement.bare] <;> rfl
    | _ => rw [Statement.bare]; rfl
  rw [← hbare s', h, hbare s]

theorem bare_statement_branch (h : b'.bare = b.bare) {e e' : Option Block}
    (he : e'.map Block.bare = e.map Block.bare) : (b'.statement e').bare = (b.statement e).bare := by
  simp only [OpenBranch.bare, OpenBranch.mk.injEq] at h
  obtain ⟨hc, -, hb, hes⟩ := h
  cases e <;> cases e' <;> simp only [Option.map_none, Option.map_some, reduceCtorEq] at he
  · simp only [OpenBranch.statement, Statement.bare, bareElifs_eq_map, hc, hb, hes]
  · simp only [OpenBranch.statement, Statement.bare, bareElifs_eq_map, hc, hb, hes,
      Option.some.inj he]

theorem bare_statement_menu (h : m'.bare = m.bare) : m'.statement.bare = m.statement.bare := by
  simp only [OpenMenu.bare, OpenMenu.mk.injEq] at h
  obtain ⟨hn, -, hc, hcs⟩ := h
  simp only [OpenMenu.statement, Statement.bare, bareChoices_eq_map, hn, hc, hcs]

theorem bare_block {ss ss' : List Statement} {x x' : Span}
    (h : ss'.map Statement.bare = ss.map Statement.bare) :
    (Block.mk ss' x').bare = (Block.mk ss x).bare := by
  simp only [Block.bare, bareAll_eq_map, h]

theorem bare_stage_head {h h' : Head} (he : h'.bare = h.bare) : h'.stage.bare = h.stage.bare := by
  cases h <;> cases h' <;> simp_all [Head.bare, Head.stage, Stage.bare, Owner.bare, Statement.bare,
    OpenMenu.bare]

/-- To close blocks that differ in their spans only comes to the same. -/
theorem bare_close (h : o'.bare = o.bare) (hb : block'.bare = block.bare) :
    (o'.close block').bare = (o.close block).bare := by
  cases o <;> cases o' <;> simp only [Owner.bare, reduceCtorEq] at h
  case label.label =>
    simp only [Owner.label.injEq, and_true] at h
    simp only [Owner.close, Stage.bare, Statement.bare, h, hb]
  case loop.loop =>
    simp only [Owner.loop.injEq, and_true] at h
    simp only [Owner.close, Stage.bare, Statement.bare, h, hb]
  case branch.branch =>
    simp only [Owner.branch.injEq, and_true] at h
    simp only [Owner.close, Stage.bare, OpenBranch.bare, h, hb, List.map_nil]
  case elif.elif b c k b' c' k' =>
    simp only [Owner.elif.injEq, and_true, OpenBranch.bare, OpenBranch.mk.injEq, true_and] at h
    obtain ⟨⟨hc, hbody, hes⟩, hc'⟩ := h
    simp only [Owner.close, Stage.bare, OpenBranch.bare, List.map_append, List.map_cons,
      List.map_nil, hc, hbody, hes]
    rw [bare_elif hc' hb]
  case otherwise.otherwise b b' =>
    have hsome : (some block').map Block.bare = (some block).map Block.bare := congrArg some hb
    have hstatement := bare_statement_branch (Owner.otherwise.inj h) hsome
    simp only [Owner.close, Stage.bare, hstatement]
  case choice.choice m l c m' l' c' =>
    simp only [Owner.choice.injEq, Lexeme.mk.injEq, and_true] at h
    obtain ⟨hm, hl, hc⟩ := h
    simp only [OpenMenu.bare, OpenMenu.mk.injEq, true_and] at hm
    obtain ⟨hn, hcaption, hcs⟩ := hm
    simp only [Owner.close, Stage.bare, OpenMenu.bare, List.map_append, List.map_cons,
      List.map_nil, hn, hcaption, hcs]
    rw [bare_choice hl hc hb]

/-- The stage is the given one, up to the spans in it. -/
def Stage.Like (g' : Stage) : Stage → Prop
  | .line => g' = .line
  | .after s => ∃ s', g' = .after s' ∧ s'.bare = s.bare
  | .clause b => ∃ b', g' = .clause b' ∧ b'.bare = b.bare
  | .block o => ∃ o', g' = .block o' ∧ o'.bare = o.bare
  | .menu m => ∃ m', g' = .menu m' ∧ m'.bare = m.bare
  | .caption m => ∃ m', g' = .caption m' ∧ m'.bare = m.bare
  | .captioned m => ∃ m', g' = .captioned m' ∧ m'.bare = m.bare
  | .choice m => ∃ m', g' = .choice m' ∧ m'.bare = m.bare
  | .chosen m => ∃ m', g' = .chosen m' ∧ m'.bare = m.bare

theorem Stage.like_of_bare (h : g'.bare = g.bare) : g'.Like g := by
  cases g <;> cases g' <;> simp_all [Stage.bare, Stage.Like]

theorem Stage.Like.exists_statement? (h : g'.Like g) (hs : g.statement? = some s) :
    ∃ s', g'.statement? = some s' ∧ s'.bare = s.bare := by
  cases g with
  | after s₁ =>
    cases hs
    obtain ⟨s', rfl, hbare⟩ := h
    exact ⟨s', rfl, hbare⟩
  | clause b =>
    cases hs
    obtain ⟨b', rfl, hbare⟩ := h
    exact ⟨b'.statement none, rfl, bare_statement_branch hbare rfl⟩
  | _ => cases hs

theorem Stage.Like.exists_menu? (h : g'.Like g) (hs : g.menu? = some m) :
    ∃ m', g'.menu? = some m' ∧ m'.bare = m.bare := by
  cases g with
  | caption | choice | chosen =>
    cases hs
    obtain ⟨m', rfl, hbare⟩ := h
    exact ⟨m', rfl, hbare⟩
  | _ => cases hs

end

namespace Assembly

variable {a a' b : Assembly} {t u : LayoutToken}

theorem bare_eq_iff : a'.bare = a.bare ↔ a'.stage.bare = a.stage.bare ∧
    a'.done.map Statement.bare = a.done.map Statement.bare ∧
      (a'.outer.map fun o => (o.1.bare, o.2.map Statement.bare)) =
        a.outer.map fun o => (o.1.bare, o.2.map Statement.bare) := by
  simp [bare]

/-- A canonical line starts a clause if the original line does. -/
theorem reads_startsClause_again {k : String} {p : List Char} {start : Option Int}
    (hl : t.Reads (Reader.startsClause k) true) (hw : Rewrites t (.line start p))
    (hn : name? p = some k.toList) (hu : u.mark = .text p) :
    u.Reads (Reader.startsClause k) true := by
  obtain ⟨content, c, hm, hl⟩ := hl
  obtain ⟨halike, hfilled⟩ := hw start p rfl
  have hv : t.value = content := by rw [LayoutToken.value, hm]
  rw [hv] at halike
  obtain ⟨e, he⟩ := Reader.startsClause_again hl halike hn hfilled u.place
  exact ⟨p, e, hu, he⟩

/-- The token may be rewritten as the piece, and what holds the piece takes an assembly that differs
from `a` in its spans only on to one that differs from `b` in its spans only. -/
structure Echoes (a b : Assembly) (t : LayoutToken) (p : Piece) : Prop where
  rewrites : Rewrites t p
  step : ∀ {a' : Assembly} {u : LayoutToken}, a'.bare = a.bare → u.mark = p.mark →
    ∃ b', Step a' u b' ∧ b'.bare = b.bare

theorem echoes_of_mark {p : Piece} (ht : t.mark = p.mark) (hp : p.tag ≠ .text)
    (h : ∀ {a' : Assembly} {u : LayoutToken}, a'.stage.Like a.stage →
      a'.done.map Statement.bare = a.done.map Statement.bare →
      (a'.outer.map fun o => (o.1.bare, o.2.map Statement.bare)) =
        (a.outer.map fun o => (o.1.bare, o.2.map Statement.bare)) →
      u.mark = p.mark → ∃ b', Step a' u b' ∧ b'.bare = b.bare) : Echoes a b t (b.latest t) := by
  rw [(shows_latest ht hp).1]
  refine ⟨fun x text he => ?_, fun he hu => ?_⟩
  · rw [he] at hp
    exact absurd rfl hp
  · obtain ⟨hg, hdone, houter⟩ := bare_eq_iff.mp he
    exact h (Stage.like_of_bare hg) hdone houter hu

theorem echoes_of_reads {α : Type} {r : Reader α} {x : α} {start : Option Int} {p : List Char}
    {Q : α → Prop} (hr : t.Reads r x) (hb : b.stage.latest = .line start p)
    (hagain : ∀ c d, r c = .ok x d → Reader.Again r c.rest p Q)
    (h : ∀ {a' : Assembly} {u : LayoutToken} {y : α}, a'.stage.Like a.stage →
      a'.done.map Statement.bare = a.done.map Statement.bare →
      (a'.outer.map fun o => (o.1.bare, o.2.map Statement.bare)) =
        (a.outer.map fun o => (o.1.bare, o.2.map Statement.bare)) →
      Rewrites t (.line start p) → u.mark = .text p → u.Reads r y → Q y →
      ∃ b', Step a' u b' ∧ b'.bare = b.bare) : Echoes a b t (b.latest t) := by
  obtain ⟨hw, hread⟩ := hr.again hagain start
  rw [latest_of_reads hr, hb]
  refine ⟨hw, fun he hu => ?_⟩
  obtain ⟨hg, hdone, houter⟩ := bare_eq_iff.mp he
  obtain ⟨y, hr', hq⟩ := hread _ hu
  exact h (Stage.like_of_bare hg) hdone houter hw hu hr' hq

/-- What a step adds to the flat form takes an assembly in step with the first one on as well. -/
theorem echo_of_step (h : Step a t b) : Echoes a b t (b.latest t) := by
  cases h with
  | @first head hs hr =>
    refine echoes_of_reads hr (flat_head head).2.1 (fun _ _ => Reader.again_head)
      fun hg hdone houter _ _ hr' hh => ?_
    rw [hs] at hg
    exact ⟨_, .first hg hr', bare_eq_iff.mpr ⟨bare_stage_head hh, hdone, houter⟩⟩
  | @next s head hs hc hr =>
    refine echoes_of_reads hr (flat_head head).2.1 (fun _ _ => Reader.again_head)
      fun hg hdone houter _ _ hr' hh => ?_
    obtain ⟨s', hs', hbare⟩ := hg.exists_statement? hs
    have hc' : s'.isCompound := by rwa [isCompound_of_bare hbare]
    exact ⟨_, .next hs' hc' hr',
      bare_eq_iff.mpr ⟨bare_stage_head hh, by simp [hdone, hbare], houter⟩⟩
  | @separate s hs hc ht =>
    refine echoes_of_mark (p := .newline) ht (by decide) fun hg hdone houter hu => ?_
    rw [hs] at hg
    obtain ⟨s', hs', hbare⟩ := hg
    have hc' : ¬s'.isCompound := by rwa [isCompound_of_bare hbare]
    exact ⟨_, .separate hs' hc' hu, bare_eq_iff.mpr ⟨rfl, by simp [hdone, hbare], houter⟩⟩
  | @close s owner done outer hs ho ht =>
    refine echoes_of_mark (p := .dedent) ht (by decide) fun hg hdone houter hu => ?_
    obtain ⟨s', hs', hbare⟩ := hg.exists_statement? hs
    rw [ho, List.map_cons, List.map_eq_cons_iff] at houter
    obtain ⟨⟨owner', done'⟩, outer', ho', hfirst, houter⟩ := houter
    obtain ⟨howner, hdone'⟩ := Prod.mk.inj hfirst
    refine ⟨_, .close hs' ho' hu, bare_eq_iff.mpr ⟨bare_close howner ?_, hdone', houter⟩⟩
    exact bare_block (by simp [hdone, hbare])
  | @elif br condition keyword hs hl hr =>
    refine echoes_of_reads hr rfl (fun _ _ => Reader.again_elifHead)
      fun hg hdone houter hw hu hr' hcond => ?_
    rw [hs] at hg
    obtain ⟨br', hs', hbare⟩ := hg
    have hl' := reads_startsClause_again hl hw rfl hu
    refine ⟨_, .elif hs' hl' hr', bare_eq_iff.mpr ⟨?_, hdone, houter⟩⟩
    simp only [Stage.bare, Owner.bare, hbare, hcond]
  | @otherwise br hs hl hr =>
    refine echoes_of_reads hr rfl (fun _ _ => Reader.again_elseHead)
      fun hg hdone houter hw hu hr' _ => ?_
    rw [hs] at hg
    obtain ⟨br', hs', hbare⟩ := hg
    have hl' := reads_startsClause_again hl hw rfl hu
    refine ⟨_, .otherwise hs' hl' hr', bare_eq_iff.mpr ⟨?_, hdone, houter⟩⟩
    simp only [Stage.bare, Owner.bare, hbare]
  | @enter owner hs ht =>
    refine echoes_of_mark (p := .indent) ht (by decide) fun hg hdone houter hu => ?_
    rw [hs] at hg
    obtain ⟨owner', hs', hbare⟩ := hg
    exact ⟨_, .enter hs' hu, bare_eq_iff.mpr ⟨rfl, rfl, by simp [hbare, hdone, houter]⟩⟩
  | @enterMenu m hs ht =>
    refine echoes_of_mark (p := .indent) ht (by decide) fun hg hdone houter hu => ?_
    rw [hs] at hg
    obtain ⟨m', hs', hbare⟩ := hg
    exact ⟨_, .enterMenu hs' hu, bare_eq_iff.mpr ⟨congrArg Stage.caption hbare, hdone, houter⟩⟩
  | @caption m line hs hr =>
    refine echoes_of_reads hr rfl (fun _ _ => Reader.again_captionHead)
      fun hg hdone houter _ _ hr' hline => ?_
    rw [hs] at hg
    obtain ⟨m', hs', hbare⟩ := hg
    obtain ⟨line', rfl, hline⟩ := hline
    refine ⟨_, .caption hs' hr', bare_eq_iff.mpr ⟨?_, hdone, houter⟩⟩
    simp only [OpenMenu.bare, OpenMenu.mk.injEq] at hbare
    simp [Stage.bare, OpenMenu.bare, hbare, hline]
  | @captioned m hs ht =>
    refine echoes_of_mark (p := .newline) ht (by decide) fun hg hdone houter hu => ?_
    rw [hs] at hg
    obtain ⟨m', hs', hbare⟩ := hg
    exact ⟨_, .captioned hs' hu, bare_eq_iff.mpr ⟨congrArg Stage.choice hbare, hdone, houter⟩⟩
  | @choice m text condition hs hr =>
    refine echoes_of_reads hr rfl (fun _ _ => Reader.again_choiceHead)
      fun hg hdone houter _ _ hr' hq => ?_
    obtain ⟨m', hs', hbare⟩ := hg.exists_menu? hs
    obtain ⟨htext, hcond⟩ := hq
    refine ⟨_, .choice hs' hr', bare_eq_iff.mpr ⟨?_, hdone, houter⟩⟩
    simp only [Stage.bare, Owner.bare, hbare, htext, hcond]
  | @leave m hs ht =>
    refine echoes_of_mark (p := .dedent) ht (by decide) fun hg hdone houter hu => ?_
    rw [hs] at hg
    obtain ⟨m', hs', hbare⟩ := hg
    have hafter : (Stage.after m'.statement).bare = (Stage.after m.statement).bare :=
      congrArg Stage.after (bare_statement_menu hbare)
    exact ⟨_, .leave hs' hu, bare_eq_iff.mpr ⟨hafter, hdone, houter⟩⟩

/-- Tokens with the marks of the canonical form take an assembly through the same steps. -/
theorem echo_of_run {ts us : List LayoutToken} (h : a.run us = some b) (ha : Tracks ts a)
    (ho : Ordered (ts ++ us)) : ∃ ps, b.flat = a.flat ++ ps ∧ List.Forall₂ Rewrites us ps ∧
      ∀ {a' : Assembly} {vs : List LayoutToken}, a'.bare = a.bare →
        vs.map LayoutToken.mark = ps.map Piece.mark →
          ∃ b', a'.run vs = some b' ∧ b'.bare = b.bare := by
  induction us generalizing ts a with
  | nil =>
    cases h
    refine ⟨[], (List.append_nil _).symm, .nil, fun {a' vs} he hvs => ?_⟩
    obtain rfl := List.map_eq_nil_iff.mp hvs
    exact ⟨a', rfl, he⟩
  | cons u us ih =>
    obtain ⟨c, hm, hc⟩ := run_cons.mp h
    have hstep := step_of_move hm
    have ho' : Ordered (ts ++ [u] ++ us) := by rwa [List.append_assoc]
    have hflat := (flat_of_step hstep ha.sound (pairwise_startsOf ha.shows (ordered_of_append ho))).1
    obtain ⟨hw, hecho⟩ := echo_of_step hstep
    obtain ⟨ps, hps, hws, hrest⟩ := ih hc (tracks_of_step hstep ha (ordered_of_append ho)) ho'
    refine ⟨c.latest u :: ps, ?_, .cons hw hws, fun {a' vs} he hvs => ?_⟩
    · rw [hps, hflat, List.append_assoc]
      rfl
    · obtain ⟨v, vs', rfl, hv, hvs'⟩ := List.map_eq_cons_iff.mp hvs
      obtain ⟨c', hstep', hc'⟩ := hecho he hv
      obtain ⟨b', hb', hbare⟩ := hrest hc' hvs'
      exact ⟨b', run_cons.mpr ⟨c', move_of_step hstep', hb'⟩, hbare⟩

theorem echo_of_complete {ss : List Statement} (h : a.move t = .complete ss)
    (he : a'.bare = a.bare) (hu : u.mark = .eof) :
    ∃ ss', a'.move u = .complete ss' ∧ ss'.map Statement.bare = ss.map Statement.bare := by
  obtain ⟨hg, hdone, houter⟩ := bare_eq_iff.mp he
  obtain ⟨-, ho, hcases⟩ := move_eq_complete_iff.mp h
  have ho' : a'.outer = [] := by simpa [ho] using houter
  obtain ⟨hs, hd, rfl⟩ | ⟨s, hs, rfl⟩ := hcases
  · have hs' : a'.stage = .line := by
      have hlike := Stage.like_of_bare hg
      rwa [hs] at hlike
    have hd' : a'.done ≠ [] := by
      rintro hnil
      rw [hnil, List.map_nil, eq_comm, List.map_eq_nil_iff] at hdone
      exact hd hdone
    exact ⟨a'.done, move_eq_complete_iff.mpr ⟨hu, ho', .inl ⟨hs', hd', rfl⟩⟩, hdone⟩
  · obtain ⟨s', hs', hbare⟩ := (Stage.like_of_bare hg).exists_statement? hs
    exact ⟨a'.done ++ [s'], move_eq_complete_iff.mpr ⟨hu, ho', .inr ⟨s', hs', rfl⟩⟩,
      by simp [hdone, hbare]⟩

end Assembly

end NovelScript
