import Mathlib.Data.List.Forall2
import NovelScript.Proofs.Flat
import NovelScript.Proofs.Shape
import NovelScript.Proofs.Step

/-!
# The layout of a script is the flat form of its tree

Every step of an assembly adds to its flat form the piece that its token shows. When the script is
complete, its layout and the flat form of its tree correspond piece by piece, so no line was left
out, read twice or moved.
-/

namespace NovelScript

open Line

/-- How many blanks a line starts with. -/
def LayoutToken.blanks (t : LayoutToken) : Nat := (t.value.takeWhile Text.isInline).length

/-- The token is what the piece is read from. A head starts after the blanks of its line, and a line
without a head is that of a last clause. -/
structure Shows (t : LayoutToken) (p : Piece) : Prop where
  tag : t.tag = p.tag
  start : ∀ (x : Int) text, p = .line (some x) text → x = t.place.start + t.blanks
  headless : ∀ text, p = .line none text → t.Reads Reader.elseHead ()

theorem Shows.tag_of_mark {t : LayoutToken} {p : Piece} {m : LayoutMark} (h : Shows t p)
    (hm : t.mark = m) : m.tag = p.tag := by
  rw [← h.tag, LayoutToken.tag, hm]

/-- Each line among the tokens ends before the next one starts. -/
def Ordered (ts : List LayoutToken) : Prop :=
  (textsOf ts).Pairwise fun t u : LayoutToken => t.place.start + t.value.length ≤ u.place.start

section

variable {α : Type} {reader : Reader α} {x : α} {t : LayoutToken}

/-- What starts where the blanks of its line end is shown by the token of the line. -/
theorem LayoutToken.Reads.shows (h : t.Reads reader x) {start : Int} {text : List Char}
    (hs : ∀ c d, reader c = .ok x d → start = c.skipBlanks.here) :
    Shows t (.line (some start) text) := by
  refine ⟨h.tag, ?_, nofun⟩
  rintro y _ ⟨⟩
  obtain ⟨content, c, hm, hr⟩ := h
  have hv : t.value = content := by rw [LayoutToken.value, hm]
  rw [hs _ _ hr, blanks, hv, Cursor.here]
  simp [Cursor.skipBlanks, Cursor.ofContent, Cursor.rest]

theorem Shows.of_tag {p : Piece} (h : t.tag = p.tag) (hp : p.tag ≠ .text) : Shows t p where
  tag := h
  start := by
    rintro x text rfl
    exact absurd rfl hp
  headless := by
    rintro text rfl
    exact absurd rfl hp

end

/-- Every head starts after the blanks of a line of its own. -/
theorem sublist_startsOf {ts : List LayoutToken} {ps : List Piece} (h : List.Forall₂ Shows ts ps) :
    (startsOf ps).Sublist ((textsOf ts).map fun t => (t.place.start + t.blanks : Int)) := by
  induction h with
  | nil => exact .slnil
  | @cons t p ts ps hs hrest ih =>
    cases p with
    | line start text =>
      rw [textsOf_cons_of_text hs.tag, List.map_cons]
      cases start with
      | none => exact .cons _ ih
      | some x =>
        rw [startsOf_line, ← hs.start x text rfl]
        exact .cons_cons x ih
    | _ =>
      rw [textsOf_cons_of_ne (by rw [hs.tag]; decide)]
      exact ih

/-- The heads of a flat form lie in the order of its pieces. -/
theorem pairwise_startsOf {ts : List LayoutToken} {ps : List Piece}
    (h : List.Forall₂ Shows ts ps) (ho : Ordered ts) : (startsOf ps).Pairwise (· ≤ ·) := by
  refine List.Pairwise.sublist (sublist_startsOf h) (List.pairwise_map.mpr (ho.imp ?_))
  intro t u htu
  have hb : t.blanks ≤ t.value.length := (List.takeWhile_prefix _).length_le
  omega

namespace Assembly

variable {a b : Assembly} {t : LayoutToken} {ts us : List LayoutToken}

theorem flat_of_statement? {g : Stage} {s : Statement} (h : g.statement? = some s) (hg : g.Sound) :
    g.flat = s.flat := by
  cases g with
  | after s' =>
    cases h
    rfl
  | clause b =>
    cases h
    exact hg.flat_statement.symm
  | _ => simp [Stage.statement?] at h

theorem flat_head (h : Head) : h.stage.flat = [.line (some h.start) h.written] ∧
    h.stage.latest = .line (some h.start) h.written ∧ h.stage.Sound := by
  cases h with
  | menu name keyword => exact ⟨rfl, rfl, rfl, rfl⟩
  | simple action span =>
    exact ⟨by simp only [Head.stage, Stage.flat, Statement.flat]; rfl, rfl, trivial⟩
  | _ => exact ⟨rfl, rfl, trivial⟩

/-- The lines that a block belongs to start no later than the block. -/
theorem le_start_of_pairwise {owner : Owner} {front : List Piece} {done : List Statement}
    {s : Statement}
    (hp : (startsOf (front ++ owner.flat ++ [.indent] ++ flatBody (done ++ [s]))).Pairwise (· ≤ ·)) :
    (startsOf owner.flat).Pairwise (· ≤ ·) ∧ ∀ x ∈ startsOf owner.flat,
      x ≤ (Parser.extentOf (done ++ [s])).start := by
  simp only [startsOf_append, flatBody_concat] at hp
  obtain ⟨hfront, -, hcross⟩ := List.pairwise_append.mp hp
  obtain ⟨hfront, -, -⟩ := List.pairwise_append.mp hfront
  refine ⟨(List.pairwise_append.mp hfront).2.1, fun x hx => ?_⟩
  refine le_start_extentOf (by simp) fun s' hs' => ?_
  refine hcross x (by simp [hx]) _ ?_
  obtain hs' | hs' := List.mem_append.mp hs'
  · exact List.mem_append_left _ (mem_startsOf_flatAll hs')
  · rw [List.mem_singleton.mp hs']
    obtain ⟨ps, hps⟩ := s.flat_eq_cons
    simp [hps]

theorem latest_of_reads {α : Type} {reader : Reader α} {x : α} (h : t.Reads reader x) :
    b.latest t = b.stage.latest := by
  obtain ⟨content, c, hm, -⟩ := h
  rw [latest, hm]

/-- A token that is no line is shown by the piece of its own kind. -/
theorem shows_latest {p : Piece} (ht : t.mark = p.mark) (hp : p.tag ≠ .text) :
    b.latest t = p ∧ Shows t p := by
  refine ⟨?_, .of_tag (by rw [LayoutToken.tag, ht]; rfl) hp⟩
  cases p with
  | line x text => exact absurd rfl hp
  | _ => simp [latest, ht, Piece.mark]

theorem flat_of_menu? {g : Stage} {m : OpenMenu} (h : g.menu? = some m) (hg : g.Sound) :
    g.flat = m.flat ∧ m.Sound := by
  cases g with
  | caption m' =>
    cases h
    obtain ⟨hcaption, hchoices⟩ := hg
    refine ⟨?_, fun c hc => ?_⟩
    · simp [Stage.flat, OpenMenu.flat, hcaption, hchoices, flatCaption, flatChoices]
    · rw [hchoices] at hc
      cases hc
  | choice m' | chosen m' =>
    cases h
    exact ⟨rfl, hg⟩
  | _ => simp [Stage.menu?] at h

/-- The end of a block adds one piece: the block is then a part of what its owner reads. -/
theorem flat_close {s : Statement} {owner : Owner} {done : List Statement}
    {outer : List (Owner × List Statement)} (hs : a.stage.statement? = some s)
    (ho : a.outer = (owner, done) :: outer) (ha : a.Sound)
    (hp : (startsOf a.flat).Pairwise (· ≤ ·)) :
    Assembly.flat ⟨owner.close ⟨a.done ++ [s], Parser.extentOf (a.done ++ [s])⟩, done, outer⟩ =
      a.flat ++ [.dedent] ∧
    (owner.close ⟨a.done ++ [s], Parser.extentOf (a.done ++ [s])⟩).Sound := by
  have hflat : a.flat = flatOuter outer ++ flatAll done ++ owner.flat ++
      [.indent] ++ flatBody (a.done ++ [s]) := by
    rw [flatBody_concat, Assembly.flat, ho, flatOuter, flat_of_statement? hs ha.stage,
      List.append_assoc]
  have hsound : owner.Sound := ha.outer (owner, done) (by rw [ho]; exact List.mem_cons_self)
  rw [hflat] at hp
  obtain ⟨hpo, hle⟩ := le_start_of_pairwise hp
  obtain ⟨hclose, hstage⟩ := hsound.close ⟨a.done ++ [s], Parser.extentOf (a.done ++ [s])⟩ hpo hle
  refine ⟨?_, hstage⟩
  rw [hflat, Assembly.flat, hclose, Block.flat]
  simp

/-- A step adds one piece to the flat form, the one its token shows. -/
theorem flat_of_step (h : Step a t b) (ha : a.Sound) (hp : (startsOf a.flat).Pairwise (· ≤ ·)) :
    b.flat = a.flat ++ [b.latest t] ∧ Shows t (b.latest t) ∧ b.Sound := by
  -- Most steps change the stage alone, and then the piece is added there.
  have hline : ∀ {g : Stage} (p : Piece), g.flat = a.stage.flat ++ [p] →
      Assembly.flat { a with stage := g } = a.flat ++ [p] := by
    intro g p hg
    simp [Assembly.flat, hg]
  cases h with
  | @first head hs hr =>
    obtain ⟨hf, hlast, hsound⟩ := flat_head head
    rw [latest_of_reads hr, hlast]
    refine ⟨hline _ (by rw [hf, hs]; rfl), hr.shows fun c d => Reader.start_of_head, hsound,
      ha.outer⟩
  | @next s head hs hc hr =>
    obtain ⟨hf, hlast, hsound⟩ := flat_head head
    rw [latest_of_reads hr, hlast]
    refine ⟨?_, hr.shows fun c d => Reader.start_of_head, hsound, ha.outer⟩
    simp [Assembly.flat, hf, flat_of_statement? hs ha.stage, flatAll_singleton,
      Statement.separator, hc]
  | @separate s hs hc ht =>
    obtain ⟨hlast, hshow⟩ := shows_latest (p := .newline) ht (by decide)
    rw [hlast]
    refine ⟨?_, hshow, trivial, ha.outer⟩
    simp [Assembly.flat, hs, Stage.flat, flatAll_singleton, Statement.separator, hc]
  | @close s owner done outer hs ho ht =>
    obtain ⟨hflat, hstage⟩ := flat_close hs ho ha hp
    obtain ⟨hlast, hshow⟩ := shows_latest (p := .dedent) ht (by decide)
    rw [hlast]
    exact ⟨hflat, hshow, hstage, fun o hmem => ha.outer o (by rw [ho]; exact .tail _ hmem)⟩
  | @elif b condition keyword hs hl hr =>
    have hb : (Stage.clause b).Sound := hs ▸ ha.stage
    rw [latest_of_reads hr]
    refine ⟨hline _ (by rw [hs]; rfl), hr.shows fun c d => Reader.start_of_elifHead, hb, ha.outer⟩
  | @otherwise b hs hl hr =>
    have hb : (Stage.clause b).Sound := hs ▸ ha.stage
    rw [latest_of_reads hr]
    refine ⟨hline _ (by rw [hs]; rfl), ⟨hr.tag, fun x text he => ?_, fun _ _ => hr⟩, hb, ha.outer⟩
    cases he
  | @enter owner hs ht =>
    have ho : (Stage.block owner).Sound := hs ▸ ha.stage
    obtain ⟨hlast, hshow⟩ := shows_latest (p := .indent) ht (by decide)
    rw [hlast]
    refine ⟨?_, hshow, trivial, fun o hmem => ?_⟩
    · simp [Assembly.flat, hs, Stage.flat, flatOuter]
    · obtain rfl | hmem := List.mem_cons.mp hmem
      · exact ho
      · exact ha.outer o hmem
  | @enterMenu m hs ht =>
    have hm : (Stage.menu m).Sound := hs ▸ ha.stage
    obtain ⟨hlast, hshow⟩ := shows_latest (p := .indent) ht (by decide)
    rw [hlast]
    exact ⟨hline .indent (by rw [hs]; rfl), hshow, hm, ha.outer⟩
  | @caption m line hs hr =>
    have hm : (Stage.caption m).Sound := hs ▸ ha.stage
    rw [latest_of_reads hr]
    refine ⟨hline _ (by rw [hs]; rfl), hr.shows fun c d => Reader.start_of_captionHead, ?_, ha.outer⟩
    exact ⟨rfl, hm.2⟩
  | @captioned m hs ht =>
    have hm : (Stage.captioned m).Sound := hs ▸ ha.stage
    obtain ⟨line, hcaption⟩ := Option.isSome_iff_exists.mp hm.1
    obtain ⟨hlast, hshow⟩ := shows_latest (p := .newline) ht (by decide)
    rw [hlast]
    refine ⟨hline .newline ?_, hshow, ?_, ha.outer⟩
    · simp [hs, Stage.flat, OpenMenu.flat, OpenMenu.flatCaptioned, OpenMenu.opening, hcaption, hm.2,
        flatCaption, flatChoices]
    · intro c hc
      rw [hm.2] at hc
      cases hc
  | @choice m text condition hs hr =>
    obtain ⟨hflat, hm⟩ := flat_of_menu? hs ha.stage
    rw [latest_of_reads hr]
    exact ⟨hline _ (by rw [hflat]; rfl), hr.shows fun c d => Reader.start_of_choiceHead, hm, ha.outer⟩
  | @leave m hs ht =>
    have hm : (Stage.chosen m).Sound := hs ▸ ha.stage
    obtain ⟨hlast, hshow⟩ := shows_latest (p := .dedent) ht (by decide)
    rw [hlast]
    refine ⟨hline .dedent ?_, hshow, trivial, ha.outer⟩
    rw [hs]
    exact OpenMenu.Sound.flat_statement hm

/-- The tokens that were read are what the flat form says. -/
structure Tracks (ts : List LayoutToken) (a : Assembly) : Prop where
  shows : List.Forall₂ Shows ts a.flat
  sound : a.Sound

theorem tracks_initial : Tracks [] initial :=
  ⟨.nil, trivial, fun _ h => nomatch h⟩

theorem ordered_of_append (h : Ordered (ts ++ us)) : Ordered ts := by
  rw [Ordered, textsOf_append] at h
  exact (List.pairwise_append.mp h).1

theorem tracks_of_step (h : Step a t b) (ha : Tracks ts a) (ho : Ordered ts) :
    Tracks (ts ++ [t]) b := by
  obtain ⟨hflat, hs, hsound⟩ := flat_of_step h ha.sound (pairwise_startsOf ha.shows ho)
  refine ⟨?_, hsound⟩
  rw [hflat]
  exact List.rel_append ha.shows (.cons hs .nil)

theorem tracks_of_run (h : a.run us = some b) (ha : Tracks ts a) (ho : Ordered (ts ++ us)) :
    Tracks (ts ++ us) b := by
  induction us generalizing ts a with
  | nil =>
    cases h
    rwa [List.append_nil]
  | cons u us ih =>
    obtain ⟨c, hm, hc⟩ := run_cons.mp h
    have ho' : Ordered (ts ++ [u] ++ us) := by rwa [List.append_assoc]
    have hstep := tracks_of_step (step_of_move hm) ha (ordered_of_append ho)
    have hrest := ih hc hstep ho'
    rwa [List.append_assoc] at hrest

/-- A script is complete only at the end of its layout. -/
theorem exists_run_of_finish {ss : List Statement} (ht : t.mark = .eof)
    (he : ∀ u ∈ us, u.tag ≠ .eof) (h : a.finish (us ++ [t]) = .ok ss) :
    ∃ b, a.run us = some b ∧ b.move t = .complete ss := by
  induction us generalizing a with
  | nil =>
    refine ⟨a, rfl, ?_⟩
    rw [List.nil_append, finish] at h
    have ho := outcome_move a t
    generalize a.move t = m at h ho ⊢
    cases ho with
    | on hs => exact absurd ht (ne_eof_of_step hs)
    | ended hs hd ho ht' => exact congrArg Move.complete (Except.ok.inj h)
    | endedAfter hs ho ht' => exact congrArg Move.complete (Except.ok.inj h)
    | refuse what => cases h
    | astray ht' => cases h
    | fault ht' hf => cases h
  | cons u us ih =>
    rw [List.cons_append, finish] at h
    cases hm : a.move u with
    | on b =>
      rw [hm] at h
      obtain ⟨c, hc, hend⟩ := ih (fun v hv => he v (List.mem_cons_of_mem _ hv)) h
      exact ⟨c, run_cons.mpr ⟨b, hm, hc⟩, hend⟩
    | complete ss' =>
      have hu := mark_of_complete hm
      exact absurd (by rw [LayoutToken.tag, hu]; rfl) (he u List.mem_cons_self)
    | refuse what => rw [hm] at h; cases h
    | fault f => rw [hm] at h; cases h

/-- A complete assembly has read the flat form of its statements, unless the end of the script
comes right after the line of an action. -/
theorem flat_of_complete {ss : List Statement} (h : a.move t = .complete ss) (ha : a.Sound) :
    a.flat = flatAll ss ∨ ∃ ps x text, a.flat = ps ++ [.line (some x) text] := by
  have ho := outcome_move a t
  rw [h] at ho
  cases ho with
  | ended hs hd ho ht =>
    refine .inl ?_
    rw [Assembly.flat, ho, hs]
    simp [flatOuter, Stage.flat]
  | @endedAfter s hs ho ht =>
    have hflat : a.flat = flatAll a.done ++ s.flat := by
      rw [Assembly.flat, ho, flat_of_statement? hs ha.stage]
      rfl
    by_cases hc : s.isCompound
    · refine .inl ?_
      rw [hflat, flatAll_append, flatAll_singleton, Statement.separator, if_pos hc, List.append_nil]
    · cases s with
      | simple action span => exact .inr ⟨_, _, _, by rw [hflat, Statement.flat]⟩
      | _ => exact absurd rfl hc

end Assembly

theorem ordered_of_shaped {text : List Char} {tokens : List LayoutToken} (h : Shaped text tokens) :
    Ordered tokens := by
  rw [Ordered, h.texts, List.pairwise_map]
  refine (contentLinesFrom_ordered 1 0 (Text.lines text)).1.imp fun {l m} hlm => ?_
  have hstop := hlm.stop
  change (l.start : Int) + (l.content.length : Int) ≤ ((m.lineStart + m.indent.length : Nat) : Int)
  omega

namespace Script

variable {rules : LayoutRules} {text : List Char} {file : Option Path} {f : SourceFile}

/-- The assembly that reads a script has its tree as flat form before the end. -/
theorem exists_run_of_parse (h : parse rules text file = .ok f) : ∃ front place a,
    layout rules text = .ok (front ++ [⟨.eof, place⟩]) ∧ Shaped text (front ++ [⟨.eof, place⟩]) ∧
      Assembly.initial.run front = some a ∧ a.move ⟨.eof, place⟩ = .complete f.statements ∧
        Assembly.Tracks front a ∧ a.flat = f.flat := by
  obtain ⟨tokens, ss, hl, hfault, hfin, rfl⟩ := (parse_eq_ok file).mp h
  have hshape := shaped_of_layout hl
  obtain ⟨front, place, rfl, hend, hlast⟩ := hshape.split
  obtain ⟨a, hrun, hcomplete⟩ := Assembly.exists_run_of_finish rfl hend hfin
  have hordered : Ordered front := Assembly.ordered_of_append (ordered_of_shaped hshape)
  have htracks : Assembly.Tracks front a :=
    Assembly.tracks_of_run hrun Assembly.tracks_initial hordered
  refine ⟨front, place, a, hl, hshape, hrun, hcomplete, htracks, ?_⟩
  obtain hflat | ⟨ps, x, text, hflat⟩ := Assembly.flat_of_complete hcomplete htracks.sound
  · exact hflat
  · -- Before the end stands a separator or a closing, so the last piece is no line.
    exfalso
    have hshows := htracks.shows
    rw [hflat] at hshows
    have hrev := List.forall₂_reverse_iff.mpr hshows
    obtain rfl | ⟨front', t, rfl, htag⟩ := hlast
    · simp at hrev
    · rw [List.reverse_append, List.reverse_append] at hrev
      have htext := (List.forall₂_cons.mp hrev).1.tag
      obtain htag | htag := htag <;> simp [htag, Piece.tag, Piece.mark, LayoutMark.tag] at htext

/-- The layout of a script that was read is the flat form of its tree, and the end. -/
theorem shows_of_parse (h : parse rules text file = .ok f) :
    ∃ front place, layout rules text = .ok (front ++ [⟨.eof, place⟩]) ∧
      List.Forall₂ Shows front f.flat ∧ Shaped text (front ++ [⟨.eof, place⟩]) := by
  obtain ⟨front, place, a, hl, hshape, -, -, htracks, hflat⟩ := exists_run_of_parse h
  exact ⟨front, place, hl, hflat ▸ htracks.shows, hshape⟩

theorem map_tag_of_shows {ts : List LayoutToken} {ps : List Piece}
    (h : List.Forall₂ Shows ts ps) : ts.map LayoutToken.tag = ps.map Piece.tag := by
  induction h with
  | nil => rfl
  | cons hs _ ih => rw [List.map_cons, List.map_cons, hs.tag, ih]

/-- The head of a line starts after the blanks of the line, if the line has a head. -/
def HeadStarts (t : LayoutToken) (head : Option Int) : Prop :=
  ∀ x, head = some x → x = t.place.start + t.blanks

theorem headStarts_of_shows {ts : List LayoutToken} {ps : List Piece}
    (h : List.Forall₂ Shows ts ps) : List.Forall₂ HeadStarts (textsOf ts) (headsOf ps) := by
  induction h with
  | nil => exact .nil
  | @cons t p ts ps hs hrest ih =>
    cases p with
    | line start text =>
      have hp : headsOf (.line start text :: ps) = start :: headsOf ps := rfl
      rw [textsOf_cons_of_text hs.tag, hp]
      refine .cons (fun x hx => hs.start x text ?_) ih
      rw [hx]
    | _ =>
      rw [textsOf_cons_of_ne (by rw [hs.tag]; decide)]
      exact ih

/-- A content line starts with no blank, unless it starts with a carriage return. -/
theorem blanks_of_head? {l : ContentLine} (h : l ∈ contentLines text)
    (hcr : l.content.head? ≠ some '\r') : l.token.blanks = 0 := by
  have hblanks : l.token.blanks = (l.content.takeWhile Text.isInline).length := rfl
  rw [hblanks]
  cases hc : l.content with
  | nil => rfl
  | cons c cs =>
    have hi := isIndent_head_content h (c := c) (by rw [hc]; rfl)
    have hr : c ≠ '\r' := fun he => hcr (by rw [hc, he]; rfl)
    have hinline : Text.isInline c = false := by
      simp only [Text.isIndent, Bool.or_eq_false_iff, beq_eq_false_iff_ne] at hi
      simp [Text.isInline, hi, hr]
    rw [List.takeWhile_cons_of_neg (by simp [hinline])]
    rfl

/-- The layout of a script that is read is the flat form of its tree followed by the end. Its texts
are the content lines, and the `k`-th of them has the `k`-th head, which starts after the blanks at
the start of that text. There are such blanks only after a carriage return. -/
theorem layout_eq_flat (h : parse rules text file = .ok f) :
    ∃ tokens, layout rules text = .ok tokens ∧
      tokens.map LayoutToken.tag = f.flat.map Piece.tag ++ [.eof] ∧
      textsOf tokens = (contentLines text).map ContentLine.token ∧
      List.Forall₂ HeadStarts (textsOf tokens) (headsOf f.flat) ∧
      ∀ t ∈ textsOf tokens, t.value.head? ≠ some '\r' → t.blanks = 0 := by
  obtain ⟨front, place, hl, hshows, hshape⟩ := shows_of_parse h
  refine ⟨_, hl, ?_, hshape.texts, ?_, fun t ht hcr => ?_⟩
  · rw [List.map_append, map_tag_of_shows hshows]
    rfl
  · have heof : textsOf [⟨.eof, place⟩] = [] := rfl
    rw [textsOf_append, heof, List.append_nil]
    exact headStarts_of_shows hshows
  · rw [hshape.texts] at ht
    obtain ⟨l, hmem, rfl⟩ := List.mem_map.mp ht
    exact blanks_of_head? hmem hcr

/-- A spoken line after a carriage return. -/
theorem layout_eq_flat_return : ∃ tokens f, parse {} ['\r', '"', 'a', '"', '\n'] = .ok f ∧
    layout {} ['\r', '"', 'a', '"', '\n'] = .ok tokens ∧
    tokens.map LayoutToken.tag = f.flat.map Piece.tag ++ [.eof] := by
  have hp : ∃ f, parse {} ['\r', '"', 'a', '"', '\n'] = .ok f :=
    ⟨_, parse_of_finish none rfl rfl rfl⟩
  obtain ⟨f, hf⟩ := hp
  obtain ⟨tokens, hl, htags, -, -⟩ := layout_eq_flat hf
  exact ⟨tokens, f, hf, hl, htags⟩

/-- The text of a line need not start where its head starts. -/
theorem not_forall_text_starts_with_head : ¬∀ (rules : LayoutRules) (text : List Char)
    (file : Option Path) (f : SourceFile), parse rules text file = .ok f →
    ∃ tokens, layout rules text = .ok tokens ∧
      tokens.map LayoutToken.tag = f.flat.map Piece.tag ++ [.eof] ∧
      List.Forall₂ (fun t head => ∀ x, head = some x → t.place.start = x)
        (textsOf tokens) (headsOf f.flat) := by
  intro h
  obtain ⟨tokens, hl, -, hstarts⟩ := h {} ['\r', '"', 'a', '"', '\n'] none _
    (parse_of_finish none rfl rfl rfl)
  obtain rfl := Except.ok.inj hl
  have hfirst := (List.forall₂_cons.mp hstarts).1 1 rfl
  exact absurd hfirst (by decide)

end Script

end NovelScript
