import Mathlib
import NovelScript.Proofs.Levels
import NovelScript.Proofs.Tracking

/-!
# The structure of a tree is its indentation

`LaidOut` says of a statement that it takes up some content lines in such a way that the widths of
the lines tell its blocks: the statements of a block all start on lines of one width, which is
greater than that of the line the block belongs to. The further clauses of a branch are as wide as
its first line, and the caption and the choices of a menu share one greater width. The statements of
a script are laid out at width zero.
-/

namespace NovelScript

/-- The span starts on the line, after the blanks of its content, and the line has width `w`. -/
structure StartsOn (rules : LayoutRules) (w : Int) (span : Span) (l : ContentLine) : Prop where
  width : rules.width l.indent = .ok w
  start : span.start = l.start + l.token.blanks

/-- The caption of a menu takes up one line, if there is one. -/
inductive CaptionLaidOut (rules : LayoutRules) : Int → Option Say → List ContentLine → Prop
  | none (w : Int) : CaptionLaidOut rules w none []
  | some {w : Int} {line : Say} {l : ContentLine} (h : StartsOn rules w line.span l) :
    CaptionLaidOut rules w (some line) [l]

mutual

/-- The statement starts on a line of width `w` and takes up the lines. -/
inductive Statement.LaidOut (rules : LayoutRules) : Int → Statement → List ContentLine → Prop
  | simple {w : Int} {action : Action} {span : Span} {l : ContentLine}
    (h : StartsOn rules w span l) : Statement.LaidOut rules w (.simple action span) [l]
  | label {w : Int} {name : LabelName} {body : Block} {span : Span} {l : ContentLine}
    {ls : List ContentLine} (h : StartsOn rules w span l) (hb : Block.LaidOut rules w body ls) :
    Statement.LaidOut rules w (.label name body span) (l :: ls)
  | loop {w : Int} {condition : Expression} {body : Block} {span : Span} {l : ContentLine}
    {ls : List ContentLine} (h : StartsOn rules w span l) (hb : Block.LaidOut rules w body ls) :
    Statement.LaidOut rules w (.loop condition body span) (l :: ls)
  | branch {w : Int} {condition : Expression} {body : Block} {elifs : List ElifClause}
    {otherwise : Option Block} {span : Span} {l : ContentLine} {ls ms ns : List ContentLine}
    (h : StartsOn rules w span l) (hb : Block.LaidOut rules w body ls)
    (he : ElifsLaidOut rules w elifs ms) (ho : ElseLaidOut rules w otherwise ns) :
    Statement.LaidOut rules w (.branch condition body elifs otherwise span) (l :: (ls ++ ms ++ ns))
  | menu {w v : Int} {name : Option LabelName} {caption : Option Say} {choices : List Choice}
    {span : Span} {l : ContentLine} {ls ms : List ContentLine} (h : StartsOn rules w span l)
    (hv : w < v) (hc : CaptionLaidOut rules v caption ls) (hs : ChoicesLaidOut rules v choices ms) :
    Statement.LaidOut rules w (.menu name caption choices span) (l :: (ls ++ ms))

/-- The block takes up the lines below a line of width `w`: its statements all start on lines of one
greater width. -/
inductive Block.LaidOut (rules : LayoutRules) : Int → Block → List ContentLine → Prop
  | mk {w v : Int} {statements : List Statement} {span : Span} {ls : List ContentLine} (hv : w < v)
    (h : BodyLaidOut rules v statements ls) : Block.LaidOut rules w ⟨statements, span⟩ ls

/-- The statements all start on lines of width `w` and take up the lines one after the other. -/
inductive BodyLaidOut (rules : LayoutRules) : Int → List Statement → List ContentLine → Prop
  | nil (w : Int) : BodyLaidOut rules w [] []
  | cons {w : Int} {s : Statement} {ss : List Statement} {ls ms : List ContentLine}
    (h : Statement.LaidOut rules w s ls) (hs : BodyLaidOut rules w ss ms) :
    BodyLaidOut rules w (s :: ss) (ls ++ ms)

/-- The further conditions of a branch start on lines of width `w`. -/
inductive ElifsLaidOut (rules : LayoutRules) : Int → List ElifClause → List ContentLine → Prop
  | nil (w : Int) : ElifsLaidOut rules w [] []
  | cons {w : Int} {condition : Expression} {body : Block} {span : Span} {es : List ElifClause}
    {l : ContentLine} {ls ms : List ContentLine} (h : StartsOn rules w span l)
    (hb : Block.LaidOut rules w body ls) (hs : ElifsLaidOut rules w es ms) :
    ElifsLaidOut rules w (⟨condition, body, span⟩ :: es) (l :: (ls ++ ms))

/-- The line of the last clause has width `w`. -/
inductive ElseLaidOut (rules : LayoutRules) : Int → Option Block → List ContentLine → Prop
  | none (w : Int) : ElseLaidOut rules w none []
  | some {w : Int} {block : Block} {l : ContentLine} {ls : List ContentLine}
    (hw : rules.width l.indent = .ok w) (hr : l.token.Reads Reader.elseHead ())
    (hb : Block.LaidOut rules w block ls) : ElseLaidOut rules w (some block) (l :: ls)

/-- The choices of a menu start on lines of width `w`. -/
inductive ChoicesLaidOut (rules : LayoutRules) : Int → List Choice → List ContentLine → Prop
  | nil (w : Int) : ChoicesLaidOut rules w [] []
  | cons {w : Int} {text : StringLiteral} {condition : Option Expression} {body : Block}
    {span : Span} {cs : List Choice} {l : ContentLine} {ls ms : List ContentLine}
    (h : StartsOn rules w span l) (hb : Block.LaidOut rules w body ls)
    (hs : ChoicesLaidOut rules w cs ms) :
    ChoicesLaidOut rules w (⟨text, condition, body, span⟩ :: cs) (l :: (ls ++ ms))

end

/-- Tokens that show the pieces keep the widths of the open blocks, and their lines are what `P`
says of the width of the innermost block. -/
def Lays (rules : LayoutRules) (ps : List Piece) (P : Int → List ContentLine → Prop) : Prop :=
  ∀ ts ls w st st', List.Forall₂ Shows ts ps → Levels rules (w :: st) ts ls st' →
    st' = w :: st ∧ P w ls

namespace Lays

variable {rules : LayoutRules} {ps qs : List Piece} {P Q R : Int → List ContentLine → Prop}

theorem nil (h : ∀ w, P w []) : Lays rules [] P := by
  intro ts ls w st st' hs hl
  cases hs
  cases hl
  exact ⟨rfl, h w⟩

/-- A line is as wide as the block it lies in. -/
theorem line {start : Option Int} {text : List Char} (hq : Lays rules ps Q)
    (h : ∀ w l ls, rules.width l.indent = .ok w → Shows l.token (.line start text) → Q w ls →
      P w (l :: ls)) : Lays rules (.line start text :: ps) P := by
  intro ts ls w st st' hs hl
  obtain ⟨t, ts, ht, hts, rfl⟩ := List.forall₂_cons_right_iff.mp hs
  cases hl with
  | @text _ _ _ _ l ls hw _ hl =>
    obtain ⟨rfl, hls⟩ := hq _ _ _ _ _ hts hl
    exact ⟨rfl, h w l ls hw ht hls⟩
  | indent hm | dedent hm | newline hm => cases ht.tag_of_mark hm

theorem newline (hp : Lays rules ps P) : Lays rules (.newline :: ps) P := by
  intro ts ls w st st' hs hl
  obtain ⟨t, ts, ht, hts, rfl⟩ := List.forall₂_cons_right_iff.mp hs
  cases hl with
  | newline hm hl => exact hp _ _ _ _ _ hts hl
  | text => cases ht.tag
  | indent hm | dedent hm => cases ht.tag_of_mark hm

theorem append (hp : Lays rules ps P) (hq : Lays rules qs Q)
    (h : ∀ w ls ms, P w ls → Q w ms → R w (ls ++ ms)) : Lays rules (ps ++ qs) R := by
  intro ts ls w st st' hs hl
  rw [← List.take_append_drop ps.length ts] at hl
  obtain ⟨st₁, ls₁, ls₂, rfl, hl₁, hl₂⟩ := hl.exists_of_append
  obtain ⟨rfl, h₁⟩ := hp _ _ _ _ _ (List.forall₂_take_append _ _ _ hs) hl₁
  obtain ⟨rfl, h₂⟩ := hq _ _ _ _ _ (List.forall₂_drop_append _ _ _ hs) hl₂
  exact ⟨rfl, h w ls₁ ls₂ h₁ h₂⟩

/-- What is opened and closed lies at a greater width than the line before it. -/
theorem block (hp : Lays rules ps P) (h : ∀ w v ls, w < v → P v ls → Q w ls) :
    Lays rules (.indent :: (ps ++ [.dedent])) Q := by
  have hclosed : ∀ v w st, ∀ ts ls st', List.Forall₂ Shows ts (ps ++ [.dedent]) →
      Levels rules (v :: w :: st) ts ls st' → st' = w :: st ∧ P v ls := by
    intro v w st ts ls st' hs hl
    rw [← List.take_append_drop ps.length ts] at hl
    obtain ⟨st₁, ls₁, ls₂, rfl, hl₁, hl₂⟩ := hl.exists_of_append
    obtain ⟨rfl, h₁⟩ := hp _ _ _ _ _ (List.forall₂_take_append _ _ _ hs) hl₁
    obtain ⟨d, ds, hd, hds, he⟩ :=
      List.forall₂_cons_right_iff.mp (List.forall₂_drop_append _ _ _ hs)
    cases hds
    rw [he] at hl₂
    cases hl₂ with
    | dedent _ hl =>
      cases hl
      rw [List.append_nil]
      exact ⟨rfl, h₁⟩
    | text => cases hd.tag
    | indent hm | newline hm => cases hd.tag_of_mark hm
  intro ts ls w st st' hs hl
  obtain ⟨t, ts, ht, hts, rfl⟩ := List.forall₂_cons_right_iff.mp hs
  cases hl with
  | @indent v _ _ _ _ _ _ _ hv hl =>
    obtain ⟨rfl, hls⟩ := hclosed v w st _ _ _ hts hl
    exact ⟨rfl, h w v ls hv hls⟩
  | text => cases ht.tag
  | dedent hm | newline hm => cases ht.tag_of_mark hm

end Lays

theorem startsOn_of_shows {rules : LayoutRules} {w : Int} {span : Span} {l : ContentLine}
    {text : List Char} (hw : rules.width l.indent = .ok w)
    (h : Shows l.token (.line (some span.start) text)) : StartsOn rules w span l :=
  ⟨hw, h.start _ _ rfl⟩

theorem lays_separator (rules : LayoutRules) (s : Statement) :
    Lays rules s.separator fun _ ls => ls = [] := by
  unfold Statement.separator
  split
  · exact .nil fun _ => rfl
  · exact .newline (.nil fun _ => rfl)

theorem lays_flatCaption (rules : LayoutRules) (caption : Option Say) :
    Lays rules (flatCaption caption) fun w ls => CaptionLaidOut rules w caption ls := by
  cases caption with
  | none => exact .nil .none
  | some line =>
    refine .line (.newline (.nil (P := fun _ ls => ls = []) fun _ => rfl)) ?_
    rintro w l _ hw hs rfl
    exact .some (startsOn_of_shows hw hs)

mutual

/-- Tokens that show the flat form of a statement lay it out. -/
theorem Statement.lays_flat (rules : LayoutRules) : ∀ s : Statement,
    Lays rules s.flat fun w ls => s.LaidOut rules w ls
  | .simple action span => by
    rw [Statement.flat]
    refine .line (.nil (P := fun _ ls => ls = []) fun _ => rfl) ?_
    rintro w l _ hw hs rfl
    exact .simple (startsOn_of_shows hw hs)
  | .label name body span => by
    rw [Statement.flat]
    exact .line (Block.lays_flat rules body) fun w l ls hw hs hb =>
      .label (startsOn_of_shows hw hs) hb
  | .loop condition body span => by
    rw [Statement.flat]
    exact .line (Block.lays_flat rules body) fun w l ls hw hs hb =>
      .loop (startsOn_of_shows hw hs) hb
  | .branch condition body elifs none span => by
    rw [Statement.flat]
    refine .line ((Block.lays_flat rules body).append (lays_flatElifs rules elifs)
      (R := fun w ls => ∃ ls₁ ls₂, ls = ls₁ ++ ls₂ ∧ body.LaidOut rules w ls₁ ∧
        ElifsLaidOut rules w elifs ls₂) fun w ls ms h₁ h₂ => ⟨ls, ms, rfl, h₁, h₂⟩) ?_
    rintro w l _ hw hs ⟨ls, ms, rfl, hb, he⟩
    have hnone : Statement.LaidOut rules w (.branch condition body elifs none span)
        (l :: (ls ++ ms ++ [])) := .branch (startsOn_of_shows hw hs) hb he (.none w)
    rwa [List.append_nil] at hnone
  | .branch condition body elifs (some block) span => by
    rw [Statement.flat]
    have hfront := (Block.lays_flat rules body).append (lays_flatElifs rules elifs)
      (R := fun w ls => ∃ ls₁ ls₂, ls = ls₁ ++ ls₂ ∧ body.LaidOut rules w ls₁ ∧
        ElifsLaidOut rules w elifs ls₂) fun w ls ms h₁ h₂ => ⟨ls, ms, rfl, h₁, h₂⟩
    have hlast : Lays rules (.line none elseLine :: block.flat) fun w ls =>
        ElseLaidOut rules w (some block) ls :=
      .line (Block.lays_flat rules block) fun w l ls hw hs hb => .some hw (hs.headless _ rfl) hb
    refine .line (hfront.append hlast (R := fun w ls => ∃ ls₁ ls₂ ls₃, ls = ls₁ ++ ls₂ ++ ls₃ ∧
      body.LaidOut rules w ls₁ ∧ ElifsLaidOut rules w elifs ls₂ ∧
        ElseLaidOut rules w (some block) ls₃) ?_) ?_
    · rintro w _ ns ⟨ls, ms, rfl, h₁, h₂⟩ h₃
      exact ⟨ls, ms, ns, rfl, h₁, h₂, h₃⟩
    · rintro w l _ hw hs ⟨ls, ms, ns, rfl, hb, he, ho⟩
      exact .branch (startsOn_of_shows hw hs) hb he ho
  | .menu name caption choices span => by
    rw [Statement.flat]
    have hbody := ((lays_flatCaption rules caption).append (lays_flatChoices rules choices)
      (R := fun v ls => ∃ ls₁ ls₂, ls = ls₁ ++ ls₂ ∧ CaptionLaidOut rules v caption ls₁ ∧
        ChoicesLaidOut rules v choices ls₂) fun v ls ms h₁ h₂ => ⟨ls, ms, rfl, h₁, h₂⟩).block
      (Q := fun w ls => ∃ v ls₁ ls₂, w < v ∧ ls = ls₁ ++ ls₂ ∧ CaptionLaidOut rules v caption ls₁ ∧
        ChoicesLaidOut rules v choices ls₂)
      fun w v ls hv ⟨ls₁, ls₂, he, h₁, h₂⟩ => ⟨v, ls₁, ls₂, hv, he, h₁, h₂⟩
    refine .line hbody ?_
    rintro w l _ hw hs ⟨v, ls, ms, hv, rfl, hc, hcs⟩
    exact .menu (startsOn_of_shows hw hs) hv hc hcs

theorem Block.lays_flat (rules : LayoutRules) : ∀ b : Block,
    Lays rules b.flat fun w ls => b.LaidOut rules w ls
  | ⟨statements, span⟩ => by
    rw [Block.flat]
    exact (lays_flatBody rules statements).block fun w v ls hv h => .mk hv h

theorem lays_flatBody (rules : LayoutRules) : ∀ ss : List Statement,
    Lays rules (flatBody ss) fun w ls => BodyLaidOut rules w ss ls
  | [] => by
    rw [flatBody]
    exact .nil .nil
  | s :: rest => by
    rw [flatBody]
    have hsep : Lays rules (if rest.isEmpty then [] else s.separator) fun _ ls => ls = [] := by
      split
      · exact .nil fun _ => rfl
      · exact lays_separator rules s
    refine ((Statement.lays_flat rules s).append hsep (R := fun w ls => s.LaidOut rules w ls)
      ?_).append (lays_flatBody rules rest) fun w ls ms h hs => .cons h hs
    rintro w ls _ h rfl
    rwa [List.append_nil]

theorem lays_flatElifs (rules : LayoutRules) : ∀ es : List ElifClause,
    Lays rules (flatElifs es) fun w ls => ElifsLaidOut rules w es ls
  | [] => by
    rw [flatElifs]
    exact .nil .nil
  | ⟨condition, body, span⟩ :: rest => by
    rw [flatElifs]
    refine .line ((Block.lays_flat rules body).append (lays_flatElifs rules rest)
      (R := fun w ls => ∃ ls₁ ls₂, ls = ls₁ ++ ls₂ ∧ body.LaidOut rules w ls₁ ∧
        ElifsLaidOut rules w rest ls₂) fun w ls ms h₁ h₂ => ⟨ls, ms, rfl, h₁, h₂⟩) ?_
    rintro w l _ hw hs ⟨ls, ms, rfl, hb, he⟩
    exact .cons (startsOn_of_shows hw hs) hb he

theorem lays_flatChoices (rules : LayoutRules) : ∀ cs : List Choice,
    Lays rules (flatChoices cs) fun w ls => ChoicesLaidOut rules w cs ls
  | [] => by
    rw [flatChoices]
    exact .nil .nil
  | ⟨text, condition, body, span⟩ :: rest => by
    rw [flatChoices]
    refine .line ((Block.lays_flat rules body).append (lays_flatChoices rules rest)
      (R := fun w ls => ∃ ls₁ ls₂, ls = ls₁ ++ ls₂ ∧ body.LaidOut rules w ls₁ ∧
        ChoicesLaidOut rules w rest ls₂) fun w ls ms h₁ h₂ => ⟨ls, ms, rfl, h₁, h₂⟩) ?_
    rintro w l _ hw hs ⟨ls, ms, rfl, hb, hc⟩
    exact .cons (startsOn_of_shows hw hs) hb hc

end

theorem lays_flatAll (rules : LayoutRules) (ss : List Statement) :
    Lays rules (flatAll ss) fun w ls => BodyLaidOut rules w ss ls := by
  induction ss with
  | nil => exact .nil .nil
  | cons s ss ih =>
    have hcons : flatAll (s :: ss) = s.flat ++ s.separator ++ flatAll ss := by simp [flatAll]
    rw [hcons]
    refine ((Statement.lays_flat rules s).append (lays_separator rules s)
      (R := fun w ls => s.LaidOut rules w ls) ?_).append ih fun w ls ms h hs => .cons h hs
    rintro w ls _ h rfl
    rwa [List.append_nil]

namespace Script

/-- The statements of a script that is read take up its content lines, one after the other and at
width zero, and the lines of each block are indented as one below the line the block belongs to. -/
theorem laidOut_of_parse (rules : LayoutRules) (h : 1 ≤ rules.tabWidth) (text : List Char)
    (file : Option Path) (f : SourceFile) (hf : parse rules text file = .ok f) :
    BodyLaidOut rules 0 f.statements (contentLines text) := by
  obtain ⟨front, place, a, hl, -, hrun, -, htracks, hflat⟩ := exists_run_of_parse hf
  obtain ⟨st, hlevels⟩ := levels_of_layout h hl (firstFault?_of_run hrun)
  have hshows := htracks.shows
  rw [hflat] at hshows
  exact (lays_flatAll rules f.statements _ _ _ _ _ hshows hlevels).2

/-- A branch of which the blocks are indented differently. -/
def mixedScript : List Char := "if a:\n\tpass\nelse:\n  pass\n".toList

theorem laidOut_of_parse_mixedScript : ∃ f, parse {} mixedScript = .ok f ∧
    BodyLaidOut {} 0 f.statements (contentLines mixedScript) := by
  obtain ⟨f, hf⟩ := exists_of_toBool (x := parse {} mixedScript) (by cbv)
  exact ⟨f, hf, laidOut_of_parse {} (by decide) mixedScript none f hf⟩

end Script

end NovelScript
