import NovelScript.Proofs.Assembly
import NovelScript.Proofs.Canonical
import NovelScript.Proofs.Origin

/-!
# The flat form of a tree

The flat form of a tree is the sequence of lines, openings, closings and separators that it is read
from. An assembly has a flat form as well, of what it has read so far; to close a block adds one
piece to it and nothing more, as long as everything below a line starts after that line.
-/

namespace NovelScript

/-- A piece of a flat form. The line of a head starts at an offset; the line `else` has no head of
its own. Each line has its canonical text. -/
inductive Piece where
  | indent
  | dedent
  | newline
  | line (start : Option Int) (text : List Char)
  deriving DecidableEq, Repr

/-- The mark of the token that a piece is written as. -/
def Piece.mark : Piece → LayoutMark
  | indent => .indent
  | dedent => .dedent
  | newline => .newline
  | line _ text => .text text

/-- The tag of the token that a piece is read from. -/
def Piece.tag (p : Piece) : Tag := p.mark.tag

/-- The separator after a statement that is not the last one. -/
def Statement.separator (s : Statement) : List Piece := if s.isCompound then [] else [.newline]

/-- The caption of a menu. -/
def flatCaption : Option Say → List Piece
  | none => []
  | some line => [.line (some line.span.start) line.written, .newline]

mutual

/-- The flat form of a statement. -/
def Statement.flat : Statement → List Piece
  | .simple action span => [.line (some span.start) (Statement.simple action span).heading]
  | .label name body span =>
    .line (some span.start) (Statement.label name body span).heading :: body.flat
  | .loop condition body span =>
    .line (some span.start) (Statement.loop condition body span).heading :: body.flat
  | .branch condition body elifs none span =>
    .line (some span.start) (Statement.branch condition body elifs none span).heading ::
      (body.flat ++ flatElifs elifs)
  | .branch condition body elifs (some block) span =>
    .line (some span.start) (Statement.branch condition body elifs (some block) span).heading ::
      (body.flat ++ flatElifs elifs ++ .line none elseLine :: block.flat)
  | .menu name caption choices span =>
    .line (some span.start) (Statement.menu name caption choices span).heading :: .indent ::
      (flatCaption caption ++ flatChoices choices ++ [.dedent])

/-- The flat form of a block. -/
def Block.flat : Block → List Piece
  | ⟨statements, _⟩ => .indent :: (flatBody statements ++ [.dedent])

/-- The flat form of the statements of a block, which are separated. -/
def flatBody : List Statement → List Piece
  | [] => []
  | s :: rest => s.flat ++ (if rest.isEmpty then [] else s.separator) ++ flatBody rest

/-- The flat form of the further conditions of a branch. -/
def flatElifs : List ElifClause → List Piece
  | [] => []
  | ⟨condition, body, span⟩ :: rest =>
    .line (some span.start) (elifLine condition) :: (body.flat ++ flatElifs rest)

/-- The flat form of the choices of a menu. -/
def flatChoices : List Choice → List Piece
  | [] => []
  | ⟨text, condition, body, span⟩ :: rest =>
    .line (some span.start) (choiceLine text condition) :: (body.flat ++ flatChoices rest)

end

/-- The flat form of statements that each end with a separator or with a block. -/
def flatAll (ss : List Statement) : List Piece := ss.flatMap fun s => s.flat ++ s.separator

/-- The flat form of a script. -/
def SourceFile.flat (f : SourceFile) : List Piece := flatAll f.statements

/-- Where the heads in a flat form start, in the order of the lines. -/
def headsOf (ps : List Piece) : List (Option Int) :=
  ps.filterMap fun
    | .line start _ => some start
    | _ => none

@[simp] theorem flatAll_nil : flatAll [] = [] := rfl

@[simp] theorem flatAll_append (ss ts : List Statement) :
    flatAll (ss ++ ts) = flatAll ss ++ flatAll ts := List.flatMap_append ..

theorem flatAll_singleton (s : Statement) : flatAll [s] = s.flat ++ s.separator := by
  simp [flatAll]

theorem flatBody_concat (ss : List Statement) (s : Statement) :
    flatBody (ss ++ [s]) = flatAll ss ++ s.flat := by
  induction ss with
  | nil => simp [flatBody]
  | cons t ss ih =>
    have hne : (ss ++ [s]).isEmpty = false := by simp
    rw [List.cons_append, flatBody, hne, ih]
    simp [flatAll]

theorem flatElifs_cons (e : ElifClause) (es : List ElifClause) :
    flatElifs (e :: es) =
      .line (some e.span.start) (elifLine e.condition) :: (e.body.flat ++ flatElifs es) := by
  cases e
  rw [flatElifs]

theorem flatChoices_cons (c : Choice) (cs : List Choice) :
    flatChoices (c :: cs) =
      .line (some c.span.start) (choiceLine c.text c.condition) :: (c.body.flat ++ flatChoices cs) := by
  cases c
  rw [flatChoices]

theorem flatElifs_concat (es : List ElifClause) (e : ElifClause) :
    flatElifs (es ++ [e]) =
      flatElifs es ++ .line (some e.span.start) (elifLine e.condition) :: e.body.flat := by
  induction es with
  | nil => simp [flatElifs_cons, flatElifs]
  | cons e' es ih => simp [flatElifs_cons, ih]

theorem flatChoices_concat (cs : List Choice) (c : Choice) :
    flatChoices (cs ++ [c]) = flatChoices cs ++
      .line (some c.span.start) (choiceLine c.text c.condition) :: c.body.flat := by
  induction cs with
  | nil => simp [flatChoices_cons, flatChoices]
  | cons c' cs ih => simp [flatChoices_cons, ih]

/-- The offsets in a flat form. -/
def startsOf (ps : List Piece) : List Int := (headsOf ps).filterMap id

@[simp] theorem startsOf_nil : startsOf [] = [] := rfl

@[simp] theorem startsOf_line (x : Int) (text : List Char) (ps : List Piece) :
    startsOf (.line (some x) text :: ps) = x :: startsOf ps := rfl

@[simp] theorem startsOf_indent (ps : List Piece) : startsOf (.indent :: ps) = startsOf ps := rfl

@[simp] theorem startsOf_append (ps qs : List Piece) :
    startsOf (ps ++ qs) = startsOf ps ++ startsOf qs := by
  simp [startsOf, headsOf]

/-- The flat form of a statement starts with its head. -/
theorem Statement.flat_eq_cons (s : Statement) :
    ∃ ps, s.flat = .line (some s.span.start) s.heading :: ps := by
  cases s with
  | branch condition body elifs otherwise span =>
    cases otherwise <;> exact ⟨_, by rw [flat]; rfl⟩
  | _ => exact ⟨_, by rw [flat]; rfl⟩

theorem mem_startsOf_flatAll {s : Statement} {ss : List Statement} (h : s ∈ ss) :
    s.span.start ∈ startsOf (flatAll ss) := by
  obtain ⟨front, rest, rfl⟩ := List.append_of_mem h
  obtain ⟨ps, hps⟩ := s.flat_eq_cons
  have hcons : flatAll (s :: rest) = s.flat ++ s.separator ++ flatAll rest := by simp [flatAll]
  simp [hcons, hps]

/-! The flat form of what an assembly has read. -/

/-- The first line of a menu. -/
def OpenMenu.opening (m : OpenMenu) : Piece :=
  .line (some m.keyword.start) (Head.menu m.name m.keyword).written

def OpenMenu.flat (m : OpenMenu) : List Piece :=
  m.opening :: .indent :: (flatCaption m.caption ++ flatChoices m.choices)

def OpenBranch.flat (b : OpenBranch) : List Piece :=
  .line (some b.keyword.start) (Head.branch b.condition b.keyword).written ::
    (b.body.flat ++ flatElifs b.elifs)

/-- The line that a block belongs to. -/
def Owner.line : Owner → Piece
  | label name keyword => .line (some keyword.start) (Head.label name keyword).written
  | loop condition keyword => .line (some keyword.start) (Head.loop condition keyword).written
  | branch condition keyword => .line (some keyword.start) (Head.branch condition keyword).written
  | elif _ condition keyword => .line (some keyword.start) (elifLine condition)
  | otherwise _ => .line none elseLine
  | choice _ text condition =>
    .line (some text.span.start) (choiceLine (Reader.literalOf text) condition)

/-- What was read before that line of the statement that the line is part of. -/
def Owner.earlier : Owner → List Piece
  | elif b _ _ | otherwise b => b.flat
  | choice m _ _ => m.flat
  | _ => []

def Owner.flat (owner : Owner) : List Piece := owner.earlier ++ [owner.line]

/-- The lines of a menu up to its caption, of which the separator is missing. -/
def OpenMenu.flatCaptioned (m : OpenMenu) : List Piece :=
  [m.opening, .indent] ++ match m.caption with
    | some line => [.line (some line.span.start) line.written]
    | none => []

def Stage.flat : Stage → List Piece
  | line => []
  | after s => s.flat
  | clause b => b.flat
  | block owner => owner.flat
  | menu m => [m.opening]
  | caption m => [m.opening, .indent]
  | captioned m => m.flatCaptioned
  | choice m | chosen m => m.flat

/-- The line that was read last, where the last token was a line. -/
def Stage.latest : Stage → Piece
  | after s => .line (some s.span.start) s.heading
  | block owner => owner.line
  | menu m => m.opening
  | captioned ⟨_, _, some said, _⟩ => .line (some said.span.start) said.written
  | _ => .line none []

/-- The flat form of the blocks around the innermost one, up to its opening. -/
def flatOuter : List (Owner × List Statement) → List Piece
  | [] => []
  | (owner, done) :: outer => flatOuter outer ++ flatAll done ++ owner.flat ++ [.indent]

def Assembly.flat (a : Assembly) : List Piece := flatOuter a.outer ++ flatAll a.done ++ a.stage.flat

/-- The piece that the last token was read as. -/
def Assembly.latest (a : Assembly) (t : LayoutToken) : Piece :=
  match t.mark with
  | .indent => .indent
  | .dedent => .dedent
  | .newline => .newline
  | _ => a.stage.latest

/-- No choice starts before its menu. -/
def OpenMenu.Sound (m : OpenMenu) : Prop := ∀ c ∈ m.choices, m.keyword.start ≤ c.span.start

/-- No block of a branch starts before the branch. -/
structure OpenBranch.Sound (b : OpenBranch) : Prop where
  body : b.keyword.start ≤ b.body.span.start
  elifs : ∀ e ∈ b.elifs, b.keyword.start ≤ e.body.span.start

def Owner.Sound : Owner → Prop
  | elif b _ _ | otherwise b => b.Sound
  | choice m _ _ => m.Sound
  | _ => True

def Stage.Sound : Stage → Prop
  | clause b => b.Sound
  | block owner => owner.Sound
  | menu m | caption m => m.caption = none ∧ m.choices = []
  | captioned m => m.caption.isSome ∧ m.choices = []
  | choice m | chosen m => m.Sound
  | line | after _ => True

/-- What was read lies after the lines it belongs to. -/
structure Assembly.Sound (a : Assembly) : Prop where
  stage : a.stage.Sound
  outer : ∀ o ∈ a.outer, o.1.Sound

/-- A branch that is complete starts with its keyword. -/
theorem OpenBranch.Sound.flat_statement {b : OpenBranch} (h : b.Sound) :
    (b.statement none).flat = b.flat := by
  have hstart : (b.keyword.cover ((b.elifs.map fun e => e.body.span).getLastD b.body.span)).start =
      b.keyword.start := by
    refine Span.start_cover (Reader.Gives.getLastD_of_forall
      (Q := fun s : Span => b.keyword.start ≤ s.start) (fun s hs => ?_) h.body)
    obtain ⟨e, he, rfl⟩ := List.mem_map.mp hs
    exact h.elifs e he
  simp only [OpenBranch.statement, Statement.flat, hstart]
  rfl

theorem OpenMenu.Sound.flat_statement {m : OpenMenu} (h : m.Sound) :
    m.statement.flat = m.flat ++ [.dedent] := by
  have hstart : (m.keyword.cover ((m.choices.map Choice.span).getLastD m.keyword)).start =
      m.keyword.start := by
    refine Span.start_cover (Reader.Gives.getLastD_of_forall
      (Q := fun s : Span => m.keyword.start ≤ s.start) (fun s hs => ?_) (Int.le_refl _))
    obtain ⟨c, hc, rfl⟩ := List.mem_map.mp hs
    exact h c hc
  simp only [OpenMenu.statement, Statement.flat, hstart, OpenMenu.flat, List.cons_append]
  rfl

/-- The block below a line starts no earlier than the lines it belongs to. -/
theorem Owner.Sound.close {owner : Owner} (h : owner.Sound) (block : Block)
    (hp : (startsOf owner.flat).Pairwise (· ≤ ·))
    (hb : ∀ x ∈ startsOf owner.flat, x ≤ block.span.start) :
    (owner.close block).flat = owner.flat ++ block.flat ∧ (owner.close block).Sound := by
  cases owner with
  | label name keyword | loop condition keyword =>
    have hk : (keyword.cover block.span).start = keyword.start :=
      Span.start_cover (hb _ (by simp [Owner.flat, Owner.earlier, Owner.line]))
    refine ⟨?_, trivial⟩
    simp only [Owner.close, Stage.flat, Statement.flat, hk]
    rfl
  | branch condition keyword =>
    refine ⟨by simp [Owner.close, Stage.flat, OpenBranch.flat, Owner.flat, Owner.earlier, Owner.line,
      flatElifs], ?_, ?_⟩
    · exact hb _ (by simp [Owner.flat, Owner.earlier, Owner.line])
    · simp
  | elif b condition keyword =>
    have hk : (keyword.cover block.span).start = keyword.start :=
      Span.start_cover (hb _ (by simp [Owner.flat, Owner.earlier, Owner.line]))
    refine ⟨?_, h.body, fun e he => ?_⟩
    · simp [Owner.close, Stage.flat, OpenBranch.flat, Owner.flat, Owner.earlier, Owner.line,
        flatElifs_concat, hk]
    · obtain he | he := List.mem_append.mp he
      · exact h.elifs e he
      · rw [List.mem_singleton.mp he]
        exact hb _ (by simp [Owner.flat, Owner.earlier, Owner.line, OpenBranch.flat])
  | otherwise b =>
    have hk : (b.keyword.cover block.span).start = b.keyword.start :=
      Span.start_cover (hb _ (by simp [Owner.flat, Owner.earlier, Owner.line, OpenBranch.flat]))
    refine ⟨?_, trivial⟩
    simp only [Owner.close, Stage.flat, OpenBranch.statement, Statement.flat, Owner.flat,
      Owner.earlier, Owner.line, OpenBranch.flat, hk, List.append_assoc, List.cons_append, List.nil_append]
    rfl
  | choice m text condition =>
    have hk : (text.span.cover block.span).start = text.span.start :=
      Span.start_cover (hb _ (by simp [Owner.flat, Owner.earlier, Owner.line]))
    refine ⟨?_, fun c hc => ?_⟩
    · simp only [Owner.close, Stage.flat, OpenMenu.flat, Owner.flat, Owner.earlier, Owner.line,
        flatChoices_concat, hk, List.append_assoc, List.cons_append, List.nil_append]
      rfl
    · obtain hc | hc := List.mem_append.mp hc
      · exact h c hc
      · rw [List.mem_singleton.mp hc, hk]
        simp only [Owner.flat, Owner.earlier, Owner.line, OpenMenu.flat, OpenMenu.opening,
          List.cons_append, startsOf_line, List.pairwise_cons] at hp
        exact hp.1 _ (by simp)

/-- Statements that all start after an offset have an extent that does so too. -/
theorem le_start_extentOf {ss : List Statement} {x : Int} (hne : ss ≠ [])
    (h : ∀ s ∈ ss, x ≤ s.span.start) : x ≤ (Parser.extentOf ss).start := by
  obtain ⟨s, rest, rfl⟩ := List.exists_cons_of_ne_nil hne
  refine Span.le_start_cover (h s List.mem_cons_self) ?_
  refine Reader.Gives.getLastD_of_forall (Q := fun t : Span => x ≤ t.start) (fun t ht => ?_)
    (h s List.mem_cons_self)
  obtain ⟨u, hu, rfl⟩ := List.mem_map.mp ht
  exact h u hu

end NovelScript
