import NovelScript.Proofs.HeadNodes
import NovelScript.Proofs.Tracking

/-!
# A tree over the lines of its script

Every line that an assembly takes is the tokens of one head, and the heads of a complete tree are
all its lines in order. What was read so far lies over the stretches of these lines: statements and
blocks over stretches of their own, and what is still open from its first line on.
-/

namespace NovelScript

open Line Text

/-! The heads of what an assembly has read. -/

theorem headLinesAll_append (ss ts : List Statement) :
    headLinesAll (ss ++ ts) = headLinesAll ss ++ headLinesAll ts := by
  induction ss with
  | nil => rw [headLinesAll, List.nil_append, List.nil_append]
  | cons s ss ih => rw [List.cons_append, headLinesAll, headLinesAll, ih, List.append_assoc]

theorem headLinesAll_singleton (s : Statement) : headLinesAll [s] = s.headLines := by
  rw [headLinesAll, headLinesAll, List.append_nil]

theorem elifHeadLines_append (es es' : List ElifClause) :
    elifHeadLines (es ++ es') = elifHeadLines es ++ elifHeadLines es' := by
  induction es with
  | nil => simp [elifHeadLines]
  | cons e es ih =>
    cases e
    simp [elifHeadLines, ih]

theorem choiceHeadLines_append (cs cs' : List Choice) :
    choiceHeadLines (cs ++ cs') = choiceHeadLines cs ++ choiceHeadLines cs' := by
  induction cs with
  | nil => simp [choiceHeadLines]
  | cons c cs ih =>
    cases c
    simp [choiceHeadLines, ih]

def OpenBranch.headLines (b : OpenBranch) : List HeadLine :=
  .branch b.condition :: (b.body.headLines ++ elifHeadLines b.elifs)

def OpenMenu.headLines (m : OpenMenu) : List HeadLine :=
  .menu m.name :: ((m.caption.map fun line => .action (.say line)).toList ++
    choiceHeadLines m.choices)

def Owner.headLines : Owner → List HeadLine
  | label name _ => [.label name]
  | loop condition _ => [.loop condition]
  | branch condition _ => [.branch condition]
  | elif b condition _ => b.headLines ++ [.elif condition]
  | otherwise b => b.headLines ++ [.otherwise]
  | choice m text condition => m.headLines ++ [.choice (Reader.literalOf text) condition]

def Stage.headLines : Stage → List HeadLine
  | line => []
  | after s => s.headLines
  | clause b => b.headLines
  | block owner => owner.headLines
  | menu m | caption m | captioned m | choice m | chosen m => m.headLines

def outerHeadLines : List (Owner × List Statement) → List HeadLine
  | [] => []
  | (owner, done) :: outer => outerHeadLines outer ++ headLinesAll done ++ owner.headLines

def Assembly.headLines (a : Assembly) : List HeadLine :=
  outerHeadLines a.outer ++ headLinesAll a.done ++ a.stage.headLines

theorem Head.headLines_stage (h : Head) : h.stage.headLines = [h.headLine] := by
  cases h with
  | simple action span => simp [stage, Stage.headLines, Statement.headLines, headLine]
  | menu name keyword => simp [stage, Stage.headLines, OpenMenu.headLines, choiceHeadLines, headLine]
  | _ => rfl

theorem Stage.headLines_of_statement? {g : Stage} {s : Statement} (h : g.statement? = some s) :
    g.headLines = s.headLines := by
  cases g with
  | after s' =>
    cases h
    rfl
  | clause b =>
    cases h
    simp [headLines, OpenBranch.headLines, OpenBranch.statement, Statement.headLines]
  | _ => cases h

theorem Owner.headLines_close (owner : Owner) (block : Block) :
    (owner.close block).headLines = owner.headLines ++ block.headLines := by
  cases owner with
  | label name keyword | loop condition keyword =>
    simp [close, headLines, Stage.headLines, Statement.headLines]
  | branch condition keyword =>
    simp [close, headLines, Stage.headLines, OpenBranch.headLines, elifHeadLines]
  | elif b condition keyword =>
    simp [close, headLines, Stage.headLines, OpenBranch.headLines, elifHeadLines_append,
      elifHeadLines]
  | otherwise b =>
    simp [close, headLines, Stage.headLines, OpenBranch.headLines, OpenBranch.statement,
      Statement.headLines]
  | choice m text condition =>
    simp [close, headLines, Stage.headLines, OpenMenu.headLines, choiceHeadLines_append,
      choiceHeadLines]

namespace Assembly

variable {a : Assembly} {s : Statement} {m : OpenMenu}

theorem headLines_head (h : Head) (done : List Statement) (outer : List (Owner × List Statement)) :
    headLines ⟨h.stage, done, outer⟩ = headLines ⟨.line, done, outer⟩ ++ [h.headLine] := by
  rw [headLines, h.headLines_stage]
  simp [headLines, Stage.headLines]

/-- A statement that is complete keeps its lines among those before it. -/
theorem headLines_statement (hs : a.stage.statement? = some s) :
    headLines ⟨.line, a.done ++ [s], a.outer⟩ = a.headLines := by
  simp [headLines, headLinesAll_append, headLinesAll_singleton,
    ← Stage.headLines_of_statement? hs, Stage.headLines]

theorem headLines_close {owner : Owner} {done : List Statement}
    {outer : List (Owner × List Statement)} (hs : a.stage.statement? = some s)
    (ho : a.outer = (owner, done) :: outer) (span : Span) :
    headLines ⟨owner.close ⟨a.done ++ [s], span⟩, done, outer⟩ = a.headLines := by
  rw [headLines, Owner.headLines_close, Block.headLines, headLinesAll_append,
    headLinesAll_singleton, ← Stage.headLines_of_statement? hs]
  simp [headLines, outerHeadLines, ho]

theorem headLines_caption (hs : a.stage = .caption m) (hm : m.caption = none ∧ m.choices = [])
    (line : Say) : headLines { a with stage := .captioned { m with caption := some line } } =
      a.headLines ++ [.action (.say line)] := by
  obtain ⟨hcaption, hchoices⟩ := hm
  simp [headLines, hs, Stage.headLines, OpenMenu.headLines, hcaption, hchoices, choiceHeadLines]

theorem headLines_choice (hs : a.stage.menu? = some m) (text : Lexeme)
    (condition : Option Expression) :
    headLines { a with stage := .block (.choice m text condition) } =
      a.headLines ++ [.choice (Reader.literalOf text) condition] := by
  have hm : a.stage.headLines = m.headLines := by
    cases hst : a.stage <;> rw [hst] at hs <;> cases hs <;> rfl
  rw [headLines, Stage.headLines, Owner.headLines, ← hm]
  simp [headLines]

theorem headLines_leave (hs : a.stage = .chosen m) :
    headLines { a with stage := .after m.statement } = a.headLines := by
  simp [headLines, hs, Stage.headLines, OpenMenu.statement, Statement.headLines, OpenMenu.headLines]

end Assembly

/-! Where the nodes lie that an assembly has read. -/

theorem statementNodes_eq_map (ss : List Statement) : statementNodes ss = ss.map Statement.node := by
  induction ss with
  | nil => rw [statementNodes, List.map_nil]
  | cons s ss ih => rw [statementNodes, ih, List.map_cons]

theorem elifNodes_append (es es' : List ElifClause) :
    elifNodes (es ++ es') = elifNodes es ++ elifNodes es' := by
  induction es with
  | nil => simp [elifNodes]
  | cons e es ih =>
    cases e
    simp [elifNodes, ih]

theorem choiceNodes_append (cs cs' : List Choice) :
    choiceNodes (cs ++ cs') = choiceNodes cs ++ choiceNodes cs' := by
  induction cs with
  | nil => simp [choiceNodes]
  | cons c cs ih =>
    cases c
    simp [choiceNodes, ih]

/-- The statements were read one after the other. -/
def Succeed (ss : List Statement) (ts : List Stretch) : Prop :=
  Each (fun s us => s.node.Over us) ss ts

/-- The nodes of a branch as far as it was read. -/
def OpenBranch.nodes (b : OpenBranch) : List Node :=
  b.condition.node :: b.body.node :: elifNodes b.elifs

/-- The nodes of a menu as far as it was read. -/
def OpenMenu.nodes (m : OpenMenu) : List Node :=
  (m.name.map LabelName.node).toList ++ (m.caption.map Say.node).toList ++ choiceNodes m.choices

/-- The branch is open, and what was read of it is a branch without a last clause. -/
structure OpenBranch.LiesOver (b : OpenBranch) (ts : List Stretch) : Prop where
  opening : Opening b.keyword b.nodes ts
  spans : (b.statement none).node.Over ts

def OpenMenu.LiesOver (m : OpenMenu) (ts : List Stretch) : Prop := Opening m.keyword m.nodes ts

/-- The line that a block belongs to lies over the last of the stretches, and what was read before
of the same statement over the others. -/
inductive Owner.LiesOver : Owner → List Stretch → Prop
  | label {name : LabelName} {keyword : Span} {ts : List Stretch}
    (h : Opening keyword [name.node] ts) : LiesOver (.label name keyword) ts
  | loop {condition : Expression} {keyword : Span} {ts : List Stretch}
    (h : Opening keyword [condition.node] ts) : LiesOver (.loop condition keyword) ts
  | branch {condition : Expression} {keyword : Span} {ts : List Stretch}
    (h : Opening keyword [condition.node] ts) : LiesOver (.branch condition keyword) ts
  | elif {b : OpenBranch} {condition : Expression} {keyword : Span} {ts us : List Stretch}
    (hb : Opening b.keyword b.nodes ts) (h : Opening keyword [condition.node] us) :
    LiesOver (.elif b condition keyword) (ts ++ us)
  | otherwise {b : OpenBranch} {ts : List Stretch} (hb : Opening b.keyword b.nodes ts) :
    LiesOver (.otherwise b) ts
  | choice {m : OpenMenu} {text : Lexeme} {condition : Option Expression} {ts us : List Stretch}
    (hm : m.LiesOver ts)
    (h : Opening text.span ((Reader.literalOf text).node ::
      (condition.map Expression.node).toList) us) :
    LiesOver (.choice m text condition) (ts ++ us)

/-- What was read of the statement that the next token may continue lies over the stretches. -/
inductive Stage.LiesOver : Stage → List Stretch → Prop
  | line : LiesOver .line []
  | after {s : Statement} {ts : List Stretch} (h : s.node.Over ts) : LiesOver (.after s) ts
  | clause {b : OpenBranch} {ts : List Stretch} (h : b.LiesOver ts) : LiesOver (.clause b) ts
  | block {owner : Owner} {ts : List Stretch} (h : owner.LiesOver ts) : LiesOver (.block owner) ts
  | menu {m : OpenMenu} {ts : List Stretch} (h : m.LiesOver ts)
    (hm : m.caption = none ∧ m.choices = []) : LiesOver (.menu m) ts
  | caption {m : OpenMenu} {ts : List Stretch} (h : m.LiesOver ts)
    (hm : m.caption = none ∧ m.choices = []) : LiesOver (.caption m) ts
  | captioned {m : OpenMenu} {ts : List Stretch} (h : m.LiesOver ts) : LiesOver (.captioned m) ts
  | choice {m : OpenMenu} {ts : List Stretch} (h : m.LiesOver ts) : LiesOver (.choice m) ts
  | chosen {m : OpenMenu} {ts : List Stretch} (h : m.LiesOver ts) (hs : m.statement.node.Over ts) :
    LiesOver (.chosen m) ts

/-- The lines around the innermost open block, and the statements before each of them. -/
inductive OuterOver : List (Owner × List Statement) → List Stretch → Prop
  | nil : OuterOver [] []
  | cons {owner : Owner} {done : List Statement} {outer : List (Owner × List Statement)}
    {os ds ts : List Stretch} (ho : OuterOver outer os) (hd : Succeed done ds)
    (h : owner.LiesOver ts) : OuterOver ((owner, done) :: outer) (os ++ (ds ++ ts))

/-- All that was read lies over the stretches, from the outermost block to the innermost one. -/
inductive Assembly.LiesOver : Assembly → List Stretch → Prop
  | mk {stage : Stage} {done : List Statement} {outer : List (Owner × List Statement)}
    {os ds ts : List Stretch} (ho : OuterOver outer os) (hd : Succeed done ds)
    (h : stage.LiesOver ts) : LiesOver ⟨stage, done, outer⟩ (os ++ (ds ++ ts))

section

variable {ts us : List Stretch} {ss : List Statement} {block : Block}

theorem Succeed.lieOver (h : Succeed ss ts) : LieOver (statementNodes ss) ts := by
  rw [statementNodes_eq_map]
  exact Each.lieOver h

theorem Statement.span_node (s : Statement) : s.node.span = s.span := by
  cases s with
  | branch condition body elifs otherwise span =>
    cases otherwise <;> rw [Statement.node] <;> rfl
  | _ =>
    rw [Statement.node]
    rfl

theorem Block.span_node (b : Block) : b.node.span = b.span := by
  cases b
  rw [Block.node]
  rfl

/-- The extent of statements goes from the first one to the last one. -/
theorem Succeed.over (h : Succeed ss ts) (hne : ss ≠ []) (hts : InOrder ts) :
    (Node.inner (Parser.extentOf ss) (statementNodes ss)).Over ts := by
  obtain ⟨front, last, rfl⟩ := ss.eq_nil_or_concat'.resolve_left hne
  obtain ⟨us, vs, rfl, hus, hvs⟩ := Each.exists_of_concat h
  have hlast : Covers last.span vs := last.span_node ▸ hvs.covers
  have hnodes : statementNodes (front ++ [last]) = statementNodes front ++ [last.node] := by
    simp only [statementNodes_eq_map, List.map_append, List.map_singleton]
  rw [Parser.extentOf, hnodes]
  simp only [List.map_append, List.map_singleton, List.getLastD_concat]
  cases hus with
  | nil =>
    rw [List.map_nil, List.nil_append, List.headD_cons, Span.cover_self]
    exact .around hlast hvs
  | @cons s front us us' hs hrest =>
    have hfirst : Covers s.span us := s.span_node ▸ hs.covers
    rw [List.map_cons, List.cons_append, List.headD_cons]
    have hopening : Opening s.span (statementNodes (s :: front)) (us ++ us') :=
      ⟨⟨us, List.prefix_append us us', hfirst⟩, Succeed.lieOver (.cons hs hrest)⟩
    exact hopening.close hvs hts hlast (List.suffix_refl vs)

theorem OpenBranch.node_statement (b : OpenBranch) : (b.statement none).node =
    .inner (b.keyword.cover ((b.elifs.map fun e => e.body.span).getLastD b.body.span)) b.nodes := by
  rw [statement, Statement.node]
  rfl

theorem OpenMenu.node_statement (m : OpenMenu) : m.statement.node =
    .inner (m.keyword.cover ((m.choices.map Choice.span).getLastD m.keyword)) m.nodes := by
  rw [statement, Statement.node]
  rfl

/-- The block of a line completes what the line belongs to. -/
theorem Owner.LiesOver.close {owner : Owner} (h : owner.LiesOver ts) (hb : block.node.Over us)
    (hts : InOrder (ts ++ us)) : (owner.close block).LiesOver (ts ++ us) := by
  have hblock : Covers block.span us := block.span_node ▸ hb.covers
  cases h with
  | label h | loop h =>
    refine .after ?_
    rw [Statement.node]
    exact h.close hb hts hblock (List.suffix_refl us)
  | @branch condition keyword _ h =>
    refine .clause ⟨?_, ?_⟩
    · have happend := h.append hb.alone
      simpa [OpenBranch.nodes, elifNodes] using happend
    · simp only [OpenBranch.node_statement, OpenBranch.nodes, elifNodes, List.map_nil,
        List.getLastD_nil]
      exact h.close hb hts hblock (List.suffix_refl us)
  | @elif b condition keyword us' vs hb' h =>
    rw [List.append_assoc] at hts ⊢
    have hclause := h.close hb hts.right hblock (List.suffix_refl us)
    have hnodes : OpenBranch.nodes { b with elifs := b.elifs ++ [⟨condition, block,
        keyword.cover block.span⟩] } =
          b.nodes ++ [.inner (keyword.cover block.span) [condition.node, block.node]] := by
      simp [OpenBranch.nodes, elifNodes_append, elifNodes]
    refine .clause ⟨?_, ?_⟩
    · rw [hnodes]
      exact hb'.append hclause.alone
    · rw [OpenBranch.node_statement, hnodes, List.map_append, List.map_singleton,
        List.getLastD_concat]
      exact hb'.close hclause hts hblock (List.suffix_append vs us)
  | @otherwise b _ hb' =>
    refine .after ?_
    rw [OpenBranch.statement, Statement.node]
    exact hb'.close hb hts hblock (List.suffix_refl us)
  | @choice m text condition us' vs hm h =>
    rw [List.append_assoc] at hts ⊢
    have hchoice := h.close hb hts.right hblock (List.suffix_refl us)
    have hnodes : OpenMenu.nodes { m with choices := m.choices ++ [⟨Reader.literalOf text, condition,
        block, text.span.cover block.span⟩] } =
          m.nodes ++ [.inner (text.span.cover block.span) ((Reader.literalOf text).node ::
            (condition.map Expression.node).toList ++ [block.node])] := by
      simp [OpenMenu.nodes, choiceNodes_append, choiceNodes]
    refine .chosen ?_ ?_
    · rw [OpenMenu.LiesOver, hnodes]
      exact hm.append hchoice.alone
    · rw [OpenMenu.node_statement, hnodes, List.map_append, List.map_singleton,
        List.getLastD_concat]
      exact hm.close hchoice hts hchoice.covers (List.suffix_refl _)

/-- What a statement would be lies where it was read. -/
theorem Stage.LiesOver.over {g : Stage} {s : Statement} (h : g.LiesOver ts)
    (hs : g.statement? = some s) : s.node.Over ts := by
  cases h with
  | after h =>
    cases hs
    exact h
  | clause h =>
    cases hs
    exact h.spans
  | _ => cases hs

theorem Stage.LiesOver.openMenu {g : Stage} {m : OpenMenu} (h : g.LiesOver ts)
    (hm : g.menu? = some m) : m.LiesOver ts := by
  cases h with
  | caption h | choice h | chosen h =>
    cases hm
    exact h
  | _ => cases hm

theorem Head.MadeOf.stage {h : Head} (hm : h.MadeOf ts) : h.stage.LiesOver ts := by
  have hlies := hm.lies
  cases h with
  | simple action span =>
    refine .after ?_
    rw [Statement.node]
    exact hlies
  | label name keyword => exact .block (.label hlies)
  | branch condition keyword => exact .block (.branch hlies)
  | loop condition keyword => exact .block (.loop hlies)
  | menu name keyword =>
    have hopening : Opening keyword (name.map LabelName.node).toList ts := hlies
    refine .menu ?_ ⟨rfl, rfl⟩
    simpa [OpenMenu.LiesOver, OpenMenu.nodes, choiceNodes] using hopening

end

end NovelScript
