import NovelScript.Proofs.TreeLines

/-!
# Trees are faithful to their scripts

When a script is read, every line is the tokens of one head of its tree, and the nodes of the tree
lie over these tokens. So the spans of the nodes nest like the nodes do, point to the right lines
and columns, and hold the expressions and literals as they are written.
-/

namespace NovelScript

open Line Text

/-! The stretches of the lines of a layout. -/

section

variable {t : LayoutToken} {ts : List LayoutToken} {us : List Stretch} {lines : List (List Stretch)}

theorem LayoutToken.tag_ne_text {m : LayoutMark} (t : LayoutToken) (ht : t.mark = m)
    (hm : m.tag ≠ .text) : t.tag ≠ .text := by
  rwa [tag, ht]

/-- The stretches of a line are in order and within the line. -/
theorem LayoutToken.Holds.inOrder (h : t.Holds us) : InOrder us ∧
    ∀ u ∈ us, t.place.start ≤ u.place.start ∧ u.place.stop ≤ t.place.start + t.value.length := by
  obtain ⟨content, j, hm, hc, -⟩ := h
  obtain ⟨-, horder, hbounds⟩ := hc.inOrder
  have hle := hc.le_length (Nat.zero_le _)
  have hvalue : t.value = content := by rw [LayoutToken.value, hm]
  have hstart : t.place.opening.start = t.place.start := rfl
  refine ⟨horder, fun u hu => ?_⟩
  have := hbounds u hu
  rw [hvalue]
  omega

theorem exists_holds_of_mem_flatten (h : List.Forall₂ LayoutToken.Holds ts lines) {u : Stretch}
    (hu : u ∈ lines.flatten) : ∃ t ∈ ts, ∃ us, t.Holds us ∧ u ∈ us := by
  induction h with
  | nil => cases hu
  | @cons t us ts lines h hs ih =>
    rw [List.flatten_cons] at hu
    obtain hu | hu := List.mem_append.mp hu
    · exact ⟨t, List.mem_cons_self, us, h, hu⟩
    · obtain ⟨t', ht', us', hus', hmem⟩ := ih hu
      exact ⟨t', List.mem_cons_of_mem _ ht', us', hus', hmem⟩

/-- The stretches of lines that lie one after the other are in order. -/
theorem inOrder_flatten (h : List.Forall₂ LayoutToken.Holds ts lines)
    (ho : ts.Pairwise fun t u : LayoutToken => t.place.start + t.value.length ≤ u.place.start) :
    InOrder lines.flatten := by
  induction h with
  | nil => exact ⟨nofun, .nil⟩
  | @cons t us ts lines h hs ih =>
    obtain ⟨hlater, hrest⟩ := List.pairwise_cons.mp ho
    obtain ⟨horder, hbounds⟩ := h.inOrder
    have hflat := ih hrest
    rw [List.flatten_cons]
    refine ⟨List.forall_mem_append.mpr ⟨horder.filled, hflat.filled⟩, ?_⟩
    refine List.pairwise_append.mpr ⟨horder.apart, hflat.apart, fun u hu v hv => ?_⟩
    obtain ⟨t', ht', vs, hvs, hmem⟩ := exists_holds_of_mem_flatten hs hv
    have hnext := hlater t' ht'
    have hstop := (hbounds u hu).2
    have hstart := (hvs.inOrder.2 v hmem).1
    omega

theorem ContentLine.spread_of_holds {l : ContentLine} (h : l.token.Holds us) :
    ∃ rest, Spread (us.map Stretch.text) l.content rest ∧ isOver rest := by
  obtain ⟨content, j, hm, hc, hover⟩ := h
  obtain rfl : content = l.content := by
    injection hm.symm
  exact ⟨_, hc.spread, hover⟩

/-- What a content line holds lies in the text. -/
theorem ContentLine.liesIn_of_holds {text : List Char} {l : ContentLine}
    (hl : l ∈ contentLines text) (h : l.token.Holds us) : ∀ u ∈ us, u.LiesIn text := by
  obtain ⟨content, j, hm, hc, -⟩ := h
  obtain rfl : content = l.content := by
    injection hm.symm
  intro u hu
  obtain ⟨k, w, hne, ⟨rest, hrest⟩, rfl⟩ := hc.exists_of_mem hu
  have hk : k ≤ l.content.length := by
    by_contra hlt
    rw [List.drop_eq_nil_of_le (by omega)] at hrest
    exact hne (List.append_eq_nil_iff.mp hrest).1
  have hsplit : l.indent ++ l.content = (l.indent ++ l.content.take k) ++ w ++ rest := by
    rw [List.append_assoc, hrest, List.append_assoc, List.take_append_drop]
  have hlies := ContentLine.liesIn hl hsplit
  rwa [List.length_append, List.length_take_of_le hk, ← l.stretch_place] at hlies

end

namespace Assembly

/-- The lines are the heads that the assembly has read, and its nodes lie over them. -/
structure MadeOf (a : Assembly) (lines : List (List Stretch)) : Prop where
  texts : List.Forall₂ (fun us h => us.map Stretch.text = HeadLine.tokens h) lines a.headLines
  lies : a.LiesOver lines.flatten

variable {a b : Assembly} {t : LayoutToken} {ts us : List LayoutToken}
  {lines : List (List Stretch)}

theorem madeOf_initial : initial.MadeOf [] where
  texts := by
    simp [headLines, initial, outerHeadLines, Stage.headLines, headLinesAll]
  lies := .mk .nil .nil .line

theorem LiesOver.grown {stage : Stage} {done : List Statement}
    {outer : List (Owner × List Statement)} {os ds ss vs : List Stretch} (ho : OuterOver outer os)
    (hd : Succeed done ds) (h : stage.LiesOver (ss ++ vs)) :
    LiesOver ⟨stage, done, outer⟩ (os ++ (ds ++ ss) ++ vs) := by
  rw [List.append_assoc, List.append_assoc]
  exact .mk ho hd h

/-- What a token adds: a line adds one head, and any other token none. -/
inductive Adds (a : Assembly) (t : LayoutToken) (b : Assembly) (ts : List Stretch) : Prop
  | line {vs : List Stretch} {head : HeadLine} (hv : t.Holds vs)
    (ht : vs.map Stretch.text = head.tokens) (hb : b.headLines = a.headLines ++ [head])
    (hl : InOrder (ts ++ vs) → b.LiesOver (ts ++ vs)) : Adds a t b ts
  | plain (ht : t.tag ≠ .text) (hb : b.headLines = a.headLines)
    (hl : InOrder ts → b.LiesOver ts) : Adds a t b ts

theorem adds_of_step {ts : List Stretch} (h : Step a t b) (ha : a.LiesOver ts) : Adds a t b ts := by
  cases ha with
  | @mk stage done outer os ds ss hos hds hss =>
    cases h with
    | @first head hs hr =>
      obtain rfl : stage = .line := hs
      cases hss
      obtain ⟨vs, hvs, hhead⟩ := hr.holds .head .head
      exact .line hvs hhead.texts (headLines_head head _ _) fun _ => .grown hos hds hhead.stage
    | @next s head hs hc hr =>
      obtain ⟨vs, hvs, hhead⟩ := hr.holds .head .head
      refine .line hvs hhead.texts ?_ fun _ => ?_
      · rw [headLines_head, headLines_statement hs]
      · have hmk := LiesOver.mk hos (Each.concat hds (hss.over hs)) hhead.stage
        rwa [← List.append_assoc] at hmk
    | @separate s hs hc ht =>
      obtain rfl : stage = .after s := hs
      refine .plain (t.tag_ne_text ht (by decide)) (headLines_statement rfl) fun _ => ?_
      have hmk := LiesOver.mk hos (Each.concat hds (hss.over rfl)) .line
      rwa [List.append_nil] at hmk
    | @close s owner done' outer' hs ho' ht =>
      obtain rfl : outer = (owner, done') :: outer' := ho'
      cases hos with
      | @cons _ _ _ os' ds' ts' hos' hds' howner =>
        refine .plain (t.tag_ne_text ht (by decide)) (headLines_close hs rfl _) fun hin => ?_
        -- The block that ends here lies over what was read since its opening.
        simp only [List.append_assoc] at hin ⊢
        have hblock : (Block.node ⟨done ++ [s], Parser.extentOf (done ++ [s])⟩).Over (ds ++ ss) := by
          rw [Block.node]
          exact Succeed.over (Each.concat hds (hss.over hs)) (by simp) hin.right.right.right
        exact .mk hos' hds' (howner.close hblock hin.right.right)
    | @elif b condition keyword hs hl hr =>
      obtain rfl : stage = .clause b := hs
      cases hss with
      | clause hb =>
        obtain ⟨vs, hvs, htexts, hopening⟩ := hr.holds .elifHead .elifHead
        refine .line hvs htexts ?_ fun _ => .grown hos hds (.block (.elif hb.opening hopening))
        simp [headLines, Stage.headLines, Owner.headLines]
    | @otherwise b hs hl hr =>
      obtain rfl : stage = .clause b := hs
      cases hss with
      | clause hb =>
        obtain ⟨vs, hvs, htexts⟩ := hr.holds .elseHead .elseHead
        refine .line hvs htexts ?_ fun _ => .grown hos hds (.block (.otherwise (hb.opening.skip vs)))
        simp [headLines, Stage.headLines, Owner.headLines]
    | @enter owner hs ht =>
      obtain rfl : stage = .block owner := hs
      cases hss with
      | block howner =>
        refine .plain (t.tag_ne_text ht (by decide)) ?_ fun _ => ?_
        · simp [headLines, Stage.headLines, outerHeadLines, headLinesAll]
        · have hmk := LiesOver.mk (.cons hos hds howner) .nil .line
          rwa [List.append_nil, List.append_nil] at hmk
    | @enterMenu m hs ht =>
      obtain rfl : stage = .menu m := hs
      cases hss with
      | menu h hm =>
        exact .plain (t.tag_ne_text ht (by decide)) rfl fun _ =>
          .mk hos hds (.caption h hm)
    | @caption m line hs hr =>
      obtain rfl : stage = .caption m := hs
      cases hss with
      | caption h hm =>
        obtain ⟨vs, hvs, hmakes⟩ := hr.holds .captionHead .captionHead
        obtain ⟨hcaption, hchoices⟩ := hm
        have hnode : line.node.Over vs := .around hmakes.lies.covers hmakes.lies
        have htexts : vs.map Stretch.text = HeadLine.tokens (.action (.say line)) := hmakes.texts
        refine .line hvs htexts (headLines_caption rfl ⟨hcaption, hchoices⟩ line) fun _ =>
          .grown hos hds (.captioned ?_)
        have happend := Opening.append h hnode.alone
        simpa [OpenMenu.LiesOver, OpenMenu.nodes, hcaption, hchoices, choiceNodes] using happend
    | @captioned m hs ht =>
      obtain rfl : stage = .captioned m := hs
      cases hss with
      | captioned h =>
        exact .plain (t.tag_ne_text ht (by decide)) rfl fun _ =>
          .mk hos hds (.choice h)
    | @choice m text condition hs hr =>
      obtain ⟨vs, hvs, htexts, hopening⟩ := hr.holds .choiceHead .choiceHead
      exact .line hvs htexts (headLines_choice hs text condition) fun _ =>
        .grown hos hds (.block (.choice (hss.openMenu hs) hopening))
    | @leave m hs ht =>
      obtain rfl : stage = .chosen m := hs
      cases hss with
      | chosen h hstatement =>
        exact .plain (t.tag_ne_text ht (by decide)) (headLines_leave rfl) fun _ =>
          .mk hos hds (.after hstatement)

/-- A step adds what its token holds, if it is a line, and nothing otherwise. -/
theorem madeOf_of_step (h : Step a t b) (ha : a.MadeOf lines)
    (ho : ∀ more, List.Forall₂ LayoutToken.Holds (textsOf [t]) more →
      InOrder (lines ++ more).flatten) :
    ∃ more, List.Forall₂ LayoutToken.Holds (textsOf [t]) more ∧ b.MadeOf (lines ++ more) := by
  cases adds_of_step h ha.lies with
  | @line vs head hv ht hb hl =>
    have htag : t.tag = .text := by
      obtain ⟨content, -, hm, -⟩ := hv
      rw [LayoutToken.tag, hm]
      rfl
    have hmore : List.Forall₂ LayoutToken.Holds (textsOf [t]) [vs] := by
      rw [textsOf_cons_of_text htag]
      exact .cons hv .nil
    have hin := ho [vs] hmore
    refine ⟨[vs], hmore, ?_, ?_⟩
    · rw [hb]
      exact List.rel_append ha.texts (.cons ht .nil)
    · rw [List.flatten_append, List.flatten_singleton] at hin ⊢
      exact hl hin
  | plain ht hb hl =>
    have hmore : List.Forall₂ LayoutToken.Holds (textsOf [t]) [] := by
      rw [textsOf_cons_of_ne ht]
      exact .nil
    have hin := ho [] hmore
    refine ⟨[], hmore, ?_⟩
    rw [List.append_nil] at hin ⊢
    exact ⟨hb ▸ ha.texts, hl hin⟩

/-- An assembly that took some tokens is made of the lines among them. -/
theorem madeOf_of_run (h : a.run us = some b) (hl : List.Forall₂ LayoutToken.Holds (textsOf ts) lines)
    (ha : a.MadeOf lines) (ho : Ordered (ts ++ us)) :
    ∃ lines', List.Forall₂ LayoutToken.Holds (textsOf (ts ++ us)) lines' ∧ b.MadeOf lines' := by
  induction us generalizing ts a lines with
  | nil =>
    cases h
    rw [List.append_nil]
    exact ⟨lines, hl, ha⟩
  | cons u us ih =>
    obtain ⟨c, hm, hc⟩ := run_cons.mp h
    have ho' : Ordered (ts ++ [u] ++ us) := by rwa [List.append_assoc]
    have hmore : ∀ more, List.Forall₂ LayoutToken.Holds (textsOf [u]) more →
        List.Forall₂ LayoutToken.Holds (textsOf (ts ++ [u])) (lines ++ more) := fun more h => by
      rw [textsOf_append]
      exact List.rel_append hl h
    obtain ⟨more, hheld, hstep⟩ := madeOf_of_step (step_of_move hm) ha fun more h =>
      inOrder_flatten (hmore more h) (ordered_of_append ho')
    have hrest := ih hc (hmore more hheld) hstep ho'
    rwa [List.append_assoc] at hrest

/-- The lines of a complete script are the heads of its statements, and the statements lie over
them. -/
theorem MadeOf.complete {ss : List Statement} (ha : a.MadeOf lines) (h : a.move t = .complete ss) :
    List.Forall₂ (fun us h => us.map Stretch.text = HeadLine.tokens h) lines (headLinesAll ss) ∧
      Succeed ss lines.flatten ∧ ss ≠ [] := by
  obtain ⟨-, houter, hstage⟩ := move_eq_complete_iff.mp h
  obtain ⟨htexts, hlies⟩ := ha
  obtain ⟨stage, done, outer⟩ := a
  obtain rfl : outer = [] := houter
  generalize lines.flatten = ts at hlies
  cases hlies with
  | @mk _ _ _ os ds us hos hds hus =>
    cases hos
    obtain ⟨rfl, hne, rfl⟩ | ⟨s, hs, rfl⟩ := hstage
    · cases hus
      rw [List.nil_append, List.append_nil]
      refine ⟨?_, hds, hne⟩
      simpa [headLines, outerHeadLines, Stage.headLines] using htexts
    · rw [List.nil_append]
      refine ⟨?_, Each.concat hds (hus.over hs), by simp⟩
      rw [headLinesAll_append, headLinesAll_singleton, ← Stage.headLines_of_statement? hs]
      simpa [headLines, outerHeadLines] using htexts

end Assembly

namespace Script

variable {rules : LayoutRules} {text : List Char} {file : Option Path} {f : SourceFile}

/-- The content lines of a script that was read are the heads of its tree, and the tree lies over
their stretches, which lie in the text in order. -/
theorem exists_lines_of_parse (h : parse rules text file = .ok f) : ∃ lines,
    List.Forall₂ LayoutToken.Holds ((contentLines text).map ContentLine.token) lines ∧
      List.Forall₂ (fun us head => us.map Stretch.text = HeadLine.tokens head) lines f.headLines ∧
        f.node.Over lines.flatten ∧ InOrder lines.flatten ∧ ∀ u ∈ lines.flatten, u.LiesIn text := by
  obtain ⟨front, place, a, -, hshape, hrun, hcomplete, -, -⟩ := exists_run_of_parse h
  obtain ⟨tokens, ss, -, -, -, hf⟩ := (parse_eq_ok file).mp h
  have hordered := ordered_of_shaped hshape
  have hempty : List.Forall₂ LayoutToken.Holds (textsOf []) [] := .nil
  obtain ⟨lines, hheld, hmade⟩ := Assembly.madeOf_of_run hrun hempty Assembly.madeOf_initial
    (Assembly.ordered_of_append hordered)
  rw [List.nil_append, hshape.textsOf_front] at hheld
  obtain ⟨htexts, hsucceed, hne⟩ := hmade.complete hcomplete
  rw [Ordered, hshape.texts] at hordered
  have horder := inOrder_flatten hheld hordered
  refine ⟨lines, hheld, htexts, ?_, horder, fun u hu => ?_⟩
  · have hspan : f.span = Parser.extentOf f.statements := by rw [hf]
    rw [SourceFile.node, hspan]
    exact hsucceed.over hne horder
  · obtain ⟨t, ht, us, hus, hmem⟩ := exists_holds_of_mem_flatten hheld hu
    obtain ⟨l, hl, rfl⟩ := List.mem_map.mp ht
    exact ContentLine.liesIn_of_holds hl hus u hmem

/-- A menu with a caption, a condition and a comment. -/
def menuScript : List Char :=
  "menu:\n  e \"Where?\"\n  \"Out\" if key : # now\n    jump out\n".toList

/-- The spans of a tree nest like its nodes: every node holds something of the text, and its
children lie in it one after the other, the last one up to its end. -/
theorem nested_of_parse (h : parse rules text file = .ok f) : ∀ n ∈ f.nodes, n.Nested text := by
  obtain ⟨lines, -, -, hover, horder, hlies⟩ := exists_lines_of_parse h
  exact fun n hn => (hover.all_nested horder hlies n hn).1

theorem nested_of_parse_menuScript :
    ∃ f, parse {} menuScript = .ok f ∧ ∀ n ∈ f.nodes, n.Nested menuScript := by
  obtain ⟨f, hf⟩ := exists_of_toBool (x := parse {} menuScript) (by cbv)
  exact ⟨f, hf, nested_of_parse hf⟩

/-- The lines and columns of every node are those of its offsets, and an expression or a literal is
what the text holds there. -/
theorem faithful_of_parse (h : parse rules text file = .ok f) :
    ∀ n ∈ f.nodes, n.Faithful text := by
  obtain ⟨lines, -, -, hover, horder, hlies⟩ := exists_lines_of_parse h
  exact fun n hn => (hover.all_nested horder hlies n hn).2

theorem faithful_of_parse_menuScript :
    ∃ f, parse {} menuScript = .ok f ∧ ∀ n ∈ f.nodes, n.Faithful menuScript := by
  obtain ⟨f, hf⟩ := exists_of_toBool (x := parse {} menuScript) (by cbv)
  exact ⟨f, hf, faithful_of_parse hf⟩

/-- Nothing on a line is dropped: every content line consists of the tokens of its head, with
nothing but blanks before, between and after them and perhaps a comment at the end. The heads are
the lines of the canonical form, and this form has the same tokens. -/
theorem spread_of_parse (h : parse rules text file = .ok f) :
    List.Forall₂ (fun (l : ContentLine) (head : HeadLine) =>
        ∃ rest, Spread head.tokens l.content rest ∧ isOver rest) (contentLines text) f.headLines ∧
      (writtenAll 0 f.statements).map Prod.snd = f.headLines.map HeadLine.written ∧
        ∀ head ∈ f.headLines, Renders head.tokens head.written := by
  obtain ⟨lines, hheld, htexts, -, -, -⟩ := exists_lines_of_parse h
  refine ⟨?_, map_writtenAll 0 f.statements, fun head _ => head.renders⟩
  rw [List.forall₂_map_left_iff] at hheld
  generalize contentLines text = ls, f.headLines = heads at hheld htexts
  induction hheld generalizing heads with
  | nil =>
    cases htexts
    exact .nil
  | cons h hs ih =>
    cases htexts with
    | cons ht hrest => exact .cons (ht ▸ ContentLine.spread_of_holds h) (ih _ hrest)

theorem spread_of_parse_menuScript : ∃ f, parse {} menuScript = .ok f ∧
    List.Forall₂ (fun (l : ContentLine) (head : HeadLine) =>
      ∃ rest, Spread head.tokens l.content rest ∧ isOver rest) (contentLines menuScript) f.headLines := by
  obtain ⟨f, hf⟩ := exists_of_toBool (x := parse {} menuScript) (by cbv)
  exact ⟨f, hf, (spread_of_parse hf).1⟩

end Script

end NovelScript
