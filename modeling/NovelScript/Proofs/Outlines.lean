import Mathlib
import NovelScript.Proofs.Owned
import NovelScript.Proofs.Tracking
import NovelScript.Tree.Equality
import NovelScript.Tree.Outline

/-!
# An outline shows the walk over its script

Apart from the nodes of clauses and choices, the nodes of an outline are the statements that a walk
visits, in the same order. Those above a node are the statements whose walk visits it. The heads of
a script start one after the other, so no statement is visited twice.
-/

namespace NovelScript

def Outline.children : Outline → List Outline
  | .node _ children => children

mutual

/-- The labels from the top down to each node, node by node as the outline shows them. -/
def Outline.paths : Outline → List (List (List Char))
  | .node label children => [label] :: (pathsAll children).map (label :: ·)

def pathsAll : List Outline → List (List (List Char))
  | [] => []
  | o :: rest => o.paths ++ pathsAll rest

end

/-- The label of the node that a path leads to. -/
def pathEnd (path : List (List Char)) : List Char := path.getLastD []

/-- Whether the label is that of a clause or a choice. Such a label starts with a word that is no
kind of statements. -/
def isClauseLabel (label : List Char) : Bool :=
  ["elif", "else", "choice"].any fun w => label.takeWhile (· != ' ') == w.toList

/-- The labels of the statements in outlines. -/
def statementLabels (os : List Outline) : List (List Char) :=
  ((pathsAll os).map pathEnd).filter fun label => !isClauseLabel label

/-- The paths to the statements in outlines, with nothing but statements on them. -/
def statementPaths (os : List Outline) : List (List (List Char)) :=
  ((pathsAll os).filter fun path => !isClauseLabel (pathEnd path)).map
    fun path => path.filter fun label => !isClauseLabel label

/-- The label that a statement is shown with. -/
def Statement.shownLabel (s : Statement) : List Char := shownText s.outlineLabel

/-! Labels. -/

theorem following_nil_or (ws : List (List Char)) :
    following ws = [] ∨ ∃ rest, following ws = ' ' :: rest := by
  cases ws with
  | nil => exact .inl rfl
  | cons w ws => exact .inr ⟨_, following_cons w ws⟩

/-- The summary of a statement starts with the word for its kind. -/
theorem Statement.exists_summary (s : Statement) : ∃ rest,
    s.summary = s.kind.text.toList ++ rest ∧ (rest = [] ∨ ∃ more, rest = ' ' :: more) := by
  have hspaced : ∀ (w : List Char) (ws : List (List Char)), ∃ rest,
      spaced (w :: ws) = w ++ rest ∧ (rest = [] ∨ ∃ more, rest = ' ' :: more) :=
    fun w ws => ⟨following ws, spaced_cons w ws, following_nil_or ws⟩
  cases s with
  | simple action span =>
    cases action with
    | say line =>
      obtain ⟨speaker, what, span⟩ := line
      have hsay : "say ".toList = "say".toList ++ [' '] := by decide
      cases speaker with
      | none =>
        refine ⟨' ' :: what.raw, ?_, .inr ⟨_, rfl⟩⟩
        rw [summary, Action.summary, Say.summary, hsay, List.append_assoc]
        rfl
      | some speaker =>
        refine ⟨' ' :: (speaker.summary ++ ": ".toList ++ what.raw), ?_, .inr ⟨_, rfl⟩⟩
        rw [summary, Action.summary, Say.summary, hsay]
        simp only [List.append_assoc]
        rfl
    | pass => exact ⟨[], (List.append_nil _).symm, .inl rfl⟩
    | _ => exact hspaced _ _
  | _ => exact hspaced _ _

theorem Statement.exists_outlineLabel (s : Statement) :
    ∃ rest, s.outlineLabel = s.kind.text.toList ++ ' ' :: rest := by
  obtain ⟨rest, hs, hrest⟩ := s.exists_summary
  have hplace : ∃ more, (s!"  [{s.span.line}:{s.span.column}]").toList = ' ' :: more := by
    simp only [String.toList_append, List.append_assoc]
    exact ⟨_, congrArg (· ++ _) (by decide : (toString "  [").toList = ' ' :: " [".toList)⟩
  obtain ⟨place, hplace⟩ := hplace
  rw [outlineLabel, hs, hplace, List.append_assoc]
  obtain rfl | ⟨more, rfl⟩ := hrest
  · exact ⟨place, rfl⟩
  · exact ⟨more ++ ' ' :: place, rfl⟩

@[simp] theorem shownText_append (cs ds : List Char) :
    shownText (cs ++ ds) = shownText cs ++ shownText ds := List.filter_append ..

theorem shownText_space (cs : List Char) : shownText (' ' :: cs) = ' ' :: shownText cs :=
  List.filter_cons_of_pos rfl

/-- The first word of a label is shown as it is, and it decides whose label it is. -/
theorem takeWhile_shownText {w rest : List Char} (hw : shownText w = w) (hs : ' ' ∉ w)
    (hr : rest = [] ∨ ∃ more, rest = ' ' :: more) :
    (shownText (w ++ rest)).takeWhile (· != ' ') = w := by
  have hword : ∀ x ∈ w, (x != ' ') = true := fun x hx => by
    simpa using fun he : x = ' ' => hs (he ▸ hx)
  rw [shownText_append, hw, List.takeWhile_append_of_pos hword]
  obtain rfl | ⟨more, rfl⟩ := hr
  · exact List.append_nil w
  · rw [shownText_space, List.takeWhile_cons_of_neg (by simp), List.append_nil]

theorem Statement.isClauseLabel_shownLabel (s : Statement) :
    isClauseLabel s.shownLabel = false := by
  obtain ⟨rest, hs⟩ := s.exists_outlineLabel
  rw [isClauseLabel, shownLabel, hs]
  generalize s.kind = k
  have hword : shownText k.text.toList = k.text.toList ∧ ' ' ∉ k.text.toList := by
    cases k <;> decide
  rw [takeWhile_shownText hword.1 hword.2 (.inr ⟨rest, rfl⟩)]
  cases k <;> decide

theorem isClauseLabel_spaced {w : String} (hw : w ∈ ["elif", "else", "choice"])
    (ws : List (List Char)) : isClauseLabel (shownText (spaced (w.toList :: ws))) := by
  have hword : ∀ w ∈ ["elif", "else", "choice"],
      shownText w.toList = w.toList ∧ ' ' ∉ w.toList := by decide
  obtain ⟨hshown, hspace⟩ := hword w hw
  rw [spaced_cons, isClauseLabel, takeWhile_shownText hshown hspace (following_nil_or ws),
    List.any_eq_true]
  exact ⟨w, hw, beq_self_eq_true _⟩

/-! Paths. -/

section

variable {os os' : List Outline} {label : List Char} {path : List (List Char)}

@[simp] theorem shownAll_append (os os' : List Outline) :
    shownAll (os ++ os') = shownAll os ++ shownAll os' := by
  induction os with
  | nil => rw [shownAll, List.nil_append, List.nil_append]
  | cons o os ih => rw [List.cons_append, shownAll, shownAll, ih, List.cons_append]

theorem outlineAll_append (ss ts : List Statement) :
    outlineAll (ss ++ ts) = outlineAll ss ++ outlineAll ts := by
  induction ss with
  | nil => rw [outlineAll, List.nil_append, List.nil_append]
  | cons s ss ih => rw [List.cons_append, outlineAll, outlineAll, ih, List.cons_append]

theorem pathsAll_append (os os' : List Outline) :
    pathsAll (os ++ os') = pathsAll os ++ pathsAll os' := by
  induction os with
  | nil => rw [pathsAll, List.nil_append, List.nil_append]
  | cons o os ih => rw [List.cons_append, pathsAll, pathsAll, ih, List.append_assoc]

theorem ne_nil_of_mem_pathsAll (h : path ∈ pathsAll os) : path ≠ [] := by
  induction os with
  | nil =>
    rw [pathsAll] at h
    cases h
  | cons o os ih =>
    obtain ⟨label, children⟩ := o
    rw [pathsAll, Outline.paths, List.mem_append, List.mem_cons, List.mem_map] at h
    obtain (rfl | ⟨rest, -, rfl⟩) | h := h
    · exact List.cons_ne_nil _ _
    · exact List.cons_ne_nil _ _
    · exact ih h

theorem pathEnd_cons (h : path ∈ pathsAll os) : pathEnd (label :: path) = pathEnd path := by
  cases path with
  | nil => exact absurd rfl (ne_nil_of_mem_pathsAll h)
  | cons l path => rfl

theorem statementLabels_append (os os' : List Outline) :
    statementLabels (os ++ os') = statementLabels os ++ statementLabels os' := by
  rw [statementLabels, pathsAll_append, List.map_append, List.filter_append]
  rfl

theorem statementPaths_append (os os' : List Outline) :
    statementPaths (os ++ os') = statementPaths os ++ statementPaths os' := by
  rw [statementPaths, pathsAll_append, List.filter_append, List.map_append]
  rfl

theorem statementLabels_node (label : List Char) (os : List Outline) :
    statementLabels [.node label os] =
      (if isClauseLabel label then [] else [label]) ++ statementLabels os := by
  have hends : (pathsAll os).map (fun path => pathEnd (label :: path)) =
      (pathsAll os).map pathEnd :=
    List.map_congr_left fun path h => pathEnd_cons h
  have hlabel : pathEnd [label] = label := rfl
  rw [statementLabels, pathsAll, Outline.paths, pathsAll, List.append_nil, List.map_cons,
    List.map_map, Function.comp_def, hends, List.filter_cons, hlabel, statementLabels]
  cases isClauseLabel label <;> rfl

theorem statementPaths_node (label : List Char) (os : List Outline) :
    statementPaths [.node label os] =
      if isClauseLabel label then statementPaths os
      else [label] :: (statementPaths os).map (label :: ·) := by
  have hends : (pathsAll os).filter (fun path => !isClauseLabel (pathEnd (label :: path))) =
      (pathsAll os).filter fun path => !isClauseLabel (pathEnd path) :=
    List.filter_congr fun path h => by rw [pathEnd_cons h]
  have hlabel : pathEnd [label] = label := rfl
  rw [statementPaths, pathsAll, Outline.paths, pathsAll, List.append_nil, List.filter_cons, hlabel,
    List.filter_map, Function.comp_def, hends, statementPaths]
  cases h : isClauseLabel label <;> simp [h, Function.comp_def]

end

/-! Outlines of statements. -/

theorem Block.outline_eq (b : Block) : b.outline = outlineAll b.statements := by
  cases b
  rw [Block.outline]

theorem Statement.outline_eq (s : Statement) :
    s.outline = .node s.outlineLabel s.outline.children := by
  cases s with
  | branch condition body elifs otherwise span => cases otherwise <;> rw [outline] <;> rfl
  | _ => rw [outline]; rfl

/-- Where a clause or a choice has a node, only what it owns counts. -/
structure SkipsClauses {β : Type} (F : List Outline → List β) : Prop where
  append : ∀ os os', F (os ++ os') = F os ++ F os'
  clause : ∀ label os, isClauseLabel label → F [.node label os] = F os

theorem skipsClauses_statementLabels : SkipsClauses statementLabels where
  append := statementLabels_append
  clause label os h := by rw [statementLabels_node, if_pos h, List.nil_append]

theorem skipsClauses_statementPaths : SkipsClauses statementPaths where
  append := statementPaths_append
  clause label os h := by rw [statementPaths_node, if_pos h]

namespace SkipsClauses

variable {β : Type} {F : List Outline → List β}

theorem nil (hF : SkipsClauses F) : F [] = [] := by
  have h := hF.append [] []
  rwa [List.append_nil, List.self_eq_append_right] at h

theorem block (hF : SkipsClauses F) {label : List Char} (h : isClauseLabel (shownText label))
    (b : Block) (os : List Outline) : F (shownAll (.node label b.outline :: os)) =
      F (shownAll (outlineAll b.statements)) ++ F (shownAll os) := by
  rw [shownAll, Outline.shown, ← List.singleton_append, hF.append, hF.clause _ _ h,
    Block.outline_eq]

theorem elifs (hF : SkipsClauses F) (es : List ElifClause) : F (shownAll (outlineElifs es)) =
    F (shownAll (outlineAll (es.flatMap fun e => e.body.statements))) := by
  induction es with
  | nil => rw [outlineElifs, List.flatMap_nil, outlineAll]
  | cons e es ih =>
    obtain ⟨condition, body, span⟩ := e
    have hlabel := isClauseLabel_spaced (w := "elif") (by decide) [condition.text]
    rw [outlineElifs, hF.block hlabel, ih, List.flatMap_cons, outlineAll_append, shownAll_append,
      hF.append]

theorem choices (hF : SkipsClauses F) (cs : List Choice) : F (shownAll (outlineChoices cs)) =
    F (shownAll (outlineAll (cs.flatMap fun c => c.body.statements))) := by
  induction cs with
  | nil => rw [outlineChoices, List.flatMap_nil, outlineAll]
  | cons c cs ih =>
    obtain ⟨text, condition, body, span⟩ := c
    have hlabel : isClauseLabel (shownText (Choice.outlineLabel ⟨text, condition, body, span⟩)) :=
      isClauseLabel_spaced (w := "choice") (by decide) _
    rw [outlineChoices, hF.block hlabel, ih, List.flatMap_cons, outlineAll_append, shownAll_append,
      hF.append]

/-- Apart from clauses and choices, the outline shows below a statement what the statement owns. -/
theorem children (hF : SkipsClauses F) (s : Statement) :
    F (shownAll s.outline.children) = F (shownAll (outlineAll s.children)) := by
  cases s with
  | simple action span => rw [Statement.outline, Statement.children_simple]; rfl
  | label name body span =>
    rw [Statement.outline, Outline.children, Block.outline_eq, Statement.children_label]
  | loop condition body span =>
    rw [Statement.outline, Outline.children, Block.outline_eq, Statement.children_loop]
  | branch condition body elifs otherwise span =>
    rw [Statement.children_branch, outlineAll_append, outlineAll_append, shownAll_append,
      shownAll_append, hF.append, hF.append, ← hF.elifs, ← Block.outline_eq]
    cases otherwise with
    | none =>
      rw [Statement.outline, Outline.children, shownAll_append, hF.append, Option.toList_none,
        List.flatMap_nil, outlineAll, shownAll, hF.nil, List.append_nil]
    | some block =>
      have hlabel : isClauseLabel (shownText "else".toList) := by decide
      rw [Statement.outline, Outline.children, shownAll_append, shownAll_append, hF.append,
        hF.append, hF.block hlabel, shownAll, hF.nil, List.append_nil, List.append_assoc,
        Option.toList_some, List.flatMap_singleton]
  | menu name caption choices span =>
    have hcaption : (caption.map fun s => Outline.node s.statement.outlineLabel []).toList =
        outlineAll (caption.map Say.statement).toList := by
      cases caption with
      | none => rfl
      | some line =>
        simp only [Option.map_some, Option.toList_some, outlineAll, Say.statement,
          Statement.outline]
    rw [Statement.outline, Outline.children, Statement.children_menu, outlineAll_append,
      shownAll_append, shownAll_append, hF.append, hF.append, hF.choices, hcaption]

end SkipsClauses

theorem shownAll_outlineAll_cons (s : Statement) (ss : List Statement) :
    shownAll (outlineAll (s :: ss)) =
      [.node s.shownLabel (shownAll s.outline.children)] ++ shownAll (outlineAll ss) := by
  rw [outlineAll, shownAll, s.outline_eq, Outline.shown]
  rfl

/-- The statements in an outline are those that a walk visits, in the same order. -/
theorem statementLabels_outlineAll (ss : List Statement) :
    statementLabels (shownAll (outlineAll ss)) = (walkAll ss).map Statement.shownLabel := by
  induction ss using forest_induction with
  | nil => rfl
  | cons s ss hs hss =>
    rw [shownAll_outlineAll_cons, statementLabels_append, statementLabels_node,
      s.isClauseLabel_shownLabel, skipsClauses_statementLabels.children, hs, hss, walkAll_cons,
      List.map_cons, List.map_append]
    rfl

/-- The statements of a forest whose walk visits the given one, the outermost first. -/
def visitors (ss : List Statement) (t : Statement) : List Statement :=
  (walkAll ss).filter fun s => t ∈ s.walk

theorem visitors_cons (s : Statement) (ss : List Statement) (t : Statement) :
    visitors (s :: ss) t =
      (if t ∈ s.walk then [s] else []) ++ (visitors s.children t ++ visitors ss t) := by
  rw [visitors, walkAll_cons, List.filter_cons, List.filter_append]
  by_cases h : t ∈ s.walk <;> simp [h, visitors]

/-- Nothing in a forest visits a statement outside of it. -/
theorem visitors_eq_nil {ss : List Statement} {t : Statement} (h : t ∉ walkAll ss) :
    visitors ss t = [] := by
  refine List.filter_eq_nil_iff.mpr fun s hs ht => h ?_
  exact mem_walkAll_of_mem_walk hs (of_decide_eq_true ht)

/-- The statements on the path to a statement are those whose walk visits it. -/
theorem statementPaths_outlineAll {ss : List Statement} (h : (walkAll ss).Nodup) :
    statementPaths (shownAll (outlineAll ss)) =
      (walkAll ss).map fun t => (visitors ss t).map Statement.shownLabel := by
  induction ss using forest_induction with
  | nil => rfl
  | cons s ss hs hss =>
    rw [walkAll_cons] at h
    obtain ⟨hself, hrest⟩ := List.nodup_cons.mp h
    obtain ⟨hbelow, hbehind, hapart⟩ := List.nodup_append.mp hrest
    obtain ⟨hown, hother⟩ := not_or.mp (mt List.mem_append.mpr hself)
    have hwalk : ∀ t, t ∈ s.walk ↔ t = s ∨ t ∈ walkAll s.children := fun t => by
      rw [s.walk_eq, List.mem_cons]
    -- No statement stands twice, so each is visited from the first tree, below it or behind it alone.
    have hvisitors : visitors (s :: ss) s = [s] := by
      rw [visitors_cons, if_pos ((hwalk s).mpr (.inl rfl)), visitors_eq_nil hown,
        visitors_eq_nil hother]
      rfl
    have hchildren : ∀ t ∈ walkAll s.children,
        visitors (s :: ss) t = s :: visitors s.children t := by
      intro t ht
      rw [visitors_cons, if_pos ((hwalk t).mpr (.inr ht)),
        visitors_eq_nil fun hmem => hapart t ht t hmem rfl, List.append_nil]
      rfl
    have hothers : ∀ t ∈ walkAll ss, visitors (s :: ss) t = visitors ss t := by
      intro t ht
      have hnot : t ∉ walkAll s.children := fun hmem => hapart t hmem t ht rfl
      have hne : t ≠ s := fun he => hother (he ▸ ht)
      rw [visitors_cons, if_neg fun hmem => ((hwalk t).mp hmem).elim hne hnot, visitors_eq_nil hnot]
      rfl
    rw [shownAll_outlineAll_cons, statementPaths_append, statementPaths_node,
      s.isClauseLabel_shownLabel, skipsClauses_statementPaths.children, hs hbelow, hss hbehind,
      walkAll_cons, List.map_cons, List.map_append, hvisitors, if_neg Bool.false_ne_true,
      List.cons_append]
    refine congrArg (_ :: ·) (congrArg₂ (· ++ ·) ?_ ?_)
    · rw [List.map_map]
      exact List.map_congr_left fun t ht => by rw [hchildren t ht]; rfl
    · exact List.map_congr_left fun t ht => by rw [hothers t ht]

/-! Where the statements of a walk start. -/

theorem startsOf_separator (s : Statement) : startsOf s.separator = [] := by
  rw [Statement.separator]
  split <;> rfl

theorem startsOf_flatAll_cons (s : Statement) (ss : List Statement) :
    startsOf (flatAll (s :: ss)) = startsOf s.flat ++ startsOf (flatAll ss) := by
  have hcons : flatAll (s :: ss) = s.flat ++ s.separator ++ flatAll ss := by simp [flatAll]
  rw [hcons, startsOf_append, startsOf_append, startsOf_separator, List.append_nil]

theorem Block.startsOf_flat (b : Block) : startsOf b.flat = startsOf (flatAll b.statements) := by
  obtain ⟨ss, span⟩ := b
  have hbody : startsOf (flatBody ss) = startsOf (flatAll ss) := by
    induction ss with
    | nil => rw [flatBody, flatAll_nil]
    | cons s ss ih =>
      have hsep : startsOf (if ss.isEmpty then [] else s.separator) = [] := by
        split
        · rfl
        · exact startsOf_separator s
      rw [flatBody, startsOf_append, startsOf_append, hsep, ih, List.append_nil,
        startsOf_flatAll_cons]
  rw [Block.flat, startsOf_indent, startsOf_append, hbody]
  exact List.append_nil _

theorem startsOf_flatElifs (es : List ElifClause) :
    (startsOf (flatAll (es.flatMap fun e => e.body.statements))).Sublist
      (startsOf (flatElifs es)) := by
  induction es with
  | nil => rw [flatElifs]; exact List.Sublist.refl _
  | cons e es ih =>
    rw [flatElifs_cons, startsOf_line, startsOf_append, Block.startsOf_flat, List.flatMap_cons,
      flatAll_append, startsOf_append]
    exact .cons _ ((List.Sublist.refl _).append ih)

theorem startsOf_flatChoices (cs : List Choice) :
    (startsOf (flatAll (cs.flatMap fun c => c.body.statements))).Sublist
      (startsOf (flatChoices cs)) := by
  induction cs with
  | nil => rw [flatChoices]; exact List.Sublist.refl _
  | cons c cs ih =>
    rw [flatChoices_cons, startsOf_line, startsOf_append, Block.startsOf_flat, List.flatMap_cons,
      flatAll_append, startsOf_append]
    exact .cons _ ((List.Sublist.refl _).append ih)

/-- A statement has a head of its own, and so has all that it owns. -/
theorem Statement.startsOf_children (s : Statement) :
    (s.span.start :: startsOf (flatAll s.children)).Sublist (startsOf s.flat) := by
  cases s with
  | simple action span =>
    rw [flat]
    exact List.Sublist.refl _
  | label name body span =>
    rw [flat, startsOf_line, Block.startsOf_flat, children_label]
    exact List.Sublist.refl _
  | loop condition body span =>
    rw [flat, startsOf_line, Block.startsOf_flat, children_loop]
    exact List.Sublist.refl _
  | branch condition body elifs otherwise span =>
    rw [children_branch, flatAll_append, flatAll_append, startsOf_append, startsOf_append]
    cases otherwise with
    | none =>
      rw [flat, startsOf_line, startsOf_append, Block.startsOf_flat, Option.toList_none,
        List.flatMap_nil, flatAll_nil, startsOf_nil, List.append_nil]
      exact .cons_cons _ ((List.Sublist.refl _).append (startsOf_flatElifs elifs))
    | some block =>
      have helse : startsOf (.line none elseLine :: block.flat) = startsOf block.flat := rfl
      rw [flat, startsOf_line, startsOf_append, startsOf_append, helse, Block.startsOf_flat,
        Block.startsOf_flat, Option.toList_some, List.flatMap_singleton, List.append_assoc]
      exact .cons_cons _ ((List.Sublist.refl _).append
        ((startsOf_flatElifs elifs).append (List.Sublist.refl _)))
  | menu name caption choices span =>
    have hcaption : startsOf (flatCaption caption) =
        startsOf (flatAll (caption.map Say.statement).toList) := by
      cases caption with
      | none => rfl
      | some line =>
        rw [Option.map_some, Option.toList_some, startsOf_flatAll_cons, Say.statement, flat]
        rfl
    rw [children_menu, flatAll_append, startsOf_append, flat, startsOf_line, startsOf_indent,
      startsOf_append, startsOf_append, hcaption]
    refine .cons_cons _ (((List.Sublist.refl _).append (startsOf_flatChoices choices)).trans ?_)
    exact List.sublist_append_left _ _

/-- The statements of a walk start where heads start, in the same order. -/
theorem map_start_walkAll (ss : List Statement) :
    ((walkAll ss).map fun s => s.span.start).Sublist (startsOf (flatAll ss)) := by
  induction ss using forest_induction with
  | nil => exact List.Sublist.refl _
  | cons s ss hs hss =>
    rw [walkAll_cons, List.map_cons, List.map_append, startsOf_flatAll_cons]
    exact ((hs.cons_cons _).trans s.startsOf_children).append hss

namespace Script

variable {rules : LayoutRules} {text : List Char} {file : Option Path} {f : SourceFile}

/-- Lines lie apart, so what starts after their blanks does. -/
theorem pairwise_blanks_contentLines (text : List Char) :
    (((contentLines text).map ContentLine.token).map fun t : LayoutToken =>
      (t.place.start + t.blanks : Int)).Pairwise (· < ·) := by
  rw [List.map_map, List.pairwise_map]
  refine (contentLinesFrom_ordered 1 0 (Text.lines text)).1.imp fun {l m} hlm => ?_
  have hstop := hlm.stop
  have hblanks : l.token.blanks ≤ l.content.length := (List.takeWhile_prefix _).length_le
  change (l.start : Int) + _ < ((m.lineStart + m.indent.length : Nat) : Int) + _
  omega

/-- The statements that a walk over a script visits start one after the other. -/
theorem pairwise_start_walk (h : parse rules text file = .ok f) :
    (f.walk.map fun s => s.span.start).Pairwise (· < ·) := by
  obtain ⟨front, place, -, hshows, hshape⟩ := shows_of_parse h
  have hheads := sublist_startsOf hshows
  rw [hshape.textsOf_front] at hheads
  exact (pairwise_blanks_contentLines text).sublist ((map_start_walkAll f.statements).trans hheads)

/-- The statements of a script are visited in the order of the source, each of them once. The
outline shows them in this order, and the path to a statement shows the statements whose walk visits
it, the outermost first. -/
theorem outline_of_parse (h : parse rules text file = .ok f) :
    (f.walk.map fun s => s.span.start).Pairwise (· < ·) ∧
    (∀ s, s ∈ f.walk ↔ ∃ r ∈ f.statements, r.Holds s) ∧
    statementLabels f.outline.shown.children = f.walk.map Statement.shownLabel ∧
    statementPaths f.outline.shown.children =
      f.walk.map fun s => (f.walk.filter fun p => s ∈ p.walk).map Statement.shownLabel := by
  have hstarts := pairwise_start_walk h
  have hnodup : f.walk.Nodup := hstarts.of_map _ fun s t hlt he => by
    rw [he] at hlt
    exact Int.lt_irrefl _ hlt
  exact ⟨hstarts, fun s => mem_walkAll, statementLabels_outlineAll _,
    statementPaths_outlineAll hnodup⟩

/-- A menu with a caption and a branch below a choice. -/
def branchyMenu : List Char :=
  ("label a:\n    menu b:\n        e \"Go?\"\n        \"Yes\":\n" ++
    "            if x:\n                pass\n            else:\n                jump a\n").toList

theorem outline_of_parse_branchyMenu : ∃ f, parse {} branchyMenu = .ok f ∧
    (f.walk.map fun s => s.span.start).Pairwise (· < ·) ∧
    (∀ s, s ∈ f.walk ↔ ∃ r ∈ f.statements, r.Holds s) ∧
    statementLabels f.outline.shown.children = f.walk.map Statement.shownLabel ∧
    statementPaths f.outline.shown.children =
      f.walk.map fun s => (f.walk.filter fun p => s ∈ p.walk).map Statement.shownLabel := by
  obtain ⟨f, hf⟩ := exists_of_toBool (x := parse {} branchyMenu) (by cbv)
  exact ⟨f, hf, outline_of_parse hf⟩

end Script

end NovelScript
