import Mathlib.Logic.Relation
import NovelScript.Tree.Walk

/-!
# Statements within statements

A statement owns the statements of its blocks, and a menu owns its caption. A walk visits a
statement and then walks over all that it owns, so it visits exactly what the statement owns in any
number of steps. Facts about walks are proved by induction over a forest: from what a statement owns
and from the statements behind it.
-/

namespace NovelScript

namespace Statement

/-- The first statement owns the second one, in one of its blocks or as its caption. -/
inductive Owns : Statement → Statement → Prop
  | label {name : LabelName} {body : Block} {span : Span} {s : Statement}
    (h : s ∈ body.statements) : Owns (.label name body span) s
  | loop {condition : Expression} {body : Block} {span : Span} {s : Statement}
    (h : s ∈ body.statements) : Owns (.loop condition body span) s
  | branch {condition : Expression} {body : Block} {elifs : List ElifClause}
    {otherwise : Option Block} {span : Span} {s : Statement} (h : s ∈ body.statements) :
    Owns (.branch condition body elifs otherwise span) s
  | elif {condition : Expression} {body : Block} {elifs : List ElifClause}
    {otherwise : Option Block} {span : Span} {e : ElifClause} {s : Statement} (he : e ∈ elifs)
    (h : s ∈ e.body.statements) : Owns (.branch condition body elifs otherwise span) s
  | otherwise {condition : Expression} {body : Block} {elifs : List ElifClause} {block : Block}
    {span : Span} {s : Statement} (h : s ∈ block.statements) :
    Owns (.branch condition body elifs (some block) span) s
  | caption {name : Option LabelName} {line : Say} {choices : List Choice} {span : Span} :
    Owns (.menu name (some line) choices span) line.statement
  | choice {name : Option LabelName} {caption : Option Say} {choices : List Choice} {span : Span}
    {c : Choice} {s : Statement} (hc : c ∈ choices) (h : s ∈ c.body.statements) :
    Owns (.menu name caption choices span) s

/-- The caption of a menu. -/
def caption? : Statement → Option Say
  | menu _ caption _ _ => caption
  | _ => none

/-- What a statement owns, in the order of the source. -/
def children (s : Statement) : List Statement :=
  (s.caption?.map Say.statement).toList ++ s.blocks.flatMap Block.statements

section

variable {name : LabelName} {condition : Expression} {body : Block} {span : Span}

@[simp] theorem children_simple (action : Action) : (simple action span).children = [] := rfl

@[simp] theorem children_label : (label name body span).children = body.statements :=
  List.append_nil body.statements

@[simp] theorem children_loop : (loop condition body span).children = body.statements :=
  List.append_nil body.statements

@[simp] theorem children_branch (elifs : List ElifClause) (otherwise : Option Block) :
    (branch condition body elifs otherwise span).children =
      body.statements ++ (elifs.flatMap (fun e => e.body.statements) ++
        otherwise.toList.flatMap Block.statements) := by
  simp [children, caption?, blocks, List.flatMap_map]

@[simp] theorem children_menu (name : Option LabelName) (caption : Option Say)
    (choices : List Choice) : (menu name caption choices span).children =
      (caption.map Say.statement).toList ++ choices.flatMap fun c => c.body.statements := by
  simp [children, caption?, blocks, List.flatMap_map]

end

theorem mem_children {s t : Statement} : t ∈ s.children ↔ s.Owns t := by
  constructor
  · intro h
    cases s with
    | simple action span => cases h
    | label name body span => exact .label (children_label ▸ h)
    | loop condition body span => exact .loop (children_loop ▸ h)
    | branch condition body elifs otherwise span =>
      rw [children_branch, List.mem_append, List.mem_append, List.mem_flatMap,
        List.mem_flatMap] at h
      obtain h | ⟨e, he, h⟩ | ⟨block, hblock, h⟩ := h
      · exact .branch h
      · exact .elif he h
      · obtain rfl := Option.mem_toList.mp hblock
        exact .otherwise h
    | menu name caption choices span =>
      rw [children_menu, List.mem_append, List.mem_flatMap] at h
      obtain h | ⟨c, hc, h⟩ := h
      · obtain ⟨line, rfl, rfl⟩ := Option.map_eq_some_iff.mp (Option.mem_toList.mp h)
        exact .caption
      · exact .choice hc h
  · intro h
    cases h with
    | label h => exact children_label.symm ▸ h
    | loop h => exact children_loop.symm ▸ h
    | branch h =>
      rw [children_branch]
      exact List.mem_append_left _ h
    | elif he h =>
      rw [children_branch]
      exact List.mem_append_right _ (List.mem_append_left _ (List.mem_flatMap.mpr ⟨_, he, h⟩))
    | otherwise h =>
      rw [children_branch]
      exact List.mem_append_right _ (List.mem_append_right _ (by simpa using h))
    | caption =>
      rw [children_menu]
      exact List.mem_append_left _ List.mem_cons_self
    | choice hc h =>
      rw [children_menu]
      exact List.mem_append_right _ (List.mem_flatMap.mpr ⟨_, hc, h⟩)

end Statement

/-! Walks over forests. -/

theorem Block.walk_eq (b : Block) : b.walk = walkAll b.statements := by
  cases b
  rw [Block.walk]

@[simp] theorem walkAll_append (ss ts : List Statement) :
    walkAll (ss ++ ts) = walkAll ss ++ walkAll ts := by
  induction ss with
  | nil => rw [walkAll, List.nil_append, List.nil_append]
  | cons s ss ih => rw [List.cons_append, walkAll, walkAll, ih, List.append_assoc]

theorem walkElifs_eq (es : List ElifClause) :
    walkElifs es = walkAll (es.flatMap fun e => e.body.statements) := by
  induction es with
  | nil => rw [walkElifs, List.flatMap_nil, walkAll]
  | cons e es ih =>
    cases e
    rw [walkElifs, ih, List.flatMap_cons, walkAll_append, Block.walk_eq]

theorem walkChoices_eq (cs : List Choice) :
    walkChoices cs = walkAll (cs.flatMap fun c => c.body.statements) := by
  induction cs with
  | nil => rw [walkChoices, List.flatMap_nil, walkAll]
  | cons c cs ih =>
    cases c
    rw [walkChoices, ih, List.flatMap_cons, walkAll_append, Block.walk_eq]

theorem Say.walk_statement (line : Say) : line.statement.walk = [line.statement] := by
  rw [statement, Statement.walk]

/-- A walk visits the statement and then walks over what it owns. -/
theorem Statement.walk_eq (s : Statement) : s.walk = s :: walkAll s.children := by
  cases s with
  | simple action span => rw [walk, children_simple, walkAll]
  | label name body span => rw [walk, children_label, Block.walk_eq]
  | loop condition body span => rw [walk, children_loop, Block.walk_eq]
  | branch condition body elifs otherwise span =>
    cases otherwise <;> simp [walk, Block.walk_eq, walkElifs_eq]
  | menu name caption choices span =>
    cases caption <;> simp [walk, walkChoices_eq, Say.walk_statement, walkAll]

theorem walkAll_cons (s : Statement) (ss : List Statement) :
    walkAll (s :: ss) = s :: (walkAll s.children ++ walkAll ss) := by
  rw [walkAll, s.walk_eq, List.cons_append]

/-- Induction over a forest: from what the first statement owns and from the other statements. -/
@[elab_as_elim]
theorem forest_induction {P : List Statement → Prop} (nil : P [])
    (cons : ∀ s ss, P s.children → P ss → P (s :: ss)) (ss : List Statement) : P ss := by
  generalize hn : (walkAll ss).length = n
  induction n using Nat.strongRecOn generalizing ss with
  | ind n ih =>
    cases ss with
    | nil => exact nil
    | cons s ss =>
      rw [walkAll_cons, List.length_cons, List.length_append] at hn
      exact cons s ss (ih _ (by omega) s.children rfl) (ih _ (by omega) ss rfl)

/-- Whether a statement owns another one in any number of steps, or is that statement. -/
abbrev Statement.Holds : Statement → Statement → Prop := Relation.ReflTransGen Statement.Owns

theorem mem_walkAll {ss : List Statement} {s : Statement} :
    s ∈ walkAll ss ↔ ∃ r ∈ ss, r.Holds s := by
  induction ss using forest_induction with
  | nil => simp [walkAll]
  | cons r ss hr hss =>
    have hholds : r.Holds s ↔ s = r ∨ s ∈ walkAll r.children := by
      rw [Statement.Holds, Relation.ReflTransGen.cases_head_iff, hr, eq_comm]
      simp only [Statement.mem_children]
    rw [walkAll_cons, List.mem_cons, List.mem_append, hss, ← or_assoc, ← hholds]
    simp only [List.mem_cons, exists_eq_or_imp]

/-- A walk visits what the statement owns in any number of steps. -/
theorem Statement.mem_walk {s t : Statement} : t ∈ s.walk ↔ s.Holds t := by
  have h : t ∈ walkAll [s] ↔ ∃ r ∈ [s], r.Holds t := mem_walkAll
  rw [walkAll, walkAll, List.append_nil] at h
  simpa only [List.mem_singleton, exists_eq_left] using h

/-- What a visited statement owns is visited. -/
theorem mem_walkAll_of_mem_walk {ss : List Statement} {s t : Statement} (hs : s ∈ walkAll ss)
    (ht : t ∈ s.walk) : t ∈ walkAll ss := by
  obtain ⟨r, hr, hrs⟩ := mem_walkAll.mp hs
  exact mem_walkAll.mpr ⟨r, hr, hrs.trans (Statement.mem_walk.mp ht)⟩

end NovelScript
