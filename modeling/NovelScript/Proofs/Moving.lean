import NovelScript.Token
import NovelScript.Tree.Statement

/-!
# Moving a tree

What stands in a text stands further on when other lines are put before it. `Distance` says by how
many lines and characters, and `moved` is what becomes of a token and of each part of a tree: its
offsets and its lines grow by the distance, its columns and all else stay as they are.
-/

namespace NovelScript

/-- How far something is moved. -/
structure Distance where
  lines : Int
  chars : Int
  deriving DecidableEq, Repr

namespace Distance

/-- The distance from the start of a text to its end, which is the start of a line. -/
def past (text : List Char) : Distance := ⟨text.count '\n', text.length⟩

/-- The same distance in the other direction. -/
def back (k : Distance) : Distance := ⟨-k.lines, -k.chars⟩

end Distance

variable (k : Distance)

/-! Places and tokens. -/

def Place.moved (p : Place) : Place :=
  ⟨p.line + k.lines, p.column, p.start + k.chars, p.stop + k.chars⟩

def Span.moved (s : Span) : Span :=
  ⟨s.start + k.chars, s.stop + k.chars, s.line + k.lines, s.column, s.endLine + k.lines,
    s.endColumn⟩

def LayoutToken.moved (t : LayoutToken) : LayoutToken := { t with place := t.place.moved k }

@[simp] theorem Place.moved_span (p : Place) : (p.moved k).span = p.span.moved k := by
  have he : (p.moved k).endColumn = p.endColumn := by
    simp only [endColumn, moved]
    omega
  simp only [span, he]
  rfl

theorem LayoutToken.moved_back (t : LayoutToken) : (t.moved k).moved k.back = t := by
  simp only [moved, Place.moved, Distance.back, Int.add_neg_cancel_right]

/-- What is moved as a whole is covered as before. -/
@[simp] theorem Span.moved_cover (a b : Span) :
    (a.cover b).moved k = (a.moved k).cover (b.moved k) := by
  have hle : ∀ x y : Int, x + k.chars ≤ y + k.chars ↔ x ≤ y := fun x y => by omega
  simp only [cover, moved, hle]
  by_cases hs : a.start ≤ b.start
  · simp only [hs, if_true, hle]
    split <;> rfl
  · simp only [hs, if_false, hle]
    split <;> rfl

/-! Trees. -/

def Expression.moved (e : Expression) : Expression := { e with span := e.span.moved k }

def StringLiteral.moved (l : StringLiteral) : StringLiteral := { l with span := l.span.moved k }

def LabelName.moved (n : LabelName) : LabelName := { n with span := n.span.moved k }

def SayAttribute.moved (a : SayAttribute) : SayAttribute := { a with span := a.span.moved k }

def Speaker.moved (s : Speaker) : Speaker :=
  ⟨s.name, s.attributes.map (SayAttribute.moved k), s.temporary.map (SayAttribute.moved k)⟩

def Say.moved (s : Say) : Say := ⟨s.speaker.map (Speaker.moved k), s.what.moved k, s.span.moved k⟩

def ModifierClause.moved : ModifierClause → ModifierClause
  | .transform e => .transform (e.moved k)
  | .order e => .order (e.moved k)
  | c => c

def Modifier.moved (m : Modifier) : Modifier := ⟨m.clause.moved k, m.span.moved k⟩

def ImageSpec.moved (i : ImageSpec) : ImageSpec :=
  ⟨i.names, i.modifiers.map (Modifier.moved k), i.span.moved k⟩

def Action.moved : Action → Action
  | .say line => .say (line.moved k)
  | .showImage spec effect => .showImage (spec.moved k) (effect.map (Expression.moved k))
  | .hideImage spec effect => .hideImage (spec.moved k) (effect.map (Expression.moved k))
  | .scene spec effect => .scene (spec.map (ImageSpec.moved k)) (effect.map (Expression.moved k))
  | .transition effect => .transition (effect.moved k)
  | .jump target => .jump (target.moved k)
  | .call target site => .call (target.moved k) (site.map (LabelName.moved k))
  | .leave value => .leave (value.map (Expression.moved k))
  | .pass => .pass
  | .define name value => .define name (value.moved k)
  | .default name value => .default name (value.moved k)
  | .image names value => .image names (value.moved k)

mutual

/-- A statement that stands elsewhere, with everything in it. -/
def Statement.moved : Statement → Statement
  | .simple action span => .simple (action.moved k) (span.moved k)
  | .label name body span => .label (name.moved k) body.moved (span.moved k)
  | .loop condition body span => .loop (condition.moved k) body.moved (span.moved k)
  | .branch condition body elifs none span =>
    .branch (condition.moved k) body.moved (movedElifs elifs) none (span.moved k)
  | .branch condition body elifs (some block) span =>
    .branch (condition.moved k) body.moved (movedElifs elifs) (some block.moved) (span.moved k)
  | .menu name caption choices span =>
    .menu (name.map (LabelName.moved k)) (caption.map (Say.moved k)) (movedChoices choices)
      (span.moved k)

def Block.moved : Block → Block
  | ⟨statements, span⟩ => ⟨movedAll statements, span.moved k⟩

def movedAll : List Statement → List Statement
  | [] => []
  | s :: rest => s.moved :: movedAll rest

def movedElifs : List ElifClause → List ElifClause
  | [] => []
  | ⟨condition, body, span⟩ :: rest =>
    ⟨condition.moved k, body.moved, span.moved k⟩ :: movedElifs rest

def movedChoices : List Choice → List Choice
  | [] => []
  | ⟨text, condition, body, span⟩ :: rest =>
    ⟨text.moved k, condition.map (Expression.moved k), body.moved, span.moved k⟩ ::
      movedChoices rest

end

theorem movedAll_eq_map (ss : List Statement) : movedAll k ss = ss.map (Statement.moved k) := by
  induction ss with
  | nil => rfl
  | cons s ss ih => rw [movedAll, ih, List.map_cons]

@[simp] theorem Statement.moved_span (s : Statement) : (s.moved k).span = s.span.moved k := by
  cases s with
  | branch _ _ _ otherwise => cases otherwise <;> (rw [moved]; rfl)
  | _ => rw [moved]; rfl

end NovelScript
