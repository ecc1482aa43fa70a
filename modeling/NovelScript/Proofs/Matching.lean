import Mathlib.Data.List.Forall2
import NovelScript.Proofs.Canonical

/-!
# Trees that match

Two trees match when they are the same but for their spans, and the spans correspond by a relation.
`mapSpans` changes all spans of a tree. Changes that send corresponding spans to one span make equal
trees of trees that match; in particular such trees are the same without their spans.
-/

namespace NovelScript

section

variable (R : Span → Span → Prop)

/-! The parts of a statement. -/

structure Expression.Matches (e e' : Expression) : Prop where
  text : e.text = e'.text
  kind : e.kind = e'.kind
  span : R e.span e'.span

structure StringLiteral.Matches (l l' : StringLiteral) : Prop where
  value : l.value = l'.value
  quote : l.quote = l'.quote
  raw : l.raw = l'.raw
  span : R l.span l'.span

structure LabelName.Matches (n n' : LabelName) : Prop where
  scope : n.scope = n'.scope
  name : n.name = n'.name
  span : R n.span n'.span

structure SayAttribute.Matches (a a' : SayAttribute) : Prop where
  name : a.name = a'.name
  negated : a.negated = a'.negated
  span : R a.span a'.span

structure Speaker.Matches (s s' : Speaker) : Prop where
  name : s.name = s'.name
  attributes : List.Forall₂ (SayAttribute.Matches R) s.attributes s'.attributes
  temporary : List.Forall₂ (SayAttribute.Matches R) s.temporary s'.temporary

structure Say.Matches (s s' : Say) : Prop where
  speaker : Option.Rel (Speaker.Matches R) s.speaker s'.speaker
  what : s.what.Matches R s'.what
  span : R s.span s'.span

inductive ModifierClause.Matches : ModifierClause → ModifierClause → Prop
  | transform {e e' : Expression} (h : e.Matches R e') : Matches (.transform e) (.transform e')
  | layer (name : List Char) : Matches (.layer name) (.layer name)
  | tag (name : List Char) : Matches (.tag name) (.tag name)
  | order {e e' : Expression} (h : e.Matches R e') : Matches (.order e) (.order e')
  | behind (tags : List (List Char)) : Matches (.behind tags) (.behind tags)

structure Modifier.Matches (m m' : Modifier) : Prop where
  clause : m.clause.Matches R m'.clause
  span : R m.span m'.span

structure ImageSpec.Matches (i i' : ImageSpec) : Prop where
  names : i.names = i'.names
  modifiers : List.Forall₂ (Modifier.Matches R) i.modifiers i'.modifiers
  span : R i.span i'.span

inductive Action.Matches : Action → Action → Prop
  | say {l l' : Say} (h : l.Matches R l') : Matches (.say l) (.say l')
  | showImage {i i' : ImageSpec} {e e' : Option Expression} (hi : i.Matches R i')
    (he : Option.Rel (Expression.Matches R) e e') : Matches (.showImage i e) (.showImage i' e')
  | hideImage {i i' : ImageSpec} {e e' : Option Expression} (hi : i.Matches R i')
    (he : Option.Rel (Expression.Matches R) e e') : Matches (.hideImage i e) (.hideImage i' e')
  | scene {i i' : Option ImageSpec} {e e' : Option Expression}
    (hi : Option.Rel (ImageSpec.Matches R) i i') (he : Option.Rel (Expression.Matches R) e e') :
    Matches (.scene i e) (.scene i' e')
  | transition {e e' : Expression} (h : e.Matches R e') : Matches (.transition e) (.transition e')
  | jump {n n' : LabelName} (h : n.Matches R n') : Matches (.jump n) (.jump n')
  | call {n n' : LabelName} {s s' : Option LabelName} (hn : n.Matches R n')
    (hs : Option.Rel (LabelName.Matches R) s s') : Matches (.call n s) (.call n' s')
  | leave {e e' : Option Expression} (h : Option.Rel (Expression.Matches R) e e') :
    Matches (.leave e) (.leave e')
  | pass : Matches .pass .pass
  | define (name : List Char) {e e' : Expression} (h : e.Matches R e') :
    Matches (.define name e) (.define name e')
  | default (name : List Char) {e e' : Expression} (h : e.Matches R e') :
    Matches (.default name e) (.default name e')
  | image (names : List (List Char)) {e e' : Expression} (h : e.Matches R e') :
    Matches (.image names e) (.image names e')

inductive Head.Matches : Head → Head → Prop
  | simple {a a' : Action} {s s' : Span} (ha : a.Matches R a') (hs : R s s') :
    Matches (.simple a s) (.simple a' s')
  | label {n n' : LabelName} {s s' : Span} (hn : n.Matches R n') (hs : R s s') :
    Matches (.label n s) (.label n' s')
  | branch {c c' : Expression} {s s' : Span} (hc : c.Matches R c') (hs : R s s') :
    Matches (.branch c s) (.branch c' s')
  | loop {c c' : Expression} {s s' : Span} (hc : c.Matches R c') (hs : R s s') :
    Matches (.loop c s) (.loop c' s')
  | menu {n n' : Option LabelName} {s s' : Span} (hn : Option.Rel (LabelName.Matches R) n n')
    (hs : R s s') : Matches (.menu n s) (.menu n' s')

/-! Statements and what they own. -/

mutual

inductive Statement.Matches : Statement → Statement → Prop
  | simple {a a' : Action} {s s' : Span} (ha : a.Matches R a') (hs : R s s') :
    Statement.Matches (.simple a s) (.simple a' s')
  | label {n n' : LabelName} {b b' : Block} {s s' : Span} (hn : n.Matches R n')
    (hb : Block.Matches b b') (hs : R s s') : Statement.Matches (.label n b s) (.label n' b' s')
  | branch {c c' : Expression} {b b' : Block} {es es' : List ElifClause} {o o' : Option Block}
    {s s' : Span} (hc : c.Matches R c') (hb : Block.Matches b b')
    (he : List.Forall₂ ElifClause.Matches es es') (ho : Option.Rel Block.Matches o o')
    (hs : R s s') : Statement.Matches (.branch c b es o s) (.branch c' b' es' o' s')
  | loop {c c' : Expression} {b b' : Block} {s s' : Span} (hc : c.Matches R c')
    (hb : Block.Matches b b') (hs : R s s') : Statement.Matches (.loop c b s) (.loop c' b' s')
  | menu {n n' : Option LabelName} {l l' : Option Say} {cs cs' : List Choice} {s s' : Span}
    (hn : Option.Rel (LabelName.Matches R) n n') (hl : Option.Rel (Say.Matches R) l l')
    (hc : List.Forall₂ Choice.Matches cs cs') (hs : R s s') :
    Statement.Matches (.menu n l cs s) (.menu n' l' cs' s')

inductive Block.Matches : Block → Block → Prop
  | mk {ss ss' : List Statement} {s s' : Span} (h : List.Forall₂ Statement.Matches ss ss')
    (hs : R s s') : Block.Matches ⟨ss, s⟩ ⟨ss', s'⟩

inductive ElifClause.Matches : ElifClause → ElifClause → Prop
  | mk {c c' : Expression} {b b' : Block} {s s' : Span} (hc : c.Matches R c')
    (hb : Block.Matches b b') (hs : R s s') : ElifClause.Matches ⟨c, b, s⟩ ⟨c', b', s'⟩

inductive Choice.Matches : Choice → Choice → Prop
  | mk {t t' : StringLiteral} {c c' : Option Expression} {b b' : Block} {s s' : Span}
    (ht : t.Matches R t') (hc : Option.Rel (Expression.Matches R) c c') (hb : Block.Matches b b')
    (hs : R s s') : Choice.Matches ⟨t, c, b, s⟩ ⟨t', c', b', s'⟩

end

end

variable {R : Span → Span → Prop}

theorem Statement.Matches.span {s s' : Statement} (h : s.Matches R s') : R s.span s'.span := by
  cases h <;> assumption

theorem Statement.Matches.isCompound {s s' : Statement} (h : s.Matches R s') :
    s'.isCompound = s.isCompound := by
  cases h <;> rfl

theorem Block.Matches.statements {b b' : Block} (h : b.Matches R b') :
    List.Forall₂ (Statement.Matches R) b.statements b'.statements := by
  cases h with
  | mk h => exact h

theorem Block.Matches.span {b b' : Block} (h : b.Matches R b') : R b.span b'.span := by
  cases h
  assumption

theorem ElifClause.Matches.body {e e' : ElifClause} (h : e.Matches R e') :
    e.body.Matches R e'.body := by
  cases h
  assumption

theorem Choice.Matches.span {c c' : Choice} (h : c.Matches R c') : R c.span c'.span := by
  cases h
  assumption

/-! Trees with other spans. -/

section

variable (φ : Span → Span)

def Expression.mapSpans (e : Expression) : Expression := { e with span := φ e.span }

def StringLiteral.mapSpans (l : StringLiteral) : StringLiteral := { l with span := φ l.span }

def LabelName.mapSpans (n : LabelName) : LabelName := { n with span := φ n.span }

def SayAttribute.mapSpans (a : SayAttribute) : SayAttribute := { a with span := φ a.span }

def Speaker.mapSpans (s : Speaker) : Speaker :=
  ⟨s.name, s.attributes.map (SayAttribute.mapSpans φ), s.temporary.map (SayAttribute.mapSpans φ)⟩

def Say.mapSpans (s : Say) : Say :=
  ⟨s.speaker.map (Speaker.mapSpans φ), s.what.mapSpans φ, φ s.span⟩

def ModifierClause.mapSpans : ModifierClause → ModifierClause
  | .transform e => .transform (e.mapSpans φ)
  | .order e => .order (e.mapSpans φ)
  | c => c

def Modifier.mapSpans (m : Modifier) : Modifier := ⟨m.clause.mapSpans φ, φ m.span⟩

def ImageSpec.mapSpans (i : ImageSpec) : ImageSpec :=
  ⟨i.names, i.modifiers.map (Modifier.mapSpans φ), φ i.span⟩

def Action.mapSpans : Action → Action
  | .say line => .say (line.mapSpans φ)
  | .showImage spec effect => .showImage (spec.mapSpans φ) (effect.map (Expression.mapSpans φ))
  | .hideImage spec effect => .hideImage (spec.mapSpans φ) (effect.map (Expression.mapSpans φ))
  | .scene spec effect =>
    .scene (spec.map (ImageSpec.mapSpans φ)) (effect.map (Expression.mapSpans φ))
  | .transition effect => .transition (effect.mapSpans φ)
  | .jump target => .jump (target.mapSpans φ)
  | .call target site => .call (target.mapSpans φ) (site.map (LabelName.mapSpans φ))
  | .leave value => .leave (value.map (Expression.mapSpans φ))
  | .pass => .pass
  | .define name value => .define name (value.mapSpans φ)
  | .default name value => .default name (value.mapSpans φ)
  | .image names value => .image names (value.mapSpans φ)

mutual

/-- The statement with other spans. -/
def Statement.mapSpans : Statement → Statement
  | .simple action span => .simple (action.mapSpans φ) (φ span)
  | .label name body span => .label (name.mapSpans φ) body.mapSpans (φ span)
  | .loop condition body span => .loop (condition.mapSpans φ) body.mapSpans (φ span)
  | .branch condition body elifs none span =>
    .branch (condition.mapSpans φ) body.mapSpans (mapElifSpans elifs) none (φ span)
  | .branch condition body elifs (some block) span =>
    .branch (condition.mapSpans φ) body.mapSpans (mapElifSpans elifs) (some block.mapSpans) (φ span)
  | .menu name caption choices span =>
    .menu (name.map (LabelName.mapSpans φ)) (caption.map (Say.mapSpans φ))
      (mapChoiceSpans choices) (φ span)

def Block.mapSpans : Block → Block
  | ⟨statements, span⟩ => ⟨mapAllSpans statements, φ span⟩

def mapAllSpans : List Statement → List Statement
  | [] => []
  | s :: rest => s.mapSpans :: mapAllSpans rest

def mapElifSpans : List ElifClause → List ElifClause
  | [] => []
  | ⟨condition, body, span⟩ :: rest =>
    ⟨condition.mapSpans φ, body.mapSpans, φ span⟩ :: mapElifSpans rest

def mapChoiceSpans : List Choice → List Choice
  | [] => []
  | ⟨text, condition, body, span⟩ :: rest =>
    ⟨text.mapSpans φ, condition.map (Expression.mapSpans φ), body.mapSpans, φ span⟩ ::
      mapChoiceSpans rest

end

/-- The script with other spans. -/
def SourceFile.mapSpans (f : SourceFile) : SourceFile :=
  ⟨mapAllSpans φ f.statements, f.file, φ f.span⟩

end

/-! Parts that match become equal. -/

section

variable {φ ψ : Span → Span} (h : ∀ s s', R s s' → φ s = ψ s')

theorem map_eq_of_forall₂ {α β γ : Type} {T : α → β → Prop} {f : α → γ} {g : β → γ} {xs : List α}
    {ys : List β} (hxs : List.Forall₂ T xs ys) (hf : ∀ x y, T x y → f x = g y) :
    xs.map f = ys.map g := by
  induction hxs with
  | nil => rfl
  | cons hx _ ih => rw [List.map_cons, List.map_cons, hf _ _ hx, ih]

theorem map_eq_of_rel {α β γ : Type} {T : α → β → Prop} {f : α → γ} {g : β → γ} {o : Option α}
    {o' : Option β} (ho : Option.Rel T o o') (hf : ∀ x y, T x y → f x = g y) :
    o.map f = o'.map g := by
  cases ho with
  | none => rfl
  | some hx => rw [Option.map_some, Option.map_some, hf _ _ hx]

include h

theorem Expression.Matches.mapSpans_eq {e e' : Expression} (he : e.Matches R e') :
    e.mapSpans φ = e'.mapSpans ψ := by
  rw [mapSpans, mapSpans, he.text, he.kind, h _ _ he.span]

theorem StringLiteral.Matches.mapSpans_eq {l l' : StringLiteral} (hl : l.Matches R l') :
    l.mapSpans φ = l'.mapSpans ψ := by
  rw [mapSpans, mapSpans, hl.value, hl.quote, hl.raw, h _ _ hl.span]

theorem LabelName.Matches.mapSpans_eq {n n' : LabelName} (hn : n.Matches R n') :
    n.mapSpans φ = n'.mapSpans ψ := by
  rw [mapSpans, mapSpans, hn.scope, hn.name, h _ _ hn.span]

theorem SayAttribute.Matches.mapSpans_eq {a a' : SayAttribute} (ha : a.Matches R a') :
    a.mapSpans φ = a'.mapSpans ψ := by
  rw [mapSpans, mapSpans, ha.name, ha.negated, h _ _ ha.span]

theorem Speaker.Matches.mapSpans_eq {s s' : Speaker} (hs : s.Matches R s') :
    s.mapSpans φ = s'.mapSpans ψ := by
  rw [mapSpans, mapSpans, hs.name,
    map_eq_of_forall₂ hs.attributes fun _ _ => SayAttribute.Matches.mapSpans_eq h,
    map_eq_of_forall₂ hs.temporary fun _ _ => SayAttribute.Matches.mapSpans_eq h]

theorem Say.Matches.mapSpans_eq {s s' : Say} (hs : s.Matches R s') :
    s.mapSpans φ = s'.mapSpans ψ := by
  rw [mapSpans, mapSpans, map_eq_of_rel hs.speaker fun _ _ => Speaker.Matches.mapSpans_eq h,
    hs.what.mapSpans_eq h, h _ _ hs.span]

theorem ModifierClause.Matches.mapSpans_eq {c c' : ModifierClause} (hc : c.Matches R c') :
    c.mapSpans φ = c'.mapSpans ψ := by
  cases hc with
  | transform he | order he => rw [mapSpans, mapSpans, he.mapSpans_eq h]
  | layer | tag | behind => rfl

theorem Modifier.Matches.mapSpans_eq {m m' : Modifier} (hm : m.Matches R m') :
    m.mapSpans φ = m'.mapSpans ψ := by
  rw [mapSpans, mapSpans, hm.clause.mapSpans_eq h, h _ _ hm.span]

theorem ImageSpec.Matches.mapSpans_eq {i i' : ImageSpec} (hi : i.Matches R i') :
    i.mapSpans φ = i'.mapSpans ψ := by
  rw [mapSpans, mapSpans, hi.names,
    map_eq_of_forall₂ hi.modifiers fun _ _ => Modifier.Matches.mapSpans_eq h, h _ _ hi.span]

theorem Action.Matches.mapSpans_eq {a a' : Action} (ha : a.Matches R a') :
    a.mapSpans φ = a'.mapSpans ψ := by
  cases ha with
  | say hl => rw [mapSpans, mapSpans, hl.mapSpans_eq h]
  | showImage hi he | hideImage hi he =>
    rw [mapSpans, mapSpans, hi.mapSpans_eq h,
      map_eq_of_rel he fun _ _ => Expression.Matches.mapSpans_eq h]
  | scene hi he =>
    rw [mapSpans, mapSpans, map_eq_of_rel hi fun _ _ => ImageSpec.Matches.mapSpans_eq h,
      map_eq_of_rel he fun _ _ => Expression.Matches.mapSpans_eq h]
  | jump hn => rw [mapSpans, mapSpans, hn.mapSpans_eq h]
  | call hn hs =>
    rw [mapSpans, mapSpans, hn.mapSpans_eq h,
      map_eq_of_rel hs fun _ _ => LabelName.Matches.mapSpans_eq h]
  | leave he =>
    rw [mapSpans, mapSpans, map_eq_of_rel he fun _ _ => Expression.Matches.mapSpans_eq h]
  | pass => rfl
  | transition he | define _ he | default _ he | image _ he =>
    rw [mapSpans, mapSpans, he.mapSpans_eq h]

end

section

variable {φ ψ : Span → Span}

mutual

theorem Statement.Matches.mapSpans_eq (h : ∀ s s', R s s' → φ s = ψ s') :
    ∀ (s : Statement) {s' : Statement}, s.Matches R s' → s.mapSpans φ = s'.mapSpans ψ
  | .simple _ _, _, hm => by
    cases hm with
    | simple ha hs => rw [Statement.mapSpans, Statement.mapSpans, ha.mapSpans_eq h, h _ _ hs]
  | .label _ b _, _, hm => by
    cases hm with
    | label hn hb hs =>
      rw [Statement.mapSpans, Statement.mapSpans, hn.mapSpans_eq h,
        Block.Matches.mapSpans_eq h b hb, h _ _ hs]
  | .loop _ b _, _, hm => by
    cases hm with
    | loop hc hb hs =>
      rw [Statement.mapSpans, Statement.mapSpans, hc.mapSpans_eq h,
        Block.Matches.mapSpans_eq h b hb, h _ _ hs]
  | .branch _ b es none _, _, hm => by
    cases hm with
    | branch hc hb he ho hs =>
      cases ho
      rw [Statement.mapSpans, Statement.mapSpans, hc.mapSpans_eq h,
        Block.Matches.mapSpans_eq h b hb, mapElifSpans_eq h es he, h _ _ hs]
  | .branch _ b es (some o) _, _, hm => by
    cases hm with
    | branch hc hb he ho hs =>
      cases ho with
      | some ho =>
        rw [Statement.mapSpans, Statement.mapSpans, hc.mapSpans_eq h,
          Block.Matches.mapSpans_eq h b hb, mapElifSpans_eq h es he,
          Block.Matches.mapSpans_eq h o ho, h _ _ hs]
  | .menu _ _ cs _, _, hm => by
    cases hm with
    | menu hn hl hc hs =>
      rw [Statement.mapSpans, Statement.mapSpans,
        map_eq_of_rel hn fun _ _ => LabelName.Matches.mapSpans_eq h,
        map_eq_of_rel hl fun _ _ => Say.Matches.mapSpans_eq h, mapChoiceSpans_eq h cs hc, h _ _ hs]

theorem Block.Matches.mapSpans_eq (h : ∀ s s', R s s' → φ s = ψ s') :
    ∀ (b : Block) {b' : Block}, b.Matches R b' → b.mapSpans φ = b'.mapSpans ψ
  | ⟨ss, _⟩, _, hm => by
    cases hm with
    | mk hss hs => rw [Block.mapSpans, Block.mapSpans, mapAllSpans_eq h ss hss, h _ _ hs]

theorem mapAllSpans_eq (h : ∀ s s', R s s' → φ s = ψ s') :
    ∀ (ss : List Statement) {ss' : List Statement}, List.Forall₂ (Statement.Matches R) ss ss' →
      mapAllSpans φ ss = mapAllSpans ψ ss'
  | [], _, hm => by
    cases hm
    rfl
  | s :: ss, _, hm => by
    cases hm with
    | cons hs hss =>
      rw [mapAllSpans, mapAllSpans, Statement.Matches.mapSpans_eq h s hs, mapAllSpans_eq h ss hss]

theorem mapElifSpans_eq (h : ∀ s s', R s s' → φ s = ψ s') :
    ∀ (es : List ElifClause) {es' : List ElifClause}, List.Forall₂ (ElifClause.Matches R) es es' →
      mapElifSpans φ es = mapElifSpans ψ es'
  | [], _, hm => by
    cases hm
    rfl
  | ⟨_, b, _⟩ :: es, _, hm => by
    cases hm with
    | cons he hes =>
      cases he with
      | mk hc hb hs =>
        rw [mapElifSpans, mapElifSpans, hc.mapSpans_eq h,
          Block.Matches.mapSpans_eq h b hb, h _ _ hs, mapElifSpans_eq h es hes]

theorem mapChoiceSpans_eq (h : ∀ s s', R s s' → φ s = ψ s') :
    ∀ (cs : List Choice) {cs' : List Choice}, List.Forall₂ (Choice.Matches R) cs cs' →
      mapChoiceSpans φ cs = mapChoiceSpans ψ cs'
  | [], _, hm => by
    cases hm
    rfl
  | ⟨_, _, b, _⟩ :: cs, _, hm => by
    cases hm with
    | cons hc hcs =>
      cases hc with
      | mk ht hc hb hs =>
        rw [mapChoiceSpans, mapChoiceSpans, ht.mapSpans_eq h,
          map_eq_of_rel hc fun _ _ => Expression.Matches.mapSpans_eq h,
          Block.Matches.mapSpans_eq h b hb, h _ _ hs, mapChoiceSpans_eq h cs hcs]

end

end

/-! Trees with the spans they have. -/

theorem Speaker.mapSpans_id : Speaker.mapSpans id = id := by
  funext s
  simp only [mapSpans, show SayAttribute.mapSpans id = id from rfl, List.map_id, id_eq]

theorem Say.mapSpans_id : Say.mapSpans id = id := by
  funext s
  simp only [mapSpans, Speaker.mapSpans_id, Option.map_id, id_eq]
  rfl

theorem Modifier.mapSpans_id : Modifier.mapSpans id = id := by
  funext m
  obtain ⟨clause, span⟩ := m
  cases clause <;> rfl

theorem ImageSpec.mapSpans_id : ImageSpec.mapSpans id = id := by
  funext i
  simp only [mapSpans, Modifier.mapSpans_id, List.map_id, id_eq]

theorem map_expression_id : Option.map (Expression.mapSpans id) = id := Option.map_id

theorem map_labelName_id : Option.map (LabelName.mapSpans id) = id := Option.map_id

theorem Action.mapSpans_id (a : Action) : a.mapSpans id = a := by
  cases a with
  | say l => rw [mapSpans, Say.mapSpans_id]; rfl
  | showImage i e | hideImage i e => rw [mapSpans, ImageSpec.mapSpans_id, map_expression_id]; rfl
  | scene i e => rw [mapSpans, ImageSpec.mapSpans_id, map_expression_id, Option.map_id]; rfl
  | call n s => rw [mapSpans, map_labelName_id]; rfl
  | leave e => rw [mapSpans, map_expression_id]; rfl
  | transition | jump | pass | define | default | image => rfl

mutual

theorem Statement.mapSpans_id : ∀ s : Statement, s.mapSpans id = s
  | .simple a _ => by rw [Statement.mapSpans, a.mapSpans_id]; rfl
  | .label _ b _ | .loop _ b _ => by rw [Statement.mapSpans, b.mapSpans_id]; rfl
  | .branch _ b es none _ => by
    rw [Statement.mapSpans, b.mapSpans_id, mapElifSpans_id es]
    rfl
  | .branch _ b es (some o) _ => by
    rw [Statement.mapSpans, b.mapSpans_id, mapElifSpans_id es, o.mapSpans_id]
    rfl
  | .menu _ _ cs _ => by
    rw [Statement.mapSpans, mapChoiceSpans_id cs, map_labelName_id, Say.mapSpans_id, Option.map_id]
    rfl

theorem Block.mapSpans_id : ∀ b : Block, b.mapSpans id = b
  | ⟨ss, _⟩ => by rw [Block.mapSpans, mapAllSpans_id ss]; rfl

theorem mapAllSpans_id : ∀ ss : List Statement, mapAllSpans id ss = ss
  | [] => rfl
  | s :: ss => by rw [mapAllSpans, s.mapSpans_id, mapAllSpans_id ss]

theorem mapElifSpans_id : ∀ es : List ElifClause, mapElifSpans id es = es
  | [] => rfl
  | ⟨_, b, _⟩ :: es => by rw [mapElifSpans, b.mapSpans_id, mapElifSpans_id es]; rfl

theorem mapChoiceSpans_id : ∀ cs : List Choice, mapChoiceSpans id cs = cs
  | [] => rfl
  | ⟨_, _, b, _⟩ :: cs => by
    rw [mapChoiceSpans, b.mapSpans_id, mapChoiceSpans_id cs, map_expression_id]
    rfl

end

/-- Statements that match are the same when the spans of the second ones are those of the first ones
under `φ`. -/
theorem eq_mapAllSpans_of_matches {φ : Span → Span} (h : ∀ s s', R s s' → s' = φ s)
    {ss ss' : List Statement} (hss : List.Forall₂ (Statement.Matches R) ss ss') :
    ss' = mapAllSpans φ ss := by
  rw [mapAllSpans_eq (φ := φ) (ψ := id) (fun s s' hs => (h s s' hs).symm) ss hss, mapAllSpans_id]

/-! Trees without spans. -/

theorem Action.mapSpans_blank (a : Action) : a.mapSpans (fun _ => .blank) = a.bare := by
  cases a <;> rfl

mutual

theorem Statement.mapSpans_blank : ∀ s : Statement, s.mapSpans (fun _ => .blank) = s.bare
  | .simple a _ => by rw [Statement.mapSpans, Statement.bare, a.mapSpans_blank]
  | .label _ b _ | .loop _ b _ => by
    rw [Statement.mapSpans, Statement.bare, b.mapSpans_blank]
    rfl
  | .branch _ b es none _ => by
    rw [Statement.mapSpans, Statement.bare, b.mapSpans_blank, mapElifSpans_blank es]
    rfl
  | .branch _ b es (some o) _ => by
    rw [Statement.mapSpans, Statement.bare, b.mapSpans_blank, mapElifSpans_blank es,
      o.mapSpans_blank]
    rfl
  | .menu _ _ cs _ => by
    rw [Statement.mapSpans, Statement.bare, mapChoiceSpans_blank cs]
    rfl

theorem Block.mapSpans_blank : ∀ b : Block, b.mapSpans (fun _ => .blank) = b.bare
  | ⟨ss, _⟩ => by rw [Block.mapSpans, Block.bare, mapAllSpans_blank ss]

theorem mapAllSpans_blank : ∀ ss : List Statement, mapAllSpans (fun _ => .blank) ss = bareAll ss
  | [] => rfl
  | s :: ss => by rw [mapAllSpans, bareAll, s.mapSpans_blank, mapAllSpans_blank ss]

theorem mapElifSpans_blank : ∀ es : List ElifClause,
    mapElifSpans (fun _ => .blank) es = bareElifs es
  | [] => rfl
  | ⟨_, b, _⟩ :: es => by
    rw [mapElifSpans, bareElifs, b.mapSpans_blank, mapElifSpans_blank es]
    rfl

theorem mapChoiceSpans_blank : ∀ cs : List Choice,
    mapChoiceSpans (fun _ => .blank) cs = bareChoices cs
  | [] => rfl
  | ⟨_, _, b, _⟩ :: cs => by
    rw [mapChoiceSpans, bareChoices, b.mapSpans_blank, mapChoiceSpans_blank cs]
    rfl

end

/-- Statements that match are the same without their spans. -/
theorem bareAll_eq_of_matches {ss ss' : List Statement}
    (h : List.Forall₂ (Statement.Matches R) ss ss') : bareAll ss = bareAll ss' := by
  rw [← mapAllSpans_blank, ← mapAllSpans_blank]
  exact mapAllSpans_eq (fun _ _ _ => rfl) ss h

end NovelScript
