import NovelScript.Proofs.Passing
import NovelScript.Tree.Statement

/-!
# Nodes of a tree

Everything in a tree that has a span is a node, with the nodes within it as children, in the order
of the source. A node lies `Over` the stretches it was read from: its span goes from the first of
them to the last, and its children lie over stretches of their own, one child after the other. When
the stretches stand in a text, in order, the spans of all nodes nest like the tree does.
-/

namespace NovelScript

open Line Text

inductive Node where
  | expression (e : Expression)
  | literal (l : StringLiteral)
  | inner (span : Span) (children : List Node)

namespace Node

def span : Node → Span
  | expression e => e.span
  | literal l => l.span
  | inner span _ => span

def children : Node → List Node
  | inner _ children => children
  | _ => []

end Node

mutual

/-- The node and all nodes within it. -/
def Node.all : Node → List Node
  | .expression e => [.expression e]
  | .literal l => [.literal l]
  | .inner span children => .inner span children :: allNodes children

/-- The nodes and all nodes within them. -/
def allNodes : List Node → List Node
  | [] => []
  | n :: ns => n.all ++ allNodes ns

end

/-! The nodes of each part of a tree. -/

def Expression.node (e : Expression) : Node := .expression e

def StringLiteral.node (l : StringLiteral) : Node := .literal l

def LabelName.node (n : LabelName) : Node := .inner n.span []

def SayAttribute.node (a : SayAttribute) : Node := .inner a.span []

/-- What is said and by whom, with the attributes, those that hold for one line, and the text. -/
def Say.content (s : Say) : Node :=
  let attributes := match s.speaker with
    | some speaker => speaker.attributes ++ speaker.temporary
    | none => []
  .inner s.span (attributes.map SayAttribute.node ++ [s.what.node])

/-- A spoken line as a statement. -/
def Say.node (s : Say) : Node := .inner s.span [s.content]

/-- The nodes within a modifier. -/
def ModifierClause.parts : ModifierClause → List Node
  | transform e | order e => [e.node]
  | layer _ | tag _ | behind _ => []

def Modifier.node (m : Modifier) : Node := .inner m.span m.clause.parts

def ImageSpec.node (i : ImageSpec) : Node := .inner i.span (i.modifiers.map Modifier.node)

/-- The nodes within an action. -/
def Action.parts : Action → List Node
  | say line => [line.content]
  | showImage i effect | hideImage i effect => i.node :: (effect.map Expression.node).toList
  | scene i effect => (i.map ImageSpec.node).toList ++ (effect.map Expression.node).toList
  | transition effect => [effect.node]
  | jump target => [target.node]
  | call target site => target.node :: (site.map LabelName.node).toList
  | leave value => (value.map Expression.node).toList
  | pass => []
  | define _ value | default _ value | image _ value => [value.node]

mutual

def Statement.node : Statement → Node
  | .simple action span => .inner span action.parts
  | .label name body span => .inner span [name.node, body.node]
  | .branch condition body elifs none span =>
    .inner span (condition.node :: body.node :: elifNodes elifs)
  | .branch condition body elifs (some block) span =>
    .inner span (condition.node :: body.node :: (elifNodes elifs ++ [block.node]))
  | .loop condition body span => .inner span [condition.node, body.node]
  | .menu name caption choices span =>
    .inner span ((name.map LabelName.node).toList ++ (caption.map Say.node).toList ++
      choiceNodes choices)

def Block.node : Block → Node
  | ⟨statements, span⟩ => .inner span (statementNodes statements)

def statementNodes : List Statement → List Node
  | [] => []
  | s :: rest => s.node :: statementNodes rest

def elifNodes : List ElifClause → List Node
  | [] => []
  | ⟨condition, body, span⟩ :: rest => .inner span [condition.node, body.node] :: elifNodes rest

def choiceNodes : List Choice → List Node
  | [] => []
  | ⟨text, condition, body, span⟩ :: rest =>
    .inner span (text.node :: (condition.map Expression.node).toList ++ [body.node]) ::
      choiceNodes rest

end

/-- The script as a node. -/
def SourceFile.node (f : SourceFile) : Node := .inner f.span (statementNodes f.statements)

/-- All nodes of a script. -/
def SourceFile.nodes (f : SourceFile) : List Node := f.node.all

/-! Spans over stretches. -/

/-- The span from the start of one place to the end of another one. -/
def Span.between (p q : Place) : Span := ⟨p.start, q.stop, p.line, p.column, q.line, q.endColumn⟩

/-- The span goes from the first stretch to the last one. -/
def Covers (span : Span) (ts : List Stretch) : Prop :=
  ∃ t u, ts.head? = some t ∧ ts.getLast? = some u ∧ span = .between t.place u.place

section

variable {a b : Span} {p : Place} {t u v : Stretch} {ts us vs : List Stretch}

theorem InOrder.head_le (h : InOrder ts) (ht : ts.head? = some t) (hu : u ∈ ts) :
    t.place.start ≤ u.place.start := by
  obtain ⟨rest, rfl⟩ := List.head?_eq_some_iff.mp ht
  obtain rfl | hu := List.mem_cons.mp hu
  · exact Int.le_refl _
  · have hlt := h.filled t List.mem_cons_self
    have hle := (List.pairwise_cons.mp h.apart).1 u hu
    omega

theorem InOrder.le_last (h : InOrder ts) (ht : ts.getLast? = some t) (hu : u ∈ ts) :
    u.place.stop ≤ t.place.stop := by
  obtain ⟨front, rfl⟩ := List.getLast?_eq_some_iff.mp ht
  obtain hu | hu := List.mem_append.mp hu
  · have hlt := h.filled t (by simp)
    have hle := (List.pairwise_append.mp h.apart).2.2 u hu t (by simp)
    omega
  · rw [List.mem_singleton.mp hu]

theorem covers_singleton (t : Stretch) : Covers t.place.span [t] := ⟨t, t, rfl, rfl, rfl⟩

/-- The span that holds the spans of a first and of a last part. -/
theorem Covers.cover (ha : Covers a us) (hb : Covers b vs) (h : InOrder ts) (hus : us <+: ts)
    (hvs : vs <:+ ts) : Covers (a.cover b) ts := by
  obtain ⟨t, u, ht, hu, rfl⟩ := ha
  obtain ⟨v, w, hv, hw, rfl⟩ := hb
  have hfirst : ts.head? = some t := by
    obtain ⟨rest, rfl⟩ := hus
    rw [List.head?_append, ht]
    rfl
  have hlast : ts.getLast? = some w := by
    obtain ⟨front, rfl⟩ := hvs
    rw [List.getLast?_append, hw]
    rfl
  have hstart := h.head_le hfirst (hvs.subset (List.mem_of_head? hv))
  have hstop := h.le_last hlast (hus.subset (List.mem_of_getLast? hu))
  refine ⟨t, w, hfirst, hlast, ?_⟩
  simp only [Span.cover, Span.between, hstart, hstop, if_true]

theorem Covers.start_lt (h : Covers a ts) (hts : InOrder ts) : a.start < a.stop := by
  obtain ⟨t, u, ht, hu, rfl⟩ := h
  have hlt := hts.filled t (List.mem_of_head? ht)
  have hle := hts.le_last hu (List.mem_of_head? ht)
  change t.place.start < u.place.stop
  omega

/-- A span over stretches that are among others lies between the ends of the others. -/
theorem Covers.within (ha : Covers a us) (hb : Covers b ts) (hts : InOrder ts)
    (hs : us.Sublist ts) : b.start ≤ a.start ∧ a.stop ≤ b.stop := by
  obtain ⟨t, u, ht, hu, rfl⟩ := ha
  obtain ⟨v, w, hv, hw, rfl⟩ := hb
  exact ⟨hts.head_le hv (hs.subset (List.mem_of_head? ht)),
    hts.le_last hw (hs.subset (List.mem_of_getLast? hu))⟩

/-- Spans over stretches that follow each other do not overlap. -/
theorem Covers.apart (ha : Covers a us) (hb : Covers b vs) (h : InOrder (us ++ vs)) :
    a.stop ≤ b.start := by
  obtain ⟨t, u, ht, hu, rfl⟩ := ha
  obtain ⟨v, w, hv, hw, rfl⟩ := hb
  exact (List.pairwise_append.mp h.apart).2.2 u (List.mem_of_getLast? hu) v (List.mem_of_head? hv)

theorem Covers.stop_eq (ha : Covers a vs) (hb : Covers b ts) (hs : vs <:+ ts) : a.stop = b.stop := by
  obtain ⟨t, u, ht, hu, rfl⟩ := ha
  obtain ⟨v, w, hv, hw, rfl⟩ := hb
  obtain ⟨front, rfl⟩ := hs
  rw [List.getLast?_append, hu] at hw
  cases hw
  rfl

end

/-! Nodes over stretches. -/

/-- The characters of a literal without its marks, with the escapes resolved. -/
def Line.Literal.resolve : List Char → List Char
  | [] => []
  | [c] => [c]
  | c :: e :: rest => if c = '\\' then unescape e :: resolve rest else c :: resolve (e :: rest)

/-- The literal is its body between two equal marks, and its value is the body resolved. -/
def StringLiteral.Resolves (l : StringLiteral) : Prop :=
  ∃ body, l.raw = l.quote :: (body ++ [l.quote]) ∧ l.value = Literal.resolve body

mutual

/-- The node was read from the stretches. -/
inductive Node.Over : Node → List Stretch → Prop
  | expression {e : Expression} {p : Place} (hs : e.span = p.span) :
    Node.Over (.expression e) [⟨e.text, p⟩]
  | literal {l : StringLiteral} {p : Place} (hl : l.Resolves) (hs : l.span = p.span) :
    Node.Over (.literal l) [⟨l.raw, p⟩]
  | inner {span : Span} {children : List Node} {ts : List Stretch} (hs : Covers span ts)
    (hc : LieOver children ts) (he : ∀ n ∈ children.getLast?, n.span.stop = span.stop) :
    Node.Over (.inner span children) ts

/-- The nodes were read from some of the stretches, one after the other. -/
inductive LieOver : List Node → List Stretch → Prop
  | nil (ts : List Stretch) : LieOver [] ts
  | cons {n : Node} {ns : List Node} (front : List Stretch) {ts us : List Stretch} (h : n.Over ts)
    (hs : LieOver ns us) : LieOver (n :: ns) (front ++ (ts ++ us))

end

section

variable {n : Node} {ms ns : List Node} {ts us vs : List Stretch} {text : List Char} {span : Span}

theorem Node.Over.covers (h : n.Over ts) : Covers n.span ts := by
  cases h with
  | @expression e p hs => exact ⟨_, _, rfl, rfl, hs⟩
  | @literal l p hl hs => exact ⟨_, _, rfl, rfl, hs⟩
  | inner hs hc he => exact hs

theorem LieOver.after (h : LieOver ns ts) (front : List Stretch) : LieOver ns (front ++ ts) := by
  cases h with
  | nil => exact .nil _
  | cons front' h hs =>
    rw [← List.append_assoc]
    exact .cons (front ++ front') h hs

theorem LieOver.append (hm : LieOver ms ts) (hn : LieOver ns us) : LieOver (ms ++ ns) (ts ++ us) := by
  induction ms generalizing ts with
  | nil => exact hn.after ts
  | cons m ms ih =>
    cases hm with
    | cons front h hs =>
      rw [List.append_assoc, List.append_assoc]
      exact .cons front h (ih hs)

theorem Node.Over.alone (h : n.Over ts) : LieOver [n] ts := by
  have hcons := LieOver.cons [] h (.nil [])
  rwa [List.append_nil] at hcons

/-- Nodes that were read one after the other lie in this order. -/
theorem Each.lieOver {α : Type} {node : α → Node} {as : List α}
    (h : Each (fun a us => (node a).Over us) as ts) : LieOver (as.map node) ts := by
  induction h with
  | nil => exact .nil []
  | cons h hs ih => exact h.alone.append ih

theorem Node.Over.bare (h : Covers span ts) : (Node.inner span []).Over ts := .inner h (.nil ts) nofun

/-- A node ends with the last of its children. -/
theorem Node.Over.ending (hs : Covers span (ts ++ us)) (hm : LieOver ms ts) (hn : n.Over us) :
    (Node.inner span (ms ++ [n])).Over (ts ++ us) := by
  refine .inner hs (hm.append hn.alone) fun m hmem => ?_
  rw [List.getLast?_concat] at hmem
  cases hmem
  exact hn.covers.stop_eq hs (List.suffix_append _ _)

/-- A node that lies over more than before, with more before its children. -/
theorem Node.Over.extend {s : Span} (h : (Node.inner s ns).Over us) (hs : Covers span (ts ++ us)) :
    (Node.inner span ns).Over (ts ++ us) := by
  cases h with
  | inner hs' hc he =>
    exact .inner hs (hc.after ts) fun m hm =>
      (he m hm).trans (hs'.stop_eq hs (List.suffix_append _ _))

theorem Node.Over.lieOver {s : Span} (h : (Node.inner s ns).Over ts) : LieOver ns ts := by
  cases h with
  | inner hs hc he => exact hc

/-- A node over what its only child lies over. -/
theorem Node.Over.around (hs : Covers span ts) (hn : n.Over ts) : (Node.inner span [n]).Over ts :=
  Node.Over.ending (show Covers span ([] ++ ts) from hs) (.nil []) hn

/-- The span is that of the first stretches, and the nodes lie over the stretches. -/
structure Opening (first : Span) (ns : List Node) (ts : List Stretch) : Prop where
  starts : ∃ us, us <+: ts ∧ Covers first us
  lies : LieOver ns ts

theorem Covers.opening (h : Covers span ts) : Opening span [] ts :=
  ⟨⟨ts, List.prefix_refl ts, h⟩, .nil ts⟩

theorem Node.Over.opening (h : n.Over ts) : Opening n.span [n] ts :=
  ⟨⟨ts, List.prefix_refl ts, h.covers⟩, h.alone⟩

theorem Opening.append (h : Opening span ns ts) (hm : LieOver ms us) :
    Opening span (ns ++ ms) (ts ++ us) := by
  obtain ⟨⟨vs, hvs, hcovers⟩, hl⟩ := h
  exact ⟨⟨vs, hvs.trans (List.prefix_append _ _), hcovers⟩, hl.append hm⟩

theorem Opening.skip (h : Opening span ns ts) (us : List Stretch) : Opening span ns (ts ++ us) := by
  have happend := h.append (.nil us)
  rwa [List.append_nil] at happend

/-- From its opening on, a node is filled by one more child that ends where its span ends. -/
theorem Opening.close {last : Span} (h : Opening span ns ts) (hn : n.Over us)
    (hts : InOrder (ts ++ us)) (hl : Covers last vs) (hv : vs <:+ us) :
    (Node.inner (span.cover last) (ns ++ [n])).Over (ts ++ us) := by
  obtain ⟨ws, hws, hcovers⟩ := h.starts
  exact .ending (hcovers.cover hl hts (hws.trans (List.prefix_append _ _))
    (hv.trans (List.suffix_append _ _))) h.lies hn

theorem LieOver.exists_over (h : LieOver ns ts) (hn : n ∈ ns) :
    ∃ us, us.Sublist ts ∧ n.Over us := by
  induction ns generalizing ts with
  | nil => cases hn
  | cons m ms ih =>
    cases h with
    | @cons _ _ front us vs h hs =>
      obtain rfl | hn := List.mem_cons.mp hn
      · exact ⟨us, (List.sublist_append_left _ _).trans (List.sublist_append_right _ _), h⟩
      · obtain ⟨ws, hws, hover⟩ := ih hs hn
        exact ⟨ws, hws.trans ((List.sublist_append_right _ _).trans
          (List.sublist_append_right _ _)), hover⟩

/-- Nodes that were read one after the other do not overlap. -/
theorem LieOver.pairwise (h : LieOver ns ts) (hts : InOrder ts) :
    ns.Pairwise fun m n => m.span.stop ≤ n.span.start := by
  induction ns generalizing ts with
  | nil => exact .nil
  | cons m ms ih =>
    cases h with
    | @cons _ _ front us vs h hs =>
      refine List.pairwise_cons.mpr ⟨fun n hn => ?_, ih hs hts.right.right⟩
      obtain ⟨ws, hws, hover⟩ := hs.exists_over hn
      exact h.covers.apart hover.covers (hts.right.sublist ((List.Sublist.refl us).append hws))

end

/-! Nodes of a text. -/

/-- The span of the node holds something of the text, and the spans of its children lie in it in
order, the last one up to its end. -/
structure Node.Nested (text : List Char) (n : Node) : Prop where
  nonneg : 0 ≤ n.span.start
  filled : n.span.start < n.span.stop
  le : n.span.stop ≤ text.length
  within : ∀ m ∈ n.children, n.span.start ≤ m.span.start ∧ m.span.stop ≤ n.span.stop
  apart : n.children.Pairwise fun m m' => m.span.stop ≤ m'.span.start
  ends : ∀ m ∈ n.children.getLast?, m.span.stop = n.span.stop

/-- The ends of the node stand in the text, and the text holds an expression or a literal between
them. -/
structure Node.Faithful (text : List Char) (n : Node) : Prop where
  start : Stands text n.span.start n.span.line n.span.column
  stop : Stands text n.span.stop n.span.endLine n.span.endColumn
  expression : ∀ e, n = .expression e → e.text = slice text e.span.start e.span.stop
  literal : ∀ l, n = .literal l → l.raw = slice text l.span.start l.span.stop ∧ l.Resolves

section

variable {n : Node} {ns : List Node} {ts : List Stretch} {text : List Char}

theorem Node.Over.nested (h : n.Over ts) (hts : InOrder ts) (ht : ∀ t ∈ ts, t.LiesIn text) :
    n.Nested text := by
  have hcovers := h.covers
  have hfilled := hcovers.start_lt hts
  obtain ⟨t, u, hhead, hlast, hspan⟩ := h.covers
  have hfirst := (ht t (List.mem_of_head? hhead)).place.start.nonneg
  have hend := (ht u (List.mem_of_getLast? hlast)).place.stop.le
  have hbounds : 0 ≤ n.span.start ∧ n.span.stop ≤ text.length := by
    rw [hspan]
    exact ⟨hfirst, hend⟩
  cases h with
  | expression hs => exact ⟨hbounds.1, hfilled, hbounds.2, nofun, .nil, nofun⟩
  | literal hl hs => exact ⟨hbounds.1, hfilled, hbounds.2, nofun, .nil, nofun⟩
  | inner hs hc he =>
    refine ⟨hbounds.1, hfilled, hbounds.2, fun m hm => ?_, hc.pairwise hts, he⟩
    obtain ⟨us, hus, hover⟩ := hc.exists_over hm
    exact hover.covers.within hs hts hus

theorem Node.Over.faithful (h : n.Over ts) (ht : ∀ t ∈ ts, t.LiesIn text) : n.Faithful text := by
  obtain ⟨t, u, hhead, hlast, hspan⟩ := h.covers
  have hfirst := (ht t (List.mem_of_head? hhead)).place.start
  have hend := (ht u (List.mem_of_getLast? hlast)).place.stop
  have hstart : Stands text n.span.start n.span.line n.span.column := by
    rw [hspan]
    exact hfirst
  have hstop : Stands text n.span.stop n.span.endLine n.span.endColumn := by
    rw [hspan]
    exact hend
  refine ⟨hstart, hstop, ?_, ?_⟩
  · rintro e rfl
    cases h with
    | expression hs =>
      rw [hs]
      exact (ht _ List.mem_cons_self).slice
  · rintro l rfl
    cases h with
    | literal hl hs =>
      refine ⟨?_, hl⟩
      rw [hs]
      exact (ht _ List.mem_cons_self).slice

mutual

/-- What holds of every node over stretches of the text holds of all nodes within one. -/
theorem Node.Over.forall_all {P : Node → Prop} (hP : ∀ n us, us.Sublist ts → n.Over us → P n) :
    ∀ n us, us.Sublist ts → n.Over us → ∀ m ∈ Node.all n, P m
  | .expression e, us, hus, h, m, hm => by
    rw [Node.all, List.mem_singleton] at hm
    rw [hm]
    exact hP _ us hus h
  | .literal l, us, hus, h, m, hm => by
    rw [Node.all, List.mem_singleton] at hm
    rw [hm]
    exact hP _ us hus h
  | .inner span children, us, hus, h, m, hm => by
    rw [Node.all] at hm
    obtain rfl | hm := List.mem_cons.mp hm
    · exact hP _ us hus h
    · cases h with
      | inner hs hc he => exact LieOver.forall_all hP children us hus hc m hm

theorem LieOver.forall_all {P : Node → Prop} (hP : ∀ n us, us.Sublist ts → n.Over us → P n) :
    ∀ ns us, us.Sublist ts → LieOver ns us → ∀ m ∈ allNodes ns, P m
  | [], us, hus, h, m, hm => by
    rw [allNodes] at hm
    cases hm
  | n :: ns, us, hus, h, m, hm => by
    rw [allNodes] at hm
    cases h with
    | @cons _ _ front vs ws h hs =>
      have hvs : (vs ++ ws).Sublist ts := (List.sublist_append_right _ _).trans hus
      obtain hm | hm := List.mem_append.mp hm
      · exact Node.Over.forall_all hP n vs ((List.sublist_append_left _ _).trans hvs) h m hm
      · exact LieOver.forall_all hP ns ws ((List.sublist_append_right _ _).trans hvs) hs m hm

end

/-- A node over stretches that stand in the text in order, and every node within it, is nested and
faithful. -/
theorem Node.Over.all_nested (h : n.Over ts) (hts : InOrder ts) (ht : ∀ t ∈ ts, t.LiesIn text) :
    ∀ m ∈ n.all, m.Nested text ∧ m.Faithful text :=
  Node.Over.forall_all (P := fun m => m.Nested text ∧ m.Faithful text)
    (fun _ _ hus hover =>
      ⟨hover.nested (hts.sublist hus) fun t hmem => ht t (hus.subset hmem),
        hover.faithful fun t hmem => ht t (hus.subset hmem)⟩) n ts (List.Sublist.refl ts) h

end

end NovelScript
