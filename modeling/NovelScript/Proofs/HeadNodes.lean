import NovelScript.Proofs.Extents

/-!
# Heads over their stretches

The line of a statement, of a clause, of a caption or of a choice is its tokens and nothing else but
blanks and a comment. The nodes of the line lie over these tokens. A line that opens a block leaves
its node open: the keyword starts it, and the block is still to come.
-/

namespace NovelScript

open Line Text

/-- The nodes lie over the stretches, and the last node ends with the last stretch. -/
inductive Fills : List Node → List Stretch → Prop
  | nil : Fills [] []
  | snoc {ns : List Node} {n : Node} {ts us : List Stretch} (h : LieOver ns ts) (hn : n.Over us) :
    Fills (ns ++ [n]) (ts ++ us)

section

variable {n : Node} {ms ns : List Node} {ts us : List Stretch} {vs ws : List (List Char)}

theorem Fills.lieOver (h : Fills ns ts) : LieOver ns ts := by
  cases h with
  | nil => exact .nil []
  | snoc h hn => exact h.append hn.alone

theorem Fills.append (hm : Fills ms ts) (hn : Fills ns us) : Fills (ms ++ ns) (ts ++ us) := by
  cases hn with
  | nil =>
    rw [List.append_nil, List.append_nil]
    exact hm
  | snoc h hn =>
    rw [← List.append_assoc, ← List.append_assoc]
    exact .snoc (hm.lieOver.append h) hn

/-- A node goes from its keyword to the last of its children, if it has any. -/
theorem Fills.over {k : Lexeme} (h : Fills ns ts) (hts : InOrder (k.stretch :: ts)) :
    (Node.inner (k.span.cover ((ns.map Node.span).getLastD k.span)) ns).Over (k.stretch :: ts) := by
  cases h with
  | nil =>
    rw [List.map_nil, List.getLastD_nil, Span.cover_self]
    exact .bare k.covers
  | @snoc ns n ts us h hn =>
    rw [List.map_append, List.map_singleton, List.getLastD_concat]
    have hopening : Opening k.span ns (k.stretch :: ts) := k.covers.opening.append h
    exact hopening.close hn hts hn.covers (List.suffix_refl us)

/-- The stretches are the words, and the nodes fill them. -/
structure Tells (ws : List (List Char)) (ns : List Node) (ts : List Stretch) : Prop where
  texts : ts.map Stretch.text = ws
  fills : Fills ns ts

theorem Tells.append (h : Tells vs ms ts) (h' : Tells ws ns us) :
    Tells (vs ++ ws) (ms ++ ns) (ts ++ us) :=
  ⟨by rw [List.map_append, h.texts, h'.texts], h.fills.append h'.fills⟩

/-- Words that are no nodes may stand before the nodes. -/
theorem Tells.led (h : Tells ws ns us) (ts : List Stretch) (hne : ns ≠ []) :
    Tells (ts.map Stretch.text ++ ws) ns (ts ++ us) := by
  refine ⟨by rw [List.map_append, h.texts], ?_⟩
  obtain ⟨-, hf⟩ := h
  cases hf with
  | nil => exact absurd rfl hne
  | @snoc ns n us vs hl hn =>
    rw [← List.append_assoc]
    exact .snoc (hl.after ts) hn

theorem Tells.worded {l : Lexeme} {w : List Char} (h : Tells ws ns us) (hv : l.value = w)
    (hne : ns ≠ []) : Tells (w :: ws) ns (l.stretch :: us) :=
  hv ▸ h.led [l.stretch] hne

theorem Makes.tells (h : Makes ws n us) : Tells ws [n] us := ⟨h.texts, .snoc (.nil []) h.lies⟩

end

/-- The line that a head is read from. -/
def Head.headLine : Head → HeadLine
  | simple action _ => .action action
  | label name _ => .label name
  | branch condition _ => .branch condition
  | loop condition _ => .loop condition
  | menu name _ => .menu name

/-- The nodes of the line lie over the stretches, and a block may follow. -/
def Head.LiesOver : Head → List Stretch → Prop
  | simple action span, ts => (Node.inner span action.parts).Over ts
  | label name keyword, ts => Opening keyword [name.node] ts
  | branch condition keyword, ts | loop condition keyword, ts =>
    Opening keyword [condition.node] ts
  | menu name keyword, ts => Opening keyword (name.map LabelName.node).toList ts

/-- The stretches are the line of the head. -/
structure Head.MadeOf (h : Head) (ts : List Stretch) : Prop where
  texts : ts.map Stretch.text = h.headLine.tokens
  lies : h.LiesOver ts

/-- The line of an action is its keyword and what the action says. -/
theorem Tells.madeOf {a : Action} {k : Lexeme} {span : Span} {ws : List (List Char)}
    {us : List Stretch} (h : Tells ws a.parts us) (ha : a.tokens = k.value :: ws)
    (hs : span = k.span.cover ((a.parts.map Node.span).getLastD k.span))
    (hts : InOrder (k.stretch :: us)) : (Head.simple a span).MadeOf (k.stretch :: us) where
  texts := by
    rw [List.map_cons, h.texts]
    exact ha.symm
  lies := by
    rw [hs]
    exact h.fills.over hts

namespace Reader

variable {α β : Type} {r : Reader α} {P : α → List Stretch → Prop}

namespace Spells

variable {what construct : String} {k : Lexeme}

/-- Nothing is passed at the end of a line. -/
theorem ended {a : α} (h : P a []) :
    Spells (Reader.endOfLine construct >>= fun _ => Pure.pure a) P :=
  after (endOfLine construct) fun _ => pure h

theorem transition? : Spells Reader.transition? fun o ts =>
    Tells (transitionWords o) (o.map Expression.node).toList ts := by
  refine bind (keyword _) fun l ts hl => ?_
  cases l with
  | none =>
    obtain rfl : ts = [] := hl
    exact pure ⟨rfl, .nil⟩
  | some l =>
    obtain ⟨rfl, hv⟩ := hl
    exact map (simpleExpression.imp fun e us he => he.tells.worded hv (by simp))

/-- A part that may be left out is there. -/
theorem optional {r : Reader β} {tokens : β → List (List Char)} {node : β → Node}
    (h : Spells r fun b ts => Makes (tokens b) (node b) ts) :
    Spells (some <$> r) fun o ts => Tells ((o.map tokens).getD []) (o.map node).toList ts :=
  map (h.imp fun _ _ hb => hb.tells)

theorem sceneImage? : Spells Reader.sceneImage? fun o ts =>
    Tells ((o.map ImageSpec.tokens).getD []) (o.map ImageSpec.node).toList ts := by
  refine after atEnd fun ended => after peekName fun next => ?_
  split
  · exact pure ⟨rfl, .nil⟩
  · exact optional imageSpec

theorem assigned : Spells (Reader.assigned construct) fun e ts => Tells [['='], e.text] [e.node] ts := by
  refine bind (expectPunct rfl) fun l ts ⟨hts, hv⟩ => bind code fun e us he => ended ?_
  obtain rfl : ts = [l.stretch] := hts
  rw [List.append_nil]
  exact he.tells.worded hv (by simp)

/-- A condition is followed by a colon. -/
theorem condition : Spells (Reader.condition construct) fun e ts =>
    ts.map Stretch.text = [e.text, [':']] ∧ LieOver [e.node] ts := by
  refine bind code fun e ts he => bind (opensBlock construct) fun _ us ⟨l, hv, hl⟩ => pure ?_
  obtain rfl : us = [l.stretch] := hl
  rw [List.append_nil]
  refine ⟨?_, he.lies.alone.append (.nil _)⟩
  rw [List.map_append, he.texts, List.map_singleton, show l.stretch.text = _ from hv]
  rfl

/-- What stands before the colon of a line is followed by the colon. -/
theorem lieOver_colon {ns : List Node} {ws : List (List Char)} {ts us : List Stretch}
    (ht : ts.map Stretch.text = ws) (hl : LieOver ns ts)
    (hu : ∃ l : Lexeme, l.value = [':'] ∧ Single l us) :
    (ts ++ us).map Stretch.text = ws ++ [[':']] ∧ LieOver ns (ts ++ us) := by
  obtain ⟨l, hv, rfl⟩ := hu
  have happend := hl.append (.nil [l.stretch])
  rw [List.append_nil] at happend
  exact ⟨by rw [List.map_append, ht, List.map_singleton, show l.stretch.text = _ from hv], happend⟩

/-- The line of a head that opens a block is its keyword and what stands before the colon. -/
theorem madeOf_opening {h : Head} {ns : List Node} {us : List Stretch}
    (ht : k.value :: us.map Stretch.text = h.headLine.tokens)
    (hl : Opening k.span ns (k.stretch :: us) → h.LiesOver (k.stretch :: us))
    (hn : LieOver ns us) : h.MadeOf (k.stretch :: us) :=
  ⟨ht, hl (k.covers.opening.append hn)⟩

theorem menuLine (hk : k.value = StatementKind.menu.text.toList) {o : Option LabelName}
    {ts : List Stretch}
    (ho : Tells ((o.map LabelName.tokens).getD []) (o.map LabelName.node).toList ts) :
    Spells (Reader.opensBlock construct >>= fun _ => Pure.pure (Head.menu o k.span))
      fun h us => InOrder (k.stretch :: (ts ++ us)) → h.MadeOf (k.stretch :: (ts ++ us)) := by
  refine bind (opensBlock _) fun _ us hus => pure fun _ => ?_
  obtain ⟨htexts, hlie⟩ := lieOver_colon ho.texts ho.fills.lieOver hus
  rw [List.append_nil]
  exact madeOf_opening (by rw [htexts, hk]; rfl) id hlie

/-- A call may say where it comes from: `us` is the word for that, and `vs` the name after it. -/
theorem callLine (hk : k.value = StatementKind.call.text.toList) {n : LabelName}
    {o : Option LabelName} {ts us vs : List Stretch} (hn : Tells n.tokens [n.node] ts)
    (ho : Tells (siteTokens o) (o.map LabelName.node).toList (us ++ vs)) :
    Spells (Reader.endOfLine construct >>= fun _ => Pure.pure (Head.simple (.call n o)
        (extent k.span [some n.span, o.map fun x => x.span])))
      fun h ws => InOrder (k.stretch :: (ts ++ (us ++ (vs ++ ws)))) →
        h.MadeOf (k.stretch :: (ts ++ (us ++ (vs ++ ws)))) := by
  refine ended fun h => ?_
  rw [List.append_nil] at h ⊢
  exact (hn.append ho).madeOf (by rw [hk]; rfl) (by cases o <;> rfl) h

/-- What follows the keyword of a statement completes its line. -/
theorem afterKeyword (kind : StatementKind) (hk : k.value = kind.text.toList) :
    Spells (Reader.afterKeyword k.span kind) fun h us =>
      InOrder (k.stretch :: us) → h.MadeOf (k.stretch :: us) := by
  cases kind with
  | say =>
    intro c d h hr
    simp [Reader.afterKeyword, refuse, run_bind, atEnd_eq] at hr
  | label =>
    refine bind labelName fun n ts hn => bind (opensBlock _) fun _ us hus => pure fun _ => ?_
    obtain ⟨htexts, hlie⟩ := lieOver_colon hn.texts hn.lies.alone hus
    rw [List.append_nil]
    exact madeOf_opening (by rw [htexts, hk]; rfl) id hlie
  | branch | loop =>
    refine bind condition fun e ts he => pure fun _ => ?_
    obtain ⟨htexts, hlie⟩ := he
    rw [List.append_nil]
    exact madeOf_opening (by rw [htexts, hk]; rfl) id hlie
  | menu =>
    refine after (peekPunct (by simp)) fun bare => ?_
    cases bare with
    | true => exact bind (pure ⟨rfl, .nil⟩) fun o ts => menuLine hk
    | false => exact bind (optional labelName) fun o ts => menuLine hk
  | jump =>
    refine bind labelName fun n ts hn => ended fun h => ?_
    rw [List.append_nil] at h ⊢
    exact (hn.tells).madeOf (by rw [hk]; rfl) rfl h
  | call =>
    refine bind labelName fun n ts hn => bind (keyword _) fun l us hl => ?_
    cases l with
    | none =>
      obtain rfl : us = [] := hl
      exact bind (pure ⟨rfl, .nil⟩) fun o vs => callLine hk hn.tells
    | some l =>
      obtain ⟨rfl, hv⟩ := hl
      exact bind (map (labelName.imp fun n' vs hn' => hn'.tells.worded hv (by simp)))
        fun o vs => callLine hk hn.tells
  | leave =>
    refine bind code? fun o ts ho => ended fun h => ?_
    rw [List.append_nil] at h ⊢
    cases o with
    | none =>
      obtain rfl : ts = [] := ho
      exact Tells.madeOf ⟨rfl, .nil⟩ (by rw [hk]; rfl) rfl h
    | some e => exact (Makes.tells ho).madeOf (by rw [hk]; rfl) rfl h
  | pass =>
    refine ended fun h => ?_
    exact Tells.madeOf ⟨rfl, .nil⟩ (by rw [hk]; rfl) rfl h
  | showImage | hideImage =>
    refine bind imageSpec fun i ts hi => bind transition? fun o us ho => ended fun h => ?_
    rw [List.append_nil] at h ⊢
    exact ((hi.tells).append ho).madeOf (by rw [hk]; rfl) (by cases o <;> rfl) h
  | scene =>
    refine bind sceneImage? fun i ts hi => bind transition? fun o us ho => ended fun h => ?_
    rw [List.append_nil] at h ⊢
    exact (hi.append ho).madeOf (by rw [hk]; rfl) (by cases i <;> cases o <;> rfl) h
  | transition =>
    refine bind simpleExpression fun e ts he => ended fun h => ?_
    rw [List.append_nil] at h ⊢
    exact (he.tells).madeOf (by rw [hk]; rfl) rfl h
  | define | default =>
    refine bind dottedName fun x ts hx => bind assigned fun e us he => pure fun h => ?_
    obtain ⟨p, rfl⟩ := hx
    rw [List.append_nil] at h ⊢
    exact (he.led [_] (by simp)).madeOf (by rw [hk]; rfl) rfl h
  | image =>
    refine bind (expectName _) fun first ts hfirst => bind (many name) fun more us hmore => ?_
    refine bind assigned fun e vs he => pure fun h => ?_
    obtain rfl : ts = [first.stretch] := hfirst
    rw [each_single hmore, List.append_nil] at h ⊢
    refine Tells.madeOf (he.led ((first :: more).map Lexeme.stretch) (by simp)) ?_ rfl h
    rw [hk, texts_stretches]
    rfl

theorem head : Spells Reader.head Head.MadeOf := by
  refine bind say? fun line ts hline => ?_
  cases line with
  | some line =>
    refine ended ?_
    rw [List.append_nil]
    exact ⟨hline.texts, .around hline.lies.covers hline.lies⟩
  | none =>
    obtain rfl : ts = [] := hline
    refine after peekName fun next => ?_
    split
    · intro c d h hr
      simp [refuse, run_bind, atEnd_eq] at hr
    · next kind _ =>
      refine inOrder (bind (expectKeyword _) fun k ts hkeyword => ?_)
      obtain ⟨hts, hk⟩ := hkeyword
      obtain rfl : ts = [k.stretch] := hts
      exact afterKeyword kind hk

/-- The line of a further condition opens the node of its clause. -/
theorem elifHead : Spells Reader.elifHead fun x ts =>
    ts.map Stretch.text = (HeadLine.elif x.1).tokens ∧ Opening x.2 [x.1.node] ts := by
  refine bind (expectKeyword _) fun k ts ⟨hts, hk⟩ => ?_
  refine bind condition fun e us ⟨htexts, hlie⟩ => pure ?_
  obtain rfl : ts = [k.stretch] := hts
  rw [List.append_nil]
  refine ⟨?_, k.covers.opening.append hlie⟩
  rw [List.map_append, htexts, List.map_singleton, show k.stretch.text = _ from hk]
  rfl

theorem elseHead : Spells Reader.elseHead fun _ ts =>
    ts.map Stretch.text = HeadLine.otherwise.tokens := by
  refine bind (expectKeyword _) fun k ts ⟨hts, hk⟩ => ?_
  refine (opensBlock _).imp fun _ us hus => ?_
  obtain rfl : ts = [k.stretch] := hts
  have hlie : LieOver [] [k.stretch] := .nil _
  rw [(lieOver_colon rfl hlie hus).1, List.map_singleton, show k.stretch.text = _ from hk]
  rfl

theorem captionHead : Spells Reader.captionHead (Maybe fun s ts => Makes s.tokens s.content ts) := by
  refine bind say? fun line ts hline => ended ?_
  rw [List.append_nil]
  exact hline

/-- The line of a choice opens the node of the choice. -/
theorem choiceHead : Spells Reader.choiceHead fun x ts =>
    ts.map Stretch.text = (HeadLine.choice (literalOf x.1) x.2).tokens ∧
      Opening x.1.span ((literalOf x.1).node :: (x.2.map Expression.node).toList) ts := by
  refine bind (required string) fun l ts hl => bind (keyword _) fun k us hk => ?_
  have hline : ∀ o vs, Tells (HeadLine.conditionTokens o) (o.map Expression.node).toList (us ++ vs) →
      Spells (Reader.opensBlock "menu choice" >>= fun _ => Pure.pure (l, o)) fun x ws =>
        (ts ++ (us ++ (vs ++ ws))).map Stretch.text =
            (HeadLine.choice (literalOf x.1) x.2).tokens ∧
          Opening x.1.span ((literalOf x.1).node :: (x.2.map Expression.node).toList)
            (ts ++ (us ++ (vs ++ ws))) := by
    refine fun o vs ho => bind (opensBlock _) fun _ ws hws => pure ?_
    have hmakes := hl.makes
    obtain ⟨htexts, hlie⟩ := lieOver_colon ho.texts ho.fills.lieOver hws
    rw [List.append_nil, ← List.append_assoc us]
    refine ⟨?_, hmakes.lies.opening.append hlie⟩
    rw [List.map_append, hmakes.texts, htexts]
    rfl
  cases k with
  | none =>
    obtain rfl : us = [] := hk
    exact bind (pure ⟨rfl, .nil⟩) hline
  | some k =>
    obtain ⟨rfl, hv⟩ := hk
    exact bind (map (code.imp fun e vs he => he.tells.worded hv (by simp))) hline

end Spells

/-! The ends of lines. -/

/-- The reader reads its line to the end: what is left of it is blank or a comment. -/
def Finishes (r : Reader α) : Prop := ∀ c d a, r c = .ok a d → isOver d.rest

namespace Finishes

theorem endOfLine (construct : String) : Finishes (Reader.endOfLine construct) := by
  intro c d u h
  have hover := endOfLine_eq_ok h
  obtain ⟨ended, e, he, h⟩ := run_bind_eq_ok.mp h
  rw [atEnd_eq_isOver, hover] at he
  cases he
  cases h
  rw [Cursor.rest_skipBlanks]
  exact isOver_dropWhile hover

theorem bind {f : α → Reader β} (h : ∀ a, Finishes (f a)) : Finishes (r >>= f) := by
  intro c d b hb
  obtain ⟨a, e, -, he⟩ := run_bind_eq_ok.mp hb
  exact h a e d b he

theorem pure {f : α → β} (h : Finishes r) : Finishes (r >>= fun a => Pure.pure (f a)) := by
  intro c d b hb
  obtain ⟨a, e, ha, he⟩ := run_bind_eq_ok.mp hb
  cases he
  exact h c d a ha

theorem refuse (what : String) : Finishes (Reader.refuse what : Reader α) := by
  intro c d a h
  simp [Reader.refuse, run_bind, atEnd_eq] at h

theorem opensBlock (construct : String) : Finishes (Reader.opensBlock construct) :=
  bind fun _ => endOfLine construct

theorem condition (construct : String) : Finishes (Reader.condition construct) :=
  bind fun _ => pure (opensBlock construct)

theorem assigned (construct : String) : Finishes (Reader.assigned construct) :=
  bind fun _ => bind fun _ => pure (endOfLine construct)

theorem afterKeyword (keyword : Span) (kind : StatementKind) :
    Finishes (Reader.afterKeyword keyword kind) := by
  cases kind with
  | say => exact refuse _
  | label => exact bind fun _ => pure (opensBlock _)
  | branch | loop => exact pure (condition _)
  | menu =>
    refine bind fun bare => ?_
    cases bare <;> exact bind fun _ => pure (opensBlock _)
  | jump | transition | leave => exact bind fun _ => pure (endOfLine _)
  | call =>
    refine bind fun _ => bind fun site => ?_
    cases site <;> exact bind fun _ => pure (endOfLine _)
  | pass => exact pure (endOfLine _)
  | showImage | hideImage | scene => exact bind fun _ => bind fun _ => pure (endOfLine _)
  | define | default => exact bind fun _ => pure (assigned _)
  | image => exact bind fun _ => bind fun _ => pure (assigned _)

theorem keyedHead : Finishes Reader.keyedHead := by
  refine bind fun next => ?_
  split
  · exact refuse _
  · exact bind fun _ => afterKeyword _ _

theorem head : Finishes Reader.head := by
  refine bind fun line => ?_
  cases line with
  | some line => exact pure (endOfLine _)
  | none => exact keyedHead

theorem elifHead : Finishes Reader.elifHead := bind fun _ => pure (condition _)

theorem elseHead : Finishes Reader.elseHead := bind fun _ => opensBlock _

theorem captionHead : Finishes Reader.captionHead := bind fun _ => pure (endOfLine _)

theorem choiceHead : Finishes Reader.choiceHead := by
  refine bind fun _ => bind fun condition => ?_
  cases condition <;> exact bind fun _ => pure (opensBlock _)

end Finishes

end Reader

/-! Lines of a layout. -/

/-- The stretches that a run carries are spread over its text. -/
theorem Carries.spread {content : List Char} {origin : Place} {i j : Nat} {ts : List Stretch}
    (h : Carries content origin i ts j) :
    Spread (ts.map Stretch.text) (content.drop i) (content.drop j) := by
  induction h with
  | done i => exact .nil (b := []) _ nofun
  | blanks hb hc h ih =>
    obtain ⟨rest, hrest⟩ := hc
    rw [← List.drop_drop, ← hrest, List.drop_left] at ih
    rw [← hrest]
    exact ih.blanks hb
  | word hw hc h ih =>
    obtain ⟨rest, hrest⟩ := hc
    rw [← List.drop_drop, ← hrest, List.drop_left] at ih
    rw [← hrest]
    exact .cons (b := []) nofun ih

/-- The line in the token is the stretches, and then nothing but blanks and a comment. -/
def LayoutToken.Holds (t : LayoutToken) (ts : List Stretch) : Prop :=
  ∃ content j, t.mark = .text content ∧ Carries content t.place.opening 0 ts j ∧
    isOver (content.drop j)

theorem LayoutToken.Reads.holds {α : Type} {r : Reader α} {P : α → List Stretch → Prop}
    {t : LayoutToken} {x : α} (h : t.Reads r x) (hs : Reader.Spells r P) (hf : Reader.Finishes r) :
    ∃ ts, t.Holds ts ∧ P x ts := by
  obtain ⟨content, d, hm, hr⟩ := h
  obtain ⟨ts, hts, hp⟩ := hs _ _ _ hr
  have hover := hf _ _ _ hr
  rw [Cursor.rest, hts.content] at hover
  exact ⟨ts, ⟨content, d.pos, hm, hts.carries, hover⟩, hp⟩

end NovelScript
