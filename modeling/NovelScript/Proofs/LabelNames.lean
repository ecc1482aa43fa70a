import NovelScript.Proofs.Faithful
import NovelScript.Proofs.LineHeads
import NovelScript.Proofs.Owned

/-!
# How the label names of a script are written

A label name lies over what the text holds for it: a name, a dot and a name, or two names with a dot
between them. The dot follows the first name directly, but blanks may stand behind it. Apart from
these blanks the text is the label name as it is written.
-/

namespace NovelScript

open Line Text

/-! The label names of a script. -/

def Action.labelNames : Action → List LabelName
  | jump target => [target]
  | call target site => target :: site.toList
  | _ => []

/-- The label names in the head of a statement. -/
def Statement.labelNames : Statement → List LabelName
  | simple action _ => action.labelNames
  | label name _ _ => [name]
  | menu name _ _ _ => name.toList
  | _ => []

/-- The label names of all statements, in the order of the source. -/
def SourceFile.labelNames (f : SourceFile) : List LabelName := f.walk.flatMap Statement.labelNames

def HeadLine.labelNames : HeadLine → List LabelName
  | action a => a.labelNames
  | label name => [name]
  | menu name => name.toList
  | _ => []

/-- The label names on lines. -/
def lineNames (heads : List HeadLine) : List LabelName := heads.flatMap HeadLine.labelNames

section

variable {head : HeadLine} {heads : List HeadLine}

@[simp] theorem lineNames_nil : lineNames [] = [] := rfl

@[simp] theorem lineNames_cons : lineNames (head :: heads) = head.labelNames ++ lineNames heads :=
  List.flatMap_cons

@[simp] theorem lineNames_append (heads heads' : List HeadLine) :
    lineNames (heads ++ heads') = lineNames heads ++ lineNames heads' := List.flatMap_append

theorem lineNames_elifs (es : List ElifClause) : lineNames (elifHeadLines es) =
    lineNames (headLinesAll (es.flatMap fun e => e.body.statements)) := by
  induction es with
  | nil => rw [elifHeadLines, List.flatMap_nil, headLinesAll]
  | cons e es ih =>
    obtain ⟨condition, ⟨ss, span⟩, _⟩ := e
    rw [elifHeadLines, Block.headLines, lineNames_cons, lineNames_append, ih, List.flatMap_cons,
      headLinesAll_append, lineNames_append]
    rfl

theorem lineNames_choices (cs : List Choice) : lineNames (choiceHeadLines cs) =
    lineNames (headLinesAll (cs.flatMap fun c => c.body.statements)) := by
  induction cs with
  | nil => rw [choiceHeadLines, List.flatMap_nil, headLinesAll]
  | cons c cs ih =>
    obtain ⟨text, condition, ⟨ss, span⟩, _⟩ := c
    rw [choiceHeadLines, Block.headLines, lineNames_cons, lineNames_append, ih, List.flatMap_cons,
      headLinesAll_append, lineNames_append]
    rfl

theorem Block.headLines_eq (b : Block) : b.headLines = headLinesAll b.statements := by
  cases b
  rw [Block.headLines]

/-- The label names of a statement are those in its head and those of what it owns. -/
theorem Statement.lineNames_headLines (s : Statement) :
    lineNames s.headLines = s.labelNames ++ lineNames (headLinesAll s.children) := by
  cases s with
  | simple action span =>
    rw [headLines, children_simple, headLinesAll]
    rfl
  | label name body span =>
    rw [headLines, children_label, Block.headLines_eq]
    rfl
  | loop condition body span =>
    rw [headLines, children_loop, Block.headLines_eq]
    rfl
  | branch condition body elifs otherwise span =>
    rw [children_branch, headLinesAll_append, headLinesAll_append, lineNames_append,
      lineNames_append, ← lineNames_elifs]
    cases otherwise with
    | none => simp [headLines, labelNames, HeadLine.labelNames, Block.headLines_eq, headLinesAll]
    | some block => simp [headLines, labelNames, HeadLine.labelNames, Block.headLines_eq]
  | menu name caption choices span =>
    rw [children_menu, headLinesAll_append, lineNames_append, ← lineNames_choices]
    cases caption <;>
      simp [headLines, labelNames, HeadLine.labelNames, Action.labelNames, headLinesAll,
        Say.statement]

theorem flatMap_labelNames (ss : List Statement) :
    (walkAll ss).flatMap Statement.labelNames = lineNames (headLinesAll ss) := by
  induction ss using forest_induction with
  | nil => rfl
  | cons s ss hs hss =>
    rw [walkAll_cons, List.flatMap_cons, List.flatMap_append, hs, hss, headLinesAll,
      lineNames_append, s.lineNames_headLines, List.append_assoc]

end

/-! The text of a label name. -/

namespace LabelName

/-- The text is that of the label name. Blanks may stand behind the dot. -/
inductive Spelt : LabelName → List Char → Prop
  | plain {name : List Char} {span : Span} (hn : IsName name) : Spelt ⟨.plain, name, span⟩ name
  | inner {b name : List Char} {span : Span} (hb : ∀ x ∈ b, isInline x) (hn : IsName name) :
    Spelt ⟨.inner, name, span⟩ ('.' :: (b ++ name))
  | within {scope b name : List Char} {span : Span} (hs : IsName scope)
    (hb : ∀ x ∈ b, isInline x) (hn : IsName name) :
    Spelt ⟨.within scope, name, span⟩ (scope ++ '.' :: (b ++ name))

variable {n : LabelName} {w : List Char} {ts us : List Stretch}

/-- A text that spells a label name is the label name as it is written, with blanks somewhere. -/
theorem Spelt.exists_blanks (h : n.Spelt w) : ∃ p b q, n.text = p ++ q ∧ w = p ++ (b ++ q) ∧
    (∀ x ∈ b, isInline x) ∧ ∀ x ∈ n.text, isInline x = false := by
  have hname : ∀ {m : List Char}, IsName m → ∀ x ∈ m, isInline x = false :=
    fun hm x hx => Reader.isInline_of_name (hm.all_char x hx)
  cases h with
  | plain hn => exact ⟨[], [], _, rfl, rfl, nofun, hname hn⟩
  | inner hb hn =>
    exact ⟨['.'], _, _, rfl, rfl, hb, List.forall_mem_cons.mpr ⟨by decide, hname hn⟩⟩
  | @within scope b name span hs hb hn =>
    refine ⟨scope ++ ['.'], b, name, ?_, ?_, hb, List.forall_mem_append.mpr
      ⟨hname hs, List.forall_mem_cons.mpr ⟨by decide, hname hn⟩⟩⟩
    · rw [List.append_assoc]
      rfl
    · rw [List.append_assoc]
      rfl

/-- The text is the label name as it is written unless it holds blanks. -/
theorem Spelt.eq_text_iff (h : n.Spelt w) : w = n.text ↔ ∀ x ∈ w, isInline x = false := by
  obtain ⟨p, b, q, ht, rfl, hb, hnot⟩ := h.exists_blanks
  refine ⟨fun he => he ▸ hnot, fun hw => ?_⟩
  have hnil : b = [] := List.eq_nil_iff_forall_not_mem.mpr fun x hx => by
    have hi := hb x hx
    rw [hw x (by simp [hx])] at hi
    cases hi
  rw [ht, hnil, List.nil_append]

/-- One of the stretches is the text of the label name. -/
def WrittenIn (n : LabelName) (ts : List Stretch) : Prop :=
  ∃ u ∈ ts, n.span = u.place.span ∧ n.Spelt u.text

theorem WrittenIn.mono (h : n.WrittenIn ts) (hs : ts ⊆ us) : n.WrittenIn us := by
  obtain ⟨u, hu, hn⟩ := h
  exact ⟨u, hs hu, hn⟩

end LabelName

namespace Line.Cursor

theorem took_skipBlanks (c : Cursor) : c.Took (c.rest.takeWhile isInline) c.skipBlanks :=
  ⟨rfl, rfl, rfl, by rw [rest_skipBlanks, List.takeWhile_append_dropWhile]⟩

end Line.Cursor

namespace Reader

variable {c d e : Cursor} {dot l : Lexeme}

/-- A dot, perhaps some blanks, and a name. -/
structure Dotted (c : Cursor) (b : List Char) (dot l : Lexeme) (e : Cursor) : Prop where
  blanks : ∀ x ∈ b, isInline x
  name : IsName l.value
  took : c.skipBlanks.Took ('.' :: (b ++ l.value)) e
  place : dot.place = c.skipBlanks.ahead 1
  ends : Ends l.span e
  later : c.skipBlanks.here ≤ l.span.start

theorem exists_dotted (hd : punct ['.'] c = .ok (some dot) d)
    (hl : Reader.name d = .ok (some l) e) : ∃ b, Dotted c b dot l e ∧ Ends dot.span d := by
  rw [punct_eq (List.cons_ne_nil _ _)] at hd
  split at hd
  · next hp =>
    obtain ⟨t, ht, -⟩ := startsWith_singleton.mp hp
    cases hd
    obtain ⟨hdot, -⟩ := Cursor.takes_take (w := ['.']) ht (.punct ['.'])
    obtain ⟨hn, hlast, -⟩ := takes_of_name hl
    have hblanks := Cursor.took_skipBlanks (c.skipBlanks.take 1 (.punct ['.'])).2
    have hstart : l.span.start = _ := hlast.first
    refine ⟨_, ⟨fun x => List.mem_takeWhile_imp, hn, hdot.took.trans (hblanks.trans hlast.took),
      rfl, (ends_of_name hl).1, ?_⟩, ends_take _ _ _⟩
    rw [hstart]
    simp only [Cursor.here, Cursor.skipBlanks, Cursor.take, List.length_singleton]
    omega
  · cases hd

/-- A name after a dot lies over the text from the dot on. -/
theorem Dotted.writtenIn {b : List Char} (h : Dotted c b dot l e) (hends : Ends dot.span d)
    (hd : d.Leads e) (hc : c.Leads e) : ∃ ts, c.Passes ts e ∧
      LabelName.WrittenIn ⟨.inner, l.value, dot.span.cover l.span⟩ ts := by
  have hstart : dot.span.start = c.skipBlanks.here := by
    rw [Lexeme.span, h.place]
    rfl
  have hspan := cover_of_took h.place hends h.ends hd (hstart ▸ h.later) hc.origin h.took.pos
  exact ⟨_, h.took.passes hc (List.cons_ne_nil _ _), _, List.mem_cons_self, hspan,
    .inner h.blanks h.name⟩

/-- A name after another name and a dot lies over the text from the first name on. -/
theorem Dotted.writtenIn_within {b : List Char} {first : Lexeme}
    (hfirst : Reader.name c.skipBlanks = .ok (some first) d) (hdot : d.skipBlanks = d)
    (h : Dotted d b dot l e) (hd : d.Leads e) (hc : c.Leads e) : ∃ ts, c.Passes ts e ∧
      LabelName.WrittenIn ⟨.within first.value, l.value, first.span.cover l.span⟩ ts := by
  obtain ⟨hw, htakes, -⟩ := takes_of_name hfirst
  obtain ⟨hends, k, hplace⟩ := ends_of_name hfirst
  rw [Cursor.skipBlanks_idem] at htakes hplace
  obtain ⟨hblanks, hn, htook, -, hlast, hlater⟩ := h
  rw [hdot] at htook hlater
  have hwhole := htakes.took.trans htook
  have hstart : first.span.start = c.skipBlanks.here := by
    rw [Lexeme.span, hplace]
    rfl
  have hle : c.skipBlanks.here ≤ d.here := by
    rw [Cursor.here, Cursor.here, htakes.took.start, htakes.took.pos]
    omega
  have hspan := cover_of_took hplace hends hlast hd (by omega) hc.origin hwhole.pos
  exact ⟨_, hwhole.passes hc (by simp), _, List.mem_cons_self, hspan, .within hw hblanks hn⟩

namespace Spells

theorem writtenName : Spells Reader.labelName fun n ts => n.WrittenIn ts := by
  intro c e n h
  have hleads := Composed.labelName.isLocal.leads_of_ok h
  cases labelName_eq_ok_iff.mp h with
  | inner hdot hn =>
    obtain ⟨b, hd, hends⟩ := exists_dotted hdot hn
    exact hd.writtenIn hends (Local.name.leads_of_ok hn) hleads
  | within hno hfirst hc hdot hn =>
    obtain ⟨dot, ts, rfl, -⟩ := dot hc hdot
    obtain ⟨b, hd, -⟩ := exists_dotted hdot hn
    have hlast := ((Composed.punct rfl).isLocal.leads_of_ok hdot).trans (Local.name.leads_of_ok hn)
    exact hd.writtenIn_within hfirst (Cursor.skipBlanks_eq_self hc (by decide)) hlast hleads
  | plain hno hn hc =>
    obtain ⟨ts, hts, rfl⟩ := name _ _ _ hn
    exact ⟨_, c.passes_skipBlanks.trans hts, _, List.mem_cons_self, rfl, .plain (takes_of_name hn).1⟩

/-- The label names are written in the stretches. -/
def NamesIn (ns : List LabelName) (ts : List Stretch) : Prop := ∀ n ∈ ns, n.WrittenIn ts

theorem NamesIn.mono {ns : List LabelName} {ts us : List Stretch} (h : NamesIn ns ts)
    (hs : ts ⊆ us) : NamesIn ns us :=
  fun n hn => (h n hn).mono hs

theorem namesIn_nil (ts : List Stretch) : NamesIn [] ts := nofun

/-- A label name that may be left out is there. -/
theorem writtenName? : Spells (some <$> Reader.labelName) fun o ts => NamesIn o.toList ts :=
  map (writtenName.imp fun _ _ hn => List.forall_mem_singleton.mpr hn)

theorem namesOfKeyword (keyword : Span) (kind : StatementKind) :
    Spells (Reader.afterKeyword keyword kind) fun h ts => NamesIn h.headLine.labelNames ts := by
  cases kind with
  | say =>
    intro c d h hr
    simp [Reader.afterKeyword, refuse, run_bind, atEnd_eq] at hr
  | label =>
    refine bind writtenName fun n ts hn => bind (opensBlock _) fun _ us _ => pure ?_
    exact List.forall_mem_singleton.mpr (hn.mono (List.subset_append_left _ _))
  | branch | loop => exact bind condition fun _ _ _ => pure (namesIn_nil _)
  | menu =>
    refine after (peekPunct (by simp)) fun bare => ?_
    have hline : ∀ o ts, NamesIn (Option.toList o) ts →
        Spells (Reader.opensBlock "menu statement" >>= fun _ => Pure.pure (Head.menu o keyword))
          fun h us => NamesIn h.headLine.labelNames (ts ++ us) :=
      fun o ts ho => bind (opensBlock _) fun _ us _ => pure (ho.mono (List.subset_append_left _ _))
    cases bare with
    | true => exact bind (pure (namesIn_nil _)) hline
    | false => exact bind writtenName? hline
  | jump =>
    refine bind writtenName fun n ts hn => ended ?_
    exact List.forall_mem_singleton.mpr (hn.mono (List.subset_append_left _ _))
  | call =>
    refine bind writtenName fun n ts hn => bind (Spells.keyword _) fun l us _ => ?_
    have hline : ∀ o vs, NamesIn (Option.toList o) vs →
        Spells (Reader.endOfLine "call statement" >>= fun _ => Pure.pure (Head.simple
            (.call n o) (extent keyword [some n.span, o.map fun x => x.span])))
          fun h ws => NamesIn h.headLine.labelNames (ts ++ (us ++ (vs ++ ws))) := by
      refine fun o vs ho => ended (List.forall_mem_cons.mpr ⟨?_, ?_⟩)
      · exact hn.mono (List.subset_append_left _ _)
      · exact NamesIn.mono ho (by simp)
    cases l with
    | none => exact bind (pure (namesIn_nil _)) hline
    | some l => exact bind writtenName? hline
  | leave => exact bind code? fun _ _ _ => ended (namesIn_nil _)
  | pass => exact ended (namesIn_nil _)
  | showImage | hideImage =>
    exact bind imageSpec fun _ _ _ => bind transition? fun _ _ _ => ended (namesIn_nil _)
  | scene => exact bind sceneImage? fun _ _ _ => bind transition? fun _ _ _ => ended (namesIn_nil _)
  | transition => exact bind simpleExpression fun _ _ _ => ended (namesIn_nil _)
  | define | default =>
    exact bind dottedName fun _ _ _ => bind assigned fun _ _ _ => pure (namesIn_nil _)
  | image =>
    exact bind (expectName _) fun _ _ _ => bind (many name) fun _ _ _ =>
      bind assigned fun _ _ _ => pure (namesIn_nil _)

theorem namesOfHead :
    Spells Reader.head fun h ts => NamesIn h.headLine.labelNames ts := by
  refine bind say? fun line ts _ => ?_
  cases line with
  | some line => exact ended (namesIn_nil _)
  | none =>
    refine after peekName fun next => ?_
    split
    · intro c d h hr
      simp [refuse, run_bind, atEnd_eq] at hr
    · next kind _ =>
      refine bind (expectKeyword _) fun k us _ => (namesOfKeyword _ kind).imp fun h vs hvs => ?_
      exact hvs.mono (by simp)

end Spells

end Reader

/-- The label names of a line are written on it. -/
theorem LayoutToken.ReadsLine.exists_holds {t : LayoutToken} {head : HeadLine}
    (h : t.ReadsLine head) : ∃ ts, t.Holds ts ∧ Reader.Spells.NamesIn head.labelNames ts := by
  cases h with
  | head hr => exact hr.holds .namesOfHead .head
  | elif hr =>
    obtain ⟨ts, hts, -⟩ := hr.holds .elifHead .elifHead
    exact ⟨ts, hts, Reader.Spells.namesIn_nil ts⟩
  | otherwise hr =>
    obtain ⟨ts, hts, -⟩ := hr.holds .elseHead .elseHead
    exact ⟨ts, hts, Reader.Spells.namesIn_nil ts⟩
  | caption hr =>
    obtain ⟨ts, hts, -⟩ := hr.holds .captionHead .captionHead
    exact ⟨ts, hts, Reader.Spells.namesIn_nil ts⟩
  | choice hr =>
    obtain ⟨ts, hts, -⟩ := hr.holds .choiceHead .choiceHead
    exact ⟨ts, hts, Reader.Spells.namesIn_nil ts⟩

namespace Script

variable {rules : LayoutRules} {text : List Char} {file : Option Path} {f : SourceFile}

/-- A label name is what the text holds over its span, apart from blanks behind the dot. So both are
equal if and only if no blanks stand there. -/
theorem spelt_of_parse (h : parse rules text file = .ok f) : ∀ n ∈ f.labelNames,
    n.Spelt (slice text n.span.start n.span.stop) ∧
      (slice text n.span.start n.span.stop = n.text ↔
        ∀ x ∈ slice text n.span.start n.span.stop, isInline x = false) := by
  intro n hn
  rw [SourceFile.labelNames, SourceFile.walk, flatMap_labelNames, lineNames, List.mem_flatMap] at hn
  obtain ⟨head, hhead, hn⟩ := hn
  obtain ⟨l, hl, hline⟩ := exists_line_of_mem_headLines h hhead
  obtain ⟨ts, hts, hnames⟩ := hline.exists_holds
  obtain ⟨u, hu, hspan, hspelt⟩ := hnames n hn
  have hslice : u.text = slice text n.span.start n.span.stop := by
    rw [hspan]
    exact (ContentLine.liesIn_of_holds hl hts u hu).slice
  rw [hslice] at hspelt
  exact ⟨hspelt, hspelt.eq_text_iff⟩

/-- A label within another one, and a jump to it with a blank behind the dot. -/
def spacedJump : List Char := "label a.b:\n    jump a. b\n".toList

theorem spelt_of_parse_spacedJump : ∃ f, parse {} spacedJump = .ok f ∧
    f.labelNames.map (fun n => slice spacedJump n.span.start n.span.stop) =
      ["a.b".toList, "a. b".toList] ∧
    ∀ n ∈ f.labelNames, n.Spelt (slice spacedJump n.span.start n.span.stop) := by
  obtain ⟨f, hf⟩ := exists_of_toBool (x := parse {} spacedJump) (by cbv)
  have hslices : (parse {} spacedJump).toOption.map (fun f =>
      f.labelNames.map fun n => slice spacedJump n.span.start n.span.stop) =
        some ["a.b".toList, "a. b".toList] := by cbv
  rw [hf] at hslices
  exact ⟨f, hf, Option.some.inj hslices, fun n hn => (spelt_of_parse hf n hn).1⟩

end Script

end NovelScript
