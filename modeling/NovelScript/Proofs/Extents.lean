import NovelScript.Proofs.Nodes
import NovelScript.Proofs.Wording

/-!
# Extents of the parts of a line

What is read of a line lies over the stretches it was read from, and these stretches are its tokens.
An expression or a literal is a single stretch. A part with several tokens has a span that covers
them, because the stretches of a line are in order.
-/

namespace NovelScript

open Line Text

/-- The stretches are the tokens, and the node lies over them. -/
structure Makes (tokens : List (List Char)) (node : Node) (ts : List Stretch) : Prop where
  texts : ts.map Stretch.text = tokens
  lies : node.Over ts

theorem Lexeme.covers (l : Lexeme) : Covers l.span [l.stretch] := covers_singleton l.stretch

theorem Covers.join {a b : Span} {us vs : List Stretch} (ha : Covers a us) (hb : Covers b vs)
    (h : InOrder (us ++ vs)) : Covers (a.cover b) (us ++ vs) :=
  ha.cover hb h (List.prefix_append _ _) (List.suffix_append _ _)

namespace Line.Literal

variable {q : Char} {cs v : List Char} {n : Nat}

theorem resolve_eq (cs : List Char) : resolve cs = (letters cs).map Letter.value := by
  fun_induction letters cs with
  | case1 | case2 => rfl
  | case3 e rest ih => rw [resolve, if_pos rfl, ih, List.map_cons, Letter.value]
  | case4 c e rest hc ih => rw [resolve, if_neg hc, ih, List.map_cons, Letter.value]

/-- What is read of a literal is its body, resolved, and the closing mark. -/
theorem resolve_of_body? (h : body? q cs = some (v, n)) :
    ∃ body, cs.take n = body ++ [q] ∧ v = resolve body := by
  obtain ⟨ls, rest, hls, rfl, rfl, rfl⟩ := exists_letters_of_body? h
  refine ⟨ls.flatMap Letter.text, ?_, by rw [resolve_eq, letters_flatMap_text hls]⟩
  rw [List.take_length_add_append]
  rfl

end Line.Literal

namespace Reader

variable {c d : Cursor} {l : Lexeme}

/-- The span ends at the cursor. -/
structure Ends (s : Span) (d : Cursor) : Prop where
  stop : s.stop = d.start + d.pos
  line : s.endLine = d.line
  column : s.endColumn = d.column + d.pos

theorem ends_take (c : Cursor) (n : Nat) (word : Word) :
    Ends (c.take n word).1.span (c.take n word).2 := by
  refine ⟨?_, rfl, ?_⟩ <;>
    simp only [Cursor.take, Cursor.ahead, Lexeme.span, Place.span, Place.endColumn,
      Int.natCast_add] <;> omega

theorem ends_of_name (h : name c = .ok (some l) d) :
    Ends l.span d ∧ ∃ n, l.place = c.skipBlanks.ahead n := by
  rw [name_eq] at h
  split at h
  · cases h
    exact ⟨ends_take _ _ _, _, rfl⟩
  · cases h

theorem ends_of_group (h : group c = .ok (some l) d) : Ends l.span d := by
  rw [group_eq, takeFragment_eq] at h
  split at h
  · cases h
    exact ends_take _ _ _
  · cases h
  · cases h

theorem ends_of_member (h : member c = .ok (some l) d) : Ends l.span d := by
  rw [member, run_bind_of_ok run_get] at h
  generalize c.rest = cs at h
  split at h
  · split at h
    · obtain ⟨dot, e, -, hname⟩ := run_bind_eq_ok.mp h
      exact (ends_of_name hname).1
    · cases h
  · cases h

/-- The last of the members of a name ends where they end. -/
theorem ends_of_rounds {ms : List Lexeme} (h : Rounds member c ms d) (hl : Ends l.span c) :
    Ends (ms.getLastD l).span d := by
  induction h generalizing l with
  | nil h =>
    obtain ⟨rfl, -⟩ := not_of_member_none h
    exact hl
  | cons h hlt hr ih =>
    rw [List.getLastD_cons]
    exact ih (ends_of_member h)
  | stall h hlt => exact ends_of_member h

theorem Ends.le {s t : Span} {e : Cursor} (hs : Ends s d) (ht : Ends t e) (h : d.Leads e) :
    s.stop ≤ t.stop := by
  rw [hs.stop, ht.stop]
  exact h.here_le

/-- What was taken from the start of one lexeme to the end of a later one is what their spans
cover. -/
theorem cover_of_took {first last : Lexeme} {e : Cursor} {w : List Char} {n : Nat}
    (hplace : first.place = c.ahead n) (hend : Ends first.span d) (hlast : Ends last.span e)
    (hl : d.Leads e) (hstart : first.span.start ≤ last.span.start) (ho : e.origin = c.origin)
    (hpos : e.pos = c.pos + w.length) : first.span.cover last.span = (c.ahead w.length).span := by
  have hstop := hend.le hlast hl
  simp only [Span.cover, hstart, hstop, if_true]
  obtain ⟨hs, hline, hcolumn⟩ := hlast
  simp only [Cursor.origin, Place.mk.injEq] at ho
  rw [hs, hline, hcolumn, hpos, ho.1, ho.2.1, ho.2.2.1]
  simp only [Lexeme.span, hplace, Place.span, Cursor.ahead, Place.endColumn, Span.mk.injEq,
    true_and]
  omega

theorem start_le_of_name (h : name c = .ok (some l) d) : l.span.start ≤ d.here := by
  obtain ⟨hends, n, hplace⟩ := ends_of_name h
  have hstop : l.span.stop = d.here := hends.stop
  rw [← hstop]
  simp only [Lexeme.span, hplace, Place.span, Cursor.ahead]
  omega

/-- The last of the members of a name starts no earlier than the name. -/
theorem start_le_of_many {e : Cursor} {ms : List Lexeme} (hl : l.span.start ≤ d.here)
    (hms : many member d = .ok ms e) : l.span.start ≤ (ms.getLastD l).span.start := by
  have hle : ∀ m ∈ ms, d.here ≤ m.span.start := fun m hm =>
    Gives.many .member Gives.member d e ms (Int.le_refl _) hms m hm
  exact Gives.getLastD_of_forall (Q := fun m : Lexeme => l.span.start ≤ m.span.start)
    (fun m hm => Int.le_trans hl (hle m hm)) (Int.le_refl _)

/-- The span of a reference is that of its text. -/
theorem span_of_reference? {e : Expression} (h : reference? c = .ok (some e) d) :
    e.span = (c.skipBlanks.ahead e.text.length).span := by
  have hpos := (split_of_reference? h).2.1.pos
  have hleads := Composed.reference?.isLocal.leads_of_ok h
  cases reference?_eq_some_iff.mp h with
  | name hfirst hms ho =>
    obtain ⟨hends, n, hplace⟩ := ends_of_name hfirst
    exact cover_of_took hplace hends (ends_of_rounds (rounds_of_many hms) hends)
      (Composed.member.many.isLocal.leads_of_ok hms)
      (start_le_of_many (start_le_of_name hfirst) hms) hleads.origin hpos
  | call hfirst hms ho hg =>
    obtain ⟨hends, n, hplace⟩ := ends_of_name hfirst
    have hl := Composed.member.many.isLocal.leads_of_ok hms
    have hle := Int.le_trans hl.here_le (Cursor.leads_skipBlanks _).here_le
    refine cover_of_took hplace hends (ends_of_group hg) (hl.trans (Local.group.leads_of_ok hg)) ?_
      hleads.origin hpos
    rw [lexes_group _ _ _ hg]
    exact Int.le_trans (start_le_of_name hfirst) hle

namespace Spells

variable {what : String}

/-- The expression is one stretch. -/
def Written (e : Expression) (ts : List Stretch) : Prop := Makes [e.text] e.node ts

theorem written_of_span {e : Expression} {p : Place} (h : e.span = p.span) :
    Written e [⟨e.text, p⟩] := ⟨rfl, .expression h⟩

/-- The literal is one stretch, with its marks. -/
def Quoted (l : Lexeme) (ts : List Stretch) : Prop :=
  ts = [⟨(literalOf l).raw, l.place⟩] ∧ (literalOf l).Resolves

theorem Quoted.makes {ts : List Stretch} (h : Quoted l ts) :
    Makes [(literalOf l).raw] (literalOf l).node ts := by
  obtain ⟨rfl, hl⟩ := h
  exact ⟨rfl, .literal hl rfl⟩

theorem string : Spells Reader.string (Maybe Quoted) := by
  intro c d o ho
  rw [string_eq] at ho
  cases hr : c.skipBlanks.rest with
  | nil =>
    simp only [hr] at ho
    cases ho
    exact ⟨[], c.passes_skipBlanks, rfl⟩
  | cons q cs =>
    simp only [hr] at ho
    by_cases hq : isQuote q
    · simp only [hq, if_true] at ho
      cases hb : Literal.body? q cs with
      | none => simp [hb] at ho
      | some vn =>
        obtain ⟨v, n⟩ := vn
        obtain ⟨body, htake, rfl⟩ := Literal.resolve_of_body? hb
        obtain ⟨b, r, rfl, rfl, -⟩ := Literal.split_of_body? hb
        rw [List.take_left] at htake
        subst htake
        simp only [hb, List.take_succ_cons, List.take_left] at ho
        cases ho
        exact ⟨_, Cursor.passes_take (w := q :: (body ++ [q])) hr (List.cons_ne_nil _ _) _, rfl,
          body, rfl, rfl⟩
    · simp only [hq] at ho
      cases ho
      exact ⟨[], c.passes_skipBlanks, rfl⟩

/-- A name with dots is one stretch. -/
theorem dottedName : Spells (Reader.dottedName what) fun x ts => ∃ p, ts = [⟨x.1, p⟩] := by
  intro c d x h
  have hl := (Composed.dottedName what).isLocal.leads_of_ok h
  obtain ⟨first, d₁, hfirst, h⟩ := run_bind_eq_ok.mp h
  obtain ⟨ms, d₂, hms, h⟩ := run_bind_eq_ok.mp h
  have hchain := chain_of_many (required_eq_ok.mp hfirst) hms
  cases h
  rw [dotted_eq_flatMap]
  exact ⟨_, hchain.took.passes hl (by simp [hchain.name.ne_nil]), _, rfl⟩

theorem reference? : Spells Reader.reference? (Maybe Written) := by
  intro c d o h
  cases o with
  | none =>
    have hname : Reader.name c = .ok none d := by
      unfold Reader.reference? at h
      obtain ⟨first?, d₁, hfirst, h⟩ := run_bind_eq_ok.mp h
      cases first? with
      | none =>
        cases h
        exact hfirst
      | some first =>
        obtain ⟨ms, d₂, -, h⟩ := run_bind_eq_ok.mp h
        rw [run_bind_of_ok char?_eq] at h
        split at h <;> obtain ⟨arguments, d₃, -, h⟩ := run_bind_eq_ok.mp h <;> cases h
    obtain ⟨ts, hts, rfl⟩ := name c d none hname
    exact ⟨[], hts, rfl⟩
  | some e =>
    obtain ⟨href, htook, -⟩ := split_of_reference? h
    have hne : e.text ≠ [] := by
      obtain ⟨y, p, hy, -⟩ := href.exists_cons
      simp [hy]
    exact ⟨_, htook.passes (Composed.reference?.isLocal.leads_of_ok h) hne,
      written_of_span (span_of_reference? h)⟩

theorem simpleExpression? : Spells Reader.simpleExpression? (Maybe Written) := by
  unfold Reader.simpleExpression?
  refine bind string fun l ts hts => ?_
  cases l with
  | some l =>
    obtain ⟨rfl, -⟩ := hts
    exact pure (written_of_span rfl)
  | none =>
    obtain rfl : ts = [] := hts
    refine bind group fun l ts hts => ?_
    cases l with
    | some l =>
      obtain rfl : ts = [l.stretch] := hts
      exact pure (written_of_span rfl)
    | none =>
      obtain rfl : ts = [] := hts
      refine bind number fun l ts hts => ?_
      cases l with
      | some l =>
        obtain rfl : ts = [l.stretch] := hts
        exact pure (written_of_span rfl)
      | none =>
        obtain rfl : ts = [] := hts
        exact reference?

theorem simpleExpression : Spells (Reader.simpleExpression what) Written :=
  required simpleExpression?

theorem code? : Spells Reader.code? (Maybe Written) := by
  refine bind fragment fun l ts hts => pure ?_
  rw [List.append_nil]
  cases l with
  | none => exact hts
  | some l =>
    obtain rfl : ts = [l.stretch] := hts
    exact written_of_span rfl

theorem code : Spells (Reader.code what) Written := required code?

/-- A dot that is the next character is found. -/
theorem dot (hc : c.rest.head? = some '.') {o : Option Lexeme}
    (ho : Reader.punct ['.'] c = .ok o d) :
    ∃ l ts, o = some l ∧ c.Passes ts d ∧ Single l ts ∧ l.value = ['.'] := by
  have hskip : c.skipBlanks = c := Cursor.skipBlanks_eq_self hc (by decide)
  obtain ⟨r, hr⟩ : ∃ r, c.rest = '.' :: r := List.head?_eq_some_iff.mp hc
  obtain ⟨ts, hts, hl⟩ := punct '.' c d o ho
  rw [punct_eq (by simp), hskip, hr,
    if_pos (startsWith_singleton.mpr ⟨r, rfl, fun he => absurd he (by decide)⟩)] at ho
  cases ho
  exact ⟨_, ts, rfl, hts, hl⟩

theorem labelName : Spells Reader.labelName fun n ts => Makes n.tokens n.node ts := by
  refine inOrder (bind (punct '.') fun dot? ts hdot => ?_)
  cases dot? with
  | some l =>
    obtain ⟨rfl, hv⟩ := hdot
    refine bind (expectName _) fun n us hn => pure ?_
    obtain rfl : us = [n.stretch] := hn
    exact fun h => ⟨by simp [LabelName.tokens, Lexeme.stretch, hv], .bare (l.covers.join n.covers h)⟩
  | none =>
    obtain rfl : ts = [] := hdot
    refine bind (expectName _) fun first ts hfirst => ?_
    obtain rfl : ts = [first.stretch] := hfirst
    intro c d n h
    rw [run_bind_of_ok char?_eq] at h
    split at h
    · next hc =>
      obtain ⟨o, e, ho, h⟩ := run_bind_eq_ok.mp h
      obtain ⟨m, e', hm, h⟩ := run_bind_eq_ok.mp h
      obtain ⟨l, ts, rfl, hts, rfl, hv⟩ := dot hc ho
      obtain ⟨us, hus, rfl⟩ := expectName _ _ _ _ hm
      cases h
      refine ⟨_, hts.trans hus, fun h => ⟨by simp [LabelName.tokens, Lexeme.stretch, hv], .bare ?_⟩⟩
      exact first.covers.cover m.covers h (List.prefix_append [first.stretch] _)
        (List.suffix_append [first.stretch, l.stretch] _)
    · cases h
      exact ⟨[], .refl _, fun h => ⟨rfl, .bare first.covers⟩⟩

/-! Spoken lines. -/

theorem sayAttribute? :
    Spells Reader.sayAttribute? (Maybe fun a ts => Makes a.tokens a.node ts) := by
  intro c d o ho
  obtain ⟨c₀, c₁, hget, ho⟩ := run_bind_eq_ok.mp ho
  cases hget
  obtain ⟨minus, e, hminus, ho⟩ := run_bind_eq_ok.mp ho
  obtain ⟨n?, f, hn, ho⟩ := run_bind_eq_ok.mp ho
  obtain ⟨ts, hts, hm⟩ := punct '-' _ _ _ hminus
  obtain ⟨us, hus, hname⟩ := name _ _ _ hn
  have hall := hts.trans hus
  cases n? with
  | none =>
    cases ho
    exact ⟨[], hall.back, rfl⟩
  | some n =>
    cases ho
    obtain rfl : us = [n.stretch] := hname
    refine ⟨_, hall, ?_⟩
    have h := hall.carries.inOrder.2.1
    cases minus with
    | none =>
      obtain rfl : ts = [] := hm
      refine ⟨rfl, .bare ?_⟩
      rw [Option.getD_none, Span.cover_self]
      exact n.covers
    | some l =>
      obtain ⟨rfl, hv⟩ := hm
      exact ⟨by simp [SayAttribute.tokens, Lexeme.stretch, hv], .bare (l.covers.join n.covers h)⟩

/-- Parts that were read one after the other have their tokens and lie in this order. -/
theorem each_makes {α : Type} {tokens : α → List (List Char)} {node : α → Node} {as : List α}
    {ts : List Stretch} (h : Each (fun a ts => Makes (tokens a) (node a) ts) as ts) :
    ts.map Stretch.text = as.flatMap tokens ∧ LieOver (as.map node) ts := by
  refine ⟨?_, (h.imp fun _ _ ha => ha.lies).lieOver⟩
  induction h with
  | nil => rfl
  | cons h hs ih => rw [List.map_append, List.flatMap_cons, h.texts, ih]

theorem attributes {as : List SayAttribute} (h : Reader.many Reader.sayAttribute? c = .ok as d) :
    ∃ ts, c.Passes ts d ∧ ts.map Stretch.text = as.flatMap SayAttribute.tokens ∧
      LieOver (as.map SayAttribute.node) ts := by
  obtain ⟨ts, hts, heach⟩ := many sayAttribute? c d as h
  exact ⟨ts, hts, each_makes heach⟩

theorem temporaryAttributes {as : List SayAttribute}
    (h : Reader.temporaryAttributes c = .ok as d) :
    ∃ ts, c.Passes ts d ∧ ts.map Stretch.text = temporaryTokens as ∧
      LieOver (as.map SayAttribute.node) ts := by
  obtain ⟨c₀, c₁, hget, h⟩ := run_bind_eq_ok.mp h
  cases hget
  obtain ⟨o, e, ho, h⟩ := run_bind_eq_ok.mp h
  obtain ⟨ts, hts, hsign⟩ := punct '@' _ _ _ ho
  cases o with
  | none =>
    cases h
    obtain rfl : ts = [] := hsign
    exact ⟨[], hts, rfl, .nil []⟩
  | some l =>
    obtain ⟨rfl, hv⟩ := hsign
    obtain ⟨as', f, has, h⟩ := run_bind_eq_ok.mp h
    obtain ⟨us, hus, htexts, hlie⟩ := attributes has
    cases as' with
    | nil =>
      cases h
      exact ⟨[], (hts.trans hus).back, rfl, .nil []⟩
    | cons a as' =>
      cases h
      refine ⟨_, hts.trans hus, ?_, hlie.after _⟩
      simp [temporaryTokens, htexts, Lexeme.stretch, hv]

/-- A spoken line has its tokens, and its content lies over them. -/
theorem say? : Spells Reader.say? (Maybe fun s ts => Makes s.tokens s.content ts) := by
  intro c d o ho
  cases spoken_of_say? ho with
  | none hd =>
    obtain hd | rfl := hd
    · exact ⟨[], (Local.say?.leads_of_ok ho).passes hd, rfl⟩
    · exact ⟨[], c.passes_skipBlanks, rfl⟩
  | narration hw hend =>
    obtain ⟨ts, hts, hstring⟩ := string _ _ _ hw
    obtain ⟨us, hus, rfl⟩ := atEnd _ _ _ hend
    have hmakes := hstring.makes
    refine ⟨_, hts.trans hus, ?_⟩
    rw [List.append_nil]
    exact ⟨hmakes.texts, .around hmakes.lies.covers hmakes.lies⟩
  | @dialogue who what _ _ _ _ _ _ _ hn hwho ha ht hw hend =>
    obtain ⟨ts, hts, rfl⟩ := name _ _ _ hwho
    obtain ⟨ts₁, hts₁, htexts₁, hlie₁⟩ := attributes ha
    obtain ⟨ts₂, hts₂, htexts₂, hlie₂⟩ := temporaryAttributes ht
    obtain ⟨ts₃, hts₃, hstring⟩ := string _ _ _ hw
    obtain ⟨ts₄, hts₄, rfl⟩ := atEnd _ _ _ hend
    have hmakes := hstring.makes
    have hpass := (hts.trans hts₁).trans ((hts₂.trans hts₃).trans hts₄)
    rw [List.append_nil, ← List.append_assoc] at hpass
    have h := hpass.carries.inOrder.2.1
    refine ⟨_, hpass, ?_, ?_⟩
    · simp only [List.map_append, htexts₁, htexts₂, hmakes.texts, Say.tokens, Speaker.tokens]
      rfl
    · have hcover : Covers (who.span.cover what.span) ([who.stretch] ++ ts₁ ++ ts₂ ++ ts₃) :=
        who.covers.cover hmakes.lies.covers h
          (by simp only [List.append_assoc]; exact List.prefix_append _ _) (List.suffix_append _ _)
      have hlie := (hlie₁.after [who.stretch]).append hlie₂
      rw [← List.map_append] at hlie
      exact .ending hcover hlie hmakes.lies

/-! Images. -/

/-- Names that were read one after the other. -/
theorem each_single {ls : List Lexeme} {ts : List Stretch} (h : Each Single ls ts) :
    ts = ls.map Lexeme.stretch := by
  induction h with
  | nil => rfl
  | cons h hs ih => rw [show _ = _ from h, ih]; rfl

theorem texts_stretches (ls : List Lexeme) :
    (ls.map Lexeme.stretch).map Stretch.text = ls.map Lexeme.value := by
  rw [List.map_map]
  rfl

/-- The span of the last of some words. -/
theorem covers_last (l : Lexeme) (ls : List Lexeme) :
    ∃ us, us <:+ (l :: ls).map Lexeme.stretch ∧ Covers (ls.getLastD l).span us := by
  induction ls generalizing l with
  | nil => exact ⟨[l.stretch], List.suffix_refl _, l.covers⟩
  | cons m ms ih =>
    obtain ⟨us, hus, hcovers⟩ := ih m
    rw [List.getLastD_cons]
    exact ⟨us, hus.trans (List.suffix_cons _ _), hcovers⟩

theorem imageWord? : Spells Reader.imageWord? (Maybe Single) := by
  refine after peekName fun n => ?_
  cases n with
  | none => exact pure rfl
  | some n =>
    simp only
    split
    · exact pure rfl
    · exact name

theorem imageWords : Spells (Reader.imageWords what) fun ws ts =>
    ts = (ws.1 :: ws.2).map Lexeme.stretch := by
  refine bind (required imageWord?) fun first ts hts => ?_
  refine bind (many imageWord?) fun more us hus => pure ?_
  obtain rfl : ts = [first.stretch] := hts
  rw [each_single hus, List.append_nil]
  rfl

/-- The span of what follows a keyword need not be that of all its words, but it ends with them. -/
theorem modifierClause (kind : ModifierKind) : Spells (Reader.modifierClause kind) fun x ts =>
    x.1.kind = kind ∧ ts.map Stretch.text = arguments x.1 ∧
      ∃ us, us <:+ ts ∧ (Node.inner x.2 x.1.parts).Over us := by
  cases kind with
  | «at» | zorder =>
    refine bind simpleExpression fun e ts he => pure ?_
    rw [List.append_nil]
    exact ⟨rfl, he.texts, ts, List.suffix_refl ts, .around he.lies.covers he.lies⟩
  | onlayer | as =>
    refine bind (expectName _) fun l ts hl => pure ?_
    obtain rfl : ts = [l.stretch] := hl
    exact ⟨rfl, rfl, _, List.suffix_refl _, .bare l.covers⟩
  | behind =>
    refine bind imageWords fun ws ts hws => pure ?_
    obtain ⟨us, hus, hlast⟩ := covers_last ws.1 ws.2
    rw [List.append_nil]
    subst hws
    exact ⟨rfl, texts_stretches _, us, hus, .bare hlast⟩

theorem modifier? :
    Spells Reader.modifier? (Maybe fun m ts => Makes m.clause.words m.node ts) := by
  refine after peekName fun next => ?_
  split
  · exact pure rfl
  · next kind _ =>
    refine inOrder (bind (expectKeyword _) fun start ts ⟨hts, hv⟩ => ?_)
    refine bind (modifierClause kind) fun x us ⟨hkind, htexts, vs, hvs, hover⟩ => pure fun h => ?_
    obtain rfl : ts = [start.stretch] := hts
    rw [List.append_nil] at h ⊢
    obtain ⟨front, rfl⟩ := hvs
    have hcovers := start.covers.cover hover.covers h (List.prefix_append _ _)
      ((List.suffix_append _ _).trans (List.suffix_append _ _))
    refine ⟨?_, ?_⟩
    · have hwords : x.1.words = x.1.kind.keyword :: arguments x.1 := by cases x.1 <;> rfl
      rw [String.toList_ofList] at hv
      rw [hwords, hkind, ← htexts, ← hv]
      rfl
    · rw [← List.append_assoc] at hcovers ⊢
      exact hover.extend hcovers

theorem imageSpec : Spells Reader.imageSpec fun i ts => Makes i.tokens i.node ts := by
  refine inOrder (bind imageWords fun ws ts hws => ?_)
  refine bind (many modifier?) fun ms us hms => pure fun h => ?_
  obtain ⟨vs, hvs, hlast⟩ := covers_last ws.1 ws.2
  obtain ⟨htexts, hlie⟩ := each_makes hms
  rw [← hws] at hvs
  have hfirst : Opening ws.1.span [] ts := by
    rw [hws]
    exact ws.1.covers.opening.skip (ws.2.map Lexeme.stretch)
  rw [List.append_nil] at h ⊢
  refine ⟨?_, ?_⟩
  · rw [List.map_append, htexts, hws, texts_stretches]
    rfl
  · obtain rfl | ⟨front, m, rfl⟩ := ms.eq_nil_or_concat'
    · cases hms
      obtain ⟨ws', hws', hcovers⟩ := hfirst.starts
      rw [List.append_nil] at h ⊢
      exact .bare (hcovers.cover hlast h hws' hvs)
    · obtain ⟨us, us', rfl, hfront, hm⟩ := hms.exists_of_concat
      have hnode := hm.lies
      rw [← List.append_assoc] at h ⊢
      have hclose := (hfirst.append (each_makes hfront).2).close hnode h hnode.covers
        (List.suffix_refl us')
      rw [ImageSpec.node]
      simp only [List.map_append, List.map_singleton, List.getLastD_concat]
      exact hclose

end Spells

end Reader

end NovelScript
