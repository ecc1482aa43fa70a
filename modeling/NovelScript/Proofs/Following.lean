import NovelScript.Proofs.Images
import NovelScript.Proofs.Likeness

/-!
# What is found on both lines of a pair

Each reader finds on the second line of a pair what it finds on the first one. Words are the same
lexemes at both places, and the parts that are made of them match.
-/

namespace NovelScript

open Line Text

variable {κ : Likeness}

namespace Likeness.LinePair

variable {K : κ.LinePair}

/-- The first text has no character where the second one has at most the start of an idle tail. -/
def SameHead (o o' : Option Char) : Prop := o' = o ∨ o = none ∧ ∀ x, o' = some x → Inert x

theorem SameHead.point {o o' : Option Char} (h : SameHead o o') :
    (o = some '.') = (o' = some '.') := by
  obtain rfl | ⟨rfl, h⟩ := h
  · rfl
  · exact propext ⟨nofun, fun ho => absurd rfl (h _ ho).point⟩

theorem SameHead.opener {o o' : Option Char} (h : SameHead o o') :
    (o.any fun c => (closer? c).isSome) = o'.any fun c => (closer? c).isSome := by
  obtain rfl | ⟨rfl, h⟩ := h
  · rfl
  · cases o' with
    | none => rfl
    | some x => rw [Option.any_some, (h x rfl).opener]; rfl

end Likeness.LinePair

namespace Likeness.LinePair.Follows

variable {K : κ.LinePair} {α β : Type} {T : α → β → Prop}

/-! Readers of words. -/

theorem char? : K.Follows SameHead Reader.char? Reader.char? := by
  intro c c' hc
  obtain ⟨q, hq, ho, -⟩ := hc.exists_rest
  rw [Reader.char?_eq, Reader.char?_eq, hq]
  refine ⟨?_, hc⟩
  cases hr : c.rest with
  | nil => exact .inr ⟨rfl, fun x hx => inert_of_isOver ho hx⟩
  | cons x s => exact .inl rfl

theorem atEnd : K.Follows Eq Reader.atEnd Reader.atEnd := by
  have hover : ∀ d : Cursor, Reader.atEnd d = .ok (isOver d.rest) d.skipBlanks := by
    intro d
    rw [Reader.atEnd_eq, Cursor.rest_skipBlanks]
    rfl
  intro c c' hc
  obtain ⟨q, hq, ho, -⟩ := hc.exists_rest
  rw [hover, hover, hq, isOver_append ho]
  exact ⟨rfl, hc.skipBlanks⟩

theorem peekName : K.Follows Eq Reader.peekName Reader.peekName := by
  intro c c' hc
  obtain ⟨q, hq, ho, -⟩ := hc.skipBlanks.exists_rest
  rw [Reader.peekName_eq, Reader.peekName_eq, hq, name?_append_idle ho]
  exact ⟨rfl, hc.skipBlanks⟩

theorem name : K.Follows (Option.Rel K.Lexemes) Reader.name Reader.name := by
  intro c c' hc
  obtain ⟨q, hq, ho, -⟩ := hc.skipBlanks.exists_rest
  rw [Reader.name_eq, Reader.name_eq, hq, name?_append_idle ho]
  cases hn : name? c.skipBlanks.rest with
  | none => exact ⟨.none, hc.skipBlanks⟩
  | some n =>
    have hpos := List.length_pos_iff.mpr (split_of_name? hn).1.ne_nil
    obtain ⟨hl, hd⟩ := hc.skipBlanks.take hpos (length_le_of_name? hn) (.name n)
    exact ⟨.some hl, hd⟩

theorem keyword (w : List Char) :
    K.Follows (Option.Rel K.Lexemes) (Reader.keyword w) (Reader.keyword w) := by
  intro c c' hc
  obtain ⟨q, hq, ho, -⟩ := hc.skipBlanks.exists_rest
  rw [Reader.keyword_eq, Reader.keyword_eq, hq, name?_append_idle ho]
  by_cases hn : name? c.skipBlanks.rest = some w
  · have hpos := List.length_pos_iff.mpr (split_of_name? hn).1.ne_nil
    obtain ⟨hl, hd⟩ := hc.skipBlanks.take hpos (length_le_of_name? hn) (.keyword w)
    rw [if_pos hn, if_pos hn]
    exact ⟨.some hl, hd⟩
  · rw [if_neg hn, if_neg hn]
    exact ⟨.none, hc.skipBlanks⟩

section

variable {x : Char} (hi : isInline x = false) (hx : x ≠ '#')

include hi hx

theorem peekPunct : K.Follows Eq (Reader.peekPunct [x]) (Reader.peekPunct [x]) := by
  intro c c' hc
  obtain ⟨q, hq, ho, -⟩ := hc.skipBlanks.exists_rest
  rw [Reader.peekPunct_eq (by simp), Reader.peekPunct_eq (by simp), hq,
    startsWith_append_idle ho hi hx]
  exact ⟨rfl, hc.skipBlanks⟩

theorem punct : K.Follows (Option.Rel K.Lexemes) (Reader.punct [x]) (Reader.punct [x]) := by
  intro c c' hc
  obtain ⟨q, hq, ho, -⟩ := hc.skipBlanks.exists_rest
  rw [Reader.punct_eq (by simp), Reader.punct_eq (by simp), hq, startsWith_append_idle ho hi hx]
  by_cases hs : Reader.startsWith [x] c.skipBlanks.rest
  · have hle : [x].length ≤ c.skipBlanks.rest.length := by
      rw [Reader.startsWith, Bool.and_eq_true] at hs
      exact (List.isPrefixOf_iff_prefix.mp hs.1).length_le
    obtain ⟨hl, hd⟩ := hc.skipBlanks.take (Nat.zero_lt_one) hle (.punct [x])
    rw [if_pos hs, if_pos hs]
    exact ⟨.some hl, hd⟩
  · rw [if_neg hs, if_neg hs]
    exact ⟨.none, hc.skipBlanks⟩

end

theorem string : K.Follows (Option.Rel K.Lexemes) Reader.string Reader.string := by
  intro c c' hc
  have hskip := hc.skipBlanks
  obtain ⟨q, hq, ho, hnil⟩ := hskip.exists_rest
  cases hr : c.skipBlanks.rest with
  | nil =>
    rw [hr, List.nil_append] at hq
    rw [Reader.string_of_not_quote (by simp [hr]), Reader.string_of_not_quote]
    · exact ⟨.none, hskip⟩
    · intro x t ht
      rw [ht] at hq
      subst hq
      exact (inert_of_isOver ho rfl).quote
  | cons x s =>
    rw [hr, List.cons_append] at hq
    rw [Reader.string_eq, Reader.string_eq, hr, hq]
    simp only
    by_cases hx : isQuote x
    · simp only [hx, if_true]
      cases hb : Literal.body? x s with
      | some v =>
        obtain ⟨v, n⟩ := v
        have hn : n ≤ s.length := Literal.le_length_of_body? hb
        rw [body?_append_idle hb]
        simp only
        rw [← List.cons_append, List.take_append_of_le_length (by rw [List.length_cons]; omega)]
        obtain ⟨hl, hd⟩ := hskip.take (n := n + 1) (Nat.succ_pos n)
          (by rw [hr, List.length_cons]; omega) (.string v ((x :: s).take (n + 1)))
        exact ⟨.some hl, hd⟩
      | none =>
        -- A string that is not ended before the tail may be ended in it.
        simp only
        by_cases hs : κ.strict
        · rw [hnil hs, List.append_nil, hb]
          exact fun hs => ⟨.same _, hskip.spots hs (Nat.zero_le _)⟩
        · exact Results.of_error hs
    · simp only [hx, Bool.false_eq_true, if_false]
      exact ⟨.none, hskip⟩

theorem number : K.Follows (Option.Rel K.Lexemes) Reader.number Reader.number := by
  intro c c' hc
  obtain ⟨q, hq, ho, -⟩ := hc.skipBlanks.exists_rest
  rw [Reader.number_eq, Reader.number_eq, hq, number?_append_idle ho]
  cases hn : number? c.skipBlanks.rest with
  | none => exact ⟨.none, hc.skipBlanks⟩
  | some n =>
    obtain ⟨x, n', rfl, -⟩ := Reader.exists_head_of_numeric (split_of_number? hn).1
    obtain ⟨hl, hd⟩ := hc.skipBlanks.take (Nat.succ_pos _) (length_le_of_number? hn)
      (.fragment (x :: n'))
    exact ⟨.some hl, hd⟩

/-- A fragment that is found in the first text is also found in the second one. -/
theorem takeFragment {c c' : Cursor} (hc : K.Cursors c c')
    {x x' : Except Stray (Option (List Char))} (hb : FragmentBounded x c.rest.length)
    (hne : x ≠ .ok (some [])) (hx : ∀ o, x = .ok o → x' = .ok o)
    (hs : κ.strict → x' = x) :
    K.Results (Option.Rel K.Lexemes) (Reader.takeFragment x c) (Reader.takeFragment x' c') := by
  rcases x with s | _ | w
  · by_cases hstrict : κ.strict
    · rw [hs hstrict]
      exact fun hstrict => ⟨.same _, hc.spots hstrict hb.1⟩
    · exact Results.of_error hstrict
  · rw [hx _ rfl]
    exact ⟨.none, hc⟩
  · have hpos : 0 < w.length := by
      refine List.length_pos_iff.mpr ?_
      rintro rfl
      exact hne rfl
    obtain ⟨hl, hd⟩ := hc.take hpos hb (.fragment w)
    rw [hx _ rfl]
    exact ⟨.some hl, hd⟩

theorem group : K.Follows (Option.Rel K.Lexemes) Reader.group Reader.group := by
  intro c c' hc
  obtain ⟨q, hq, ho, hnil⟩ := hc.skipBlanks.exists_rest
  rw [Reader.group_eq, Reader.group_eq]
  refine takeFragment hc.skipBlanks (fragmentBounded_group? _) (fun hg => ?_) (fun o h => ?_)
    fun hs => by rw [hq, hnil hs, List.append_nil]
  · obtain ⟨x, s, p, hnil, -⟩ := (split_of_group? hg).1.head
    cases hnil
  · rw [hq]
    exact group?_append_idle ho h

theorem fragment : K.Follows (Option.Rel K.Lexemes) Reader.fragment Reader.fragment := by
  intro c c' hc
  obtain ⟨q, hq, ho, hnil⟩ := hc.skipBlanks.exists_rest
  rw [Reader.fragment_eq, Reader.fragment_eq]
  refine takeFragment hc.skipBlanks (fragmentBounded_fragment? _) (fun hf => ?_) (fun o h => ?_)
    fun hs => by rw [hq, hnil hs, List.append_nil]
  · obtain ⟨d, b, r, hf, -⟩ := split_of_fragment? hf
    exact hf.ne_nil rfl
  · rw [hq]
    exact fragment?_append_idle ho h

/-! The words and expressions of a line. -/

theorem refuse (what : String) : K.Follows T (Reader.refuse what) (Reader.refuse what) := by
  refine same atEnd fun ended c c' hc hs => ⟨?_, hc.wideSpots hs⟩
  rw [hc.rest_eq hs]
  exact .same _

theorem required {what : String} {r : Reader (Option α)} {r' : Reader (Option β)}
    (h : K.Follows (Option.Rel T) r r') :
    K.Follows T (Reader.required what r) (Reader.required what r') :=
  bind h fun o o' ho => by
    cases ho with
    | none => exact refuse what
    | some hab => exact pure hab

theorem expectKeyword (w : String) :
    K.Follows K.Lexemes (Reader.expectKeyword w) (Reader.expectKeyword w) := required (keyword _)

theorem expectColon : K.Follows K.Lexemes (Reader.expectPunct ":") (Reader.expectPunct ":") :=
  required (punct (by decide) (by decide))

theorem expectName (what : String) :
    K.Follows K.Lexemes (Reader.expectName what) (Reader.expectName what) := required name

theorem expectString (what : String) :
    K.Follows K.Lexemes (Reader.expectString what) (Reader.expectString what) := required string

theorem endOfLine (construct : String) :
    K.Follows Eq (Reader.endOfLine construct) (Reader.endOfLine construct) :=
  same atEnd fun _ => ite (refuse _) (pure rfl)

theorem literalOf {l l' : Lexeme} (h : K.Lexemes l l') :
    (Reader.literalOf l).Matches κ.span (Reader.literalOf l') := by
  refine ⟨h.value, ?_, ?_, h.span⟩ <;> simp only [Reader.literalOf, h.word]

theorem labelName : K.Follows (LabelName.Matches κ.span) Reader.labelName Reader.labelName := by
  refine bind (punct (by decide) (by decide)) fun dot dot' hdot => ?_
  cases hdot with
  | some hdot =>
    exact bind (expectName _) fun n n' hn => pure ⟨rfl, hn.value, κ.cover hdot.span hn.span⟩
  | none =>
    refine bind (expectName _) fun first first' hfirst => bind char? fun o o' ho => ?_
    simp only [ho.point]
    refine ite ?_ (pure ⟨rfl, hfirst.value, hfirst.span⟩)
    refine bind (punct (by decide) (by decide)) fun _ _ _ => bind (expectName _) fun n n' hn => ?_
    exact pure ⟨by rw [hfirst.value], hn.value, κ.cover hfirst.span hn.span⟩

theorem member : K.Follows (Option.Rel K.Lexemes) Reader.member Reader.member := by
  refine bind get fun c c' hc => ?_
  obtain ⟨q, hq, ho, -⟩ := hc.exists_rest
  rw [hq]
  split
  · next s hs =>
    simp only [hs, List.cons_append, name?_append_idle ho]
    exact ite (bind (punct (by decide) (by decide)) fun _ _ _ => name) absent
  · next hne =>
    split
    · next s hs =>
      cases hr : c.rest with
      | nil =>
        rw [hr, List.nil_append] at hs
        subst hs
        exact absurd rfl (inert_of_isOver ho rfl).point
      | cons x t =>
        rw [hr] at hs
        obtain ⟨rfl, -⟩ := List.cons.inj hs
        exact absurd hr (hne t)
    · exact absent

/-- A member that is found takes at least its name. -/
theorem length_lt_of_member {c d : Cursor} {l : Lexeme} (h : Reader.member c = .ok (some l) d) :
    d.rest.length < c.rest.length := by
  unfold Reader.member at h
  rw [run_bind_of_ok run_get] at h
  generalize hs : c.rest = s at h
  split at h
  · split at h
    · obtain ⟨o, e, hpoint, hname⟩ := run_bind_eq_ok.mp h
      have hle := ((Reader.Local.punct (by simp)).leads_of_ok hpoint).length_le
      have hlt := Reader.length_lt_of_name hname
      rw [hs] at hle
      omega
    · cases h
  · cases h

theorem getLastD {α β : Type} {T : α → β → Prop} {xs : List α} {ys : List β} {a : α} {b : β}
    (h : List.Forall₂ T xs ys) (hab : T a b) : T (xs.getLastD a) (ys.getLastD b) := by
  induction h generalizing a b with
  | nil => exact hab
  | cons hx _ ih =>
    rw [List.getLastD_cons, List.getLastD_cons]
    exact ih hx

theorem map_value {ls ls' : List Lexeme} (h : List.Forall₂ K.Lexemes ls ls') :
    ls.map Lexeme.value = ls'.map Lexeme.value := map_eq_of_forall₂ h fun _ _ hl => hl.value

theorem dottedName (what : String) : K.Follows (fun x x' => x.1 = x'.1 ∧ κ.span x.2 x'.2)
    (Reader.dottedName what) (Reader.dottedName what) := by
  refine bind (expectName what) fun first first' hfirst => bind (many member length_lt_of_member)
    fun members members' hmembers => pure ⟨?_, κ.cover hfirst.span (getLastD hmembers hfirst).span⟩
  have hvalues := congrArg (List.flatMap fun v => '.' :: v) (map_value hmembers)
  rw [List.flatMap_map, List.flatMap_map] at hvalues
  simp only [hfirst.value, hvalues]

/-- From the start of one lexeme to the end of another one both lines hold the same text. -/
theorem source {l l' m m' : Lexeme} (hl : K.Lexemes l l') (hm : K.Lexemes m m') {c c' : Cursor}
    (hc : K.Cursors c c') :
    (c.content.drop (l.place.start - c.start).toNat).take (m.place.stop - l.place.start).toNat =
      (c'.content.drop (l'.place.start - c'.start).toNat).take
        (m'.place.stop - l'.place.start).toNat := by
  obtain ⟨i, n, hi, hp, hp'⟩ := hl.place
  obtain ⟨j, k, hj, hq, hq'⟩ := hm.place
  have hhere := hc.here
  have hthere := hc.there
  simp only [Prod.mk.injEq] at hhere hthere
  have hstart : (l.place.start - c.start).toNat = i ∧ (l'.place.start - c'.start).toNat = i := by
    rw [hp, hp', hhere.2.2, hthere.2.2]
    simp only [Place.stretch]
    omega
  have hlength : (m.place.stop - l.place.start).toNat = j + k - i ∧
      (m'.place.stop - l'.place.start).toNat = j + k - i := by
    rw [hp, hp', hq, hq']
    simp only [Place.stretch]
    omega
  rw [hstart.1, hstart.2, hlength.1, hlength.2, hc.content, hc.content',
    List.drop_append_of_le_length (by omega),
    List.take_append_of_le_length (by rw [List.length_drop]; omega)]

theorem reference? :
    K.Follows (Option.Rel (Expression.Matches κ.span)) Reader.reference? Reader.reference? := by
  refine bind name fun first first' hfirst => ?_
  cases hfirst with
  | none => exact absent
  | @some first first' hfirst =>
    refine bind (many member length_lt_of_member) fun members members' hmembers =>
      bind char? fun o o' ho => ?_
    simp only [ho.opener]
    refine ite (bind group fun as as' has => ?_)
      (bind (absent (T := K.Lexemes)) fun as as' has => ?_)
    all_goals
      have hlast : K.Lexemes (as.getD (members.getLastD first))
          (as'.getD (members'.getLastD first')) := by
        cases has with
        | none => exact getLastD hmembers hfirst
        | some hl => exact hl
      have hkind : as.isSome = as'.isSome := by cases has <;> rfl
      rw [hkind]
      exact bind get fun c c' hc =>
        pure (.some ⟨source hfirst hlast hc, rfl, κ.cover hfirst.span hlast.span⟩)

theorem simpleExpression? : K.Follows (Option.Rel (Expression.Matches κ.span))
    Reader.simpleExpression? Reader.simpleExpression? := by
  unfold Reader.simpleExpression?
  refine bind string fun l l' hl => ?_
  cases hl with
  | some hl => exact pure (.some ⟨by rw [hl.word], rfl, hl.span⟩)
  | none =>
    refine bind group fun l l' hl => ?_
    cases hl with
    | some hl => exact pure (.some ⟨hl.value, rfl, hl.span⟩)
    | none =>
      refine bind number fun l l' hl => ?_
      cases hl with
      | some hl => exact pure (.some ⟨hl.value, rfl, hl.span⟩)
      | none => exact reference?

theorem simpleExpression (what : String) : K.Follows (Expression.Matches κ.span)
    (Reader.simpleExpression what) (Reader.simpleExpression what) := required simpleExpression?

theorem code? :
    K.Follows (Option.Rel (Expression.Matches κ.span)) Reader.code? Reader.code? :=
  bind fragment fun l l' hl => by
    cases hl with
    | none => exact absent
    | some hl => exact pure (.some ⟨hl.value, rfl, hl.span⟩)

theorem code (what : String) :
    K.Follows (Expression.Matches κ.span) (Reader.code what) (Reader.code what) := required code?

/-! Spoken lines. -/

theorem sayAttribute? : K.Follows (Option.Rel (SayAttribute.Matches κ.span))
    Reader.sayAttribute? Reader.sayAttribute? := by
  refine bind get fun c c' hc => bind (punct (by decide) (by decide)) fun minus minus' hminus =>
    bind name fun n n' hn => ?_
  cases hn with
  | none => exact back hc .none
  | some hn =>
    cases hminus with
    | none => exact pure (.some ⟨hn.value, rfl, κ.cover hn.span hn.span⟩)
    | some hminus => exact pure (.some ⟨hn.value, rfl, κ.cover hminus.span hn.span⟩)

theorem sayAttributes : K.Follows (List.Forall₂ (SayAttribute.Matches κ.span))
    (Reader.many Reader.sayAttribute?) (Reader.many Reader.sayAttribute?) :=
  many sayAttribute? Reader.length_lt_of_sayAttribute?

theorem temporaryAttributes : K.Follows (List.Forall₂ (SayAttribute.Matches κ.span))
    Reader.temporaryAttributes Reader.temporaryAttributes := by
  refine bind get fun c c' hc => bind (punct (by decide) (by decide)) fun sign sign' hsign => ?_
  cases hsign with
  | none => exact pure .nil
  | some _ =>
    refine bind sayAttributes fun as as' has => ?_
    cases has with
    | nil => exact back hc .nil
    | cons ha has => exact pure (.cons ha has)

theorem say? : K.Follows (Option.Rel (Say.Matches κ.span)) Reader.say? Reader.say? := by
  refine bind get fun c c' hc => bind string fun what what' hwhat => ?_
  cases hwhat with
  | some hwhat =>
    exact same atEnd fun _ =>
      ite (pure (.some ⟨.none, literalOf hwhat, hwhat.span⟩)) (back hc .none)
  | none =>
    refine bind name fun who who' hwho => ?_
    cases hwho with
    | none => exact absent
    | some hwho =>
      refine bind sayAttributes fun as as' has => bind temporaryAttributes fun ts ts' hts =>
        bind string fun what what' hwhat => ?_
      cases hwhat with
      | none => exact back hc .none
      | some hwhat =>
        refine same atEnd fun _ => ite (pure (.some ⟨.some ⟨hwho.value, has, hts⟩, ?_, ?_⟩))
          (back hc .none)
        · exact literalOf hwhat
        · exact κ.cover hwho.span hwhat.span

/-! Images. -/

theorem imageWord? : K.Follows (Option.Rel K.Lexemes) Reader.imageWord? Reader.imageWord? :=
  same peekName fun n => by
    cases n with
    | none => exact absent
    | some n => exact ite absent name

theorem imageWords (what : String) :
    K.Follows (fun x x' => K.Lexemes x.1 x'.1 ∧ List.Forall₂ K.Lexemes x.2 x'.2)
      (Reader.imageWords what) (Reader.imageWords what) :=
  bind (required imageWord?) fun _ _ hfirst =>
    bind (many imageWord? Reader.length_lt_of_imageWord?) fun _ _ hmore => pure ⟨hfirst, hmore⟩

theorem modifierClause (kind : ModifierKind) :
    K.Follows (fun x x' => x.1.Matches κ.span x'.1 ∧ κ.span x.2 x'.2) (Reader.modifierClause kind)
      (Reader.modifierClause kind) := by
  cases kind with
  | «at» => exact bind (simpleExpression _) fun _ _ he => pure ⟨.transform he, he.span⟩
  | zorder => exact bind (simpleExpression _) fun _ _ he => pure ⟨.order he, he.span⟩
  | onlayer =>
    refine bind (expectName _) fun _ _ hl => pure ⟨?_, hl.span⟩
    rw [hl.value]
    exact .layer _
  | as =>
    refine bind (expectName _) fun _ _ hl => pure ⟨?_, hl.span⟩
    rw [hl.value]
    exact .tag _
  | behind =>
    refine bind (imageWords _) fun x x' hx => pure ⟨?_, (getLastD hx.2 hx.1).span⟩
    rw [hx.1.value, map_value hx.2]
    exact .behind _

theorem modifier? :
    K.Follows (Option.Rel (Modifier.Matches κ.span)) Reader.modifier? Reader.modifier? := by
  refine same peekName fun next => ?_
  cases ModifierKind.all.find? fun k => next = some k.keyword with
  | none => exact absent
  | some kind =>
    exact bind (expectKeyword _) fun _ _ hstart => bind (modifierClause _) fun _ _ hclause =>
      pure (.some ⟨hclause.1, κ.cover hstart.span hclause.2⟩)

theorem imageSpec :
    K.Follows (ImageSpec.Matches κ.span) Reader.imageSpec Reader.imageSpec := by
  refine bind (imageWords _) fun x x' hx =>
    bind (many modifier? Reader.length_lt_of_modifier?) fun ms ms' hms => pure ⟨?_, hms, ?_⟩
  · rw [hx.1.value, map_value hx.2]
  · have hspans : List.Forall₂ κ.span (ms.map Modifier.span) (ms'.map Modifier.span) := by
      rw [List.forall₂_map_left_iff, List.forall₂_map_right_iff]
      exact hms.imp fun _ _ hm => hm.span
    exact κ.cover hx.1.span (getLastD hspans (getLastD hx.2 hx.1).span)

theorem transition? : K.Follows (Option.Rel (Expression.Matches κ.span)) Reader.transition?
    Reader.transition? :=
  bind (keyword _) fun w w' hw => by
    cases hw with
    | none => exact absent
    | some _ => exact just (simpleExpression _)

/-! Heads of statements and clauses. -/

theorem opensBlock (construct : String) :
    K.Follows Eq (Reader.opensBlock construct) (Reader.opensBlock construct) :=
  bind expectColon fun _ _ _ => endOfLine construct

theorem condition (construct : String) :
    K.Follows (Expression.Matches κ.span) (Reader.condition construct)
      (Reader.condition construct) :=
  bind (code _) fun _ _ he => same (opensBlock construct) fun _ => pure he

theorem assigned (construct : String) :
    K.Follows (Expression.Matches κ.span) (Reader.assigned construct)
      (Reader.assigned construct) :=
  bind (required (punct (by decide) (by decide))) fun _ _ _ => bind (code _) fun _ _ he =>
    same (endOfLine construct) fun _ => pure he

theorem sceneImage? : K.Follows (Option.Rel (ImageSpec.Matches κ.span)) Reader.sceneImage?
    Reader.sceneImage? :=
  same atEnd fun _ => same peekName fun _ => ite absent (just imageSpec)

theorem extent {keyword keyword' : Span} (hk : κ.span keyword keyword')
    {parts parts' : List (Option Span)} (h : List.Forall₂ (Option.Rel κ.span) parts parts') :
    κ.span (Reader.extent keyword parts) (Reader.extent keyword' parts') := by
  have hparts : List.Forall₂ κ.span (parts.filterMap id) (parts'.filterMap id) := by
    induction h with
    | nil => exact .nil
    | cons ho _ ih =>
      cases ho with
      | none => exact ih
      | some hs => exact .cons hs ih
  exact κ.cover hk (getLastD hparts hk)

theorem span_of_option {α : Type} {T : α → α → Prop} {f : α → Span} {o o' : Option α}
    (h : Option.Rel T o o') (hf : ∀ a b, T a b → κ.span (f a) (f b)) :
    Option.Rel κ.span (o.map f) (o'.map f) := by
  cases h with
  | none => exact .none
  | some hab => exact .some (hf _ _ hab)

theorem afterKeyword {keyword keyword' : Span} (hk : κ.span keyword keyword')
    (kind : StatementKind) : K.Follows (Head.Matches κ.span) (Reader.afterKeyword keyword kind)
      (Reader.afterKeyword keyword' kind) := by
  have hexpression : ∀ {o o' : Option Expression}, Option.Rel (Expression.Matches κ.span) o o' →
      Option.Rel κ.span (o.map (·.span)) (o'.map (·.span)) :=
    fun h => span_of_option h fun _ _ he => he.span
  cases kind with
  | say => exact refuse _
  | label => exact bind labelName fun _ _ hn => same (opensBlock _) fun _ => pure (.label hn hk)
  | branch => exact bind (condition _) fun _ _ hc => pure (.branch hc hk)
  | loop => exact bind (condition _) fun _ _ hc => pure (.loop hc hk)
  | menu =>
    refine same (peekPunct (by decide) (by decide)) fun _ => ite ?_ ?_
    · exact bind absent fun _ _ hn => same (opensBlock _) fun _ => pure (.menu hn hk)
    · exact bind (just labelName) fun _ _ hn => same (opensBlock _) fun _ => pure (.menu hn hk)
  | jump =>
    exact bind labelName fun _ _ hn => same (endOfLine _) fun _ =>
      pure (.simple (.jump hn) (κ.cover hk hn.span))
  | call =>
    refine bind labelName fun n n' hn => bind (Follows.keyword _) fun w w' hw => ?_
    have hcall : ∀ s s', Option.Rel (LabelName.Matches κ.span) s s' →
        (Head.simple (.call n s) (Reader.extent keyword [n.span, s.map (·.span)])).Matches κ.span
          (.simple (.call n' s') (Reader.extent keyword' [n'.span, s'.map (·.span)])) :=
      fun s s' hs => .simple (.call hn hs) (extent hk
        (.cons (.some hn.span) (.cons (span_of_option hs fun _ _ hs => hs.span) .nil)))
    cases hw with
    | none => exact bind absent fun _ _ hs => same (endOfLine _) fun _ => pure (hcall _ _ hs)
    | some _ =>
      exact bind (just labelName) fun _ _ hs => same (endOfLine _) fun _ => pure (hcall _ _ hs)
  | leave =>
    exact bind code? fun _ _ he => same (endOfLine _) fun _ =>
      pure (.simple (.leave he) (extent hk (.cons (hexpression he) .nil)))
  | pass => exact same (endOfLine _) fun _ => pure (.simple .pass (κ.cover hk hk))
  | showImage =>
    exact bind imageSpec fun _ _ hi => bind transition? fun _ _ he => same (endOfLine _) fun _ =>
      pure (.simple (.showImage hi he)
        (extent hk (.cons (.some hi.span) (.cons (hexpression he) .nil))))
  | hideImage =>
    exact bind imageSpec fun _ _ hi => bind transition? fun _ _ he => same (endOfLine _) fun _ =>
      pure (.simple (.hideImage hi he)
        (extent hk (.cons (.some hi.span) (.cons (hexpression he) .nil))))
  | scene =>
    exact bind sceneImage? fun _ _ hi => bind transition? fun _ _ he => same (endOfLine _) fun _ =>
      pure (.simple (.scene hi he) (extent hk
        (.cons (span_of_option hi fun _ _ hi => hi.span) (.cons (hexpression he) .nil))))
  | transition =>
    exact bind (simpleExpression _) fun _ _ he => same (endOfLine _) fun _ =>
      pure (.simple (.transition he) (κ.cover hk he.span))
  | define =>
    refine bind (dottedName _) fun x x' hx => bind (assigned _) fun _ _ he =>
      pure (.simple ?_ (κ.cover hk he.span))
    rw [hx.1]
    exact .define _ he
  | default =>
    refine bind (dottedName _) fun x x' hx => bind (assigned _) fun _ _ he =>
      pure (.simple ?_ (κ.cover hk he.span))
    rw [hx.1]
    exact .default _ he
  | image =>
    refine bind (expectName _) fun first first' hfirst =>
      bind (many name Reader.length_lt_of_name) fun more more' hmore => bind (assigned _)
        fun _ _ he => pure (.simple ?_ (κ.cover hk he.span))
    rw [hfirst.value, map_value hmore]
    exact .image _ he

theorem head : K.Follows (Head.Matches κ.span) Reader.head Reader.head := by
  refine bind say? fun l l' hl => ?_
  cases hl with
  | some hl => exact same (endOfLine _) fun _ => pure (.simple (.say hl) hl.span)
  | none =>
    refine same peekName fun next => ?_
    cases StatementKind.keyed.find? fun kind => next = some kind.text.toList with
    | none => exact refuse _
    | some kind => exact bind (expectKeyword _) fun _ _ hk => afterKeyword hk.span kind

theorem elifHead : K.Follows (fun x x' => x.1.Matches κ.span x'.1 ∧ κ.span x.2 x'.2)
    Reader.elifHead Reader.elifHead :=
  bind (expectKeyword _) fun _ _ hk => bind (condition _) fun _ _ hc => pure ⟨hc, hk.span⟩

theorem elseHead : K.Follows Eq Reader.elseHead Reader.elseHead :=
  bind (expectKeyword _) fun _ _ _ => opensBlock _

theorem captionHead :
    K.Follows (Option.Rel (Say.Matches κ.span)) Reader.captionHead Reader.captionHead :=
  bind say? fun _ _ hl => same (endOfLine _) fun _ => pure hl

theorem choiceHead : K.Follows
    (fun x x' => K.Lexemes x.1 x'.1 ∧ Option.Rel (Expression.Matches κ.span) x.2 x'.2)
    Reader.choiceHead Reader.choiceHead := by
  refine bind (expectString _) fun t t' ht => bind (keyword _) fun w w' hw => ?_
  cases hw with
  | none => exact bind absent fun _ _ hc => same (opensBlock _) fun _ => pure ⟨ht, hc⟩
  | some _ =>
    exact bind (just (code _)) fun _ _ hc => same (opensBlock _) fun _ => pure ⟨ht, hc⟩

theorem startsClause (w : String) :
    K.Follows Eq (Reader.startsClause w) (Reader.startsClause w) :=
  same peekName fun _ => ite (bind say? fun o o' ho => pure (by cases ho <;> rfl)) (pure rfl)

end Likeness.LinePair.Follows

end NovelScript
