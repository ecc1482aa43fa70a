import NovelScript.Proofs.Images
import NovelScript.Proofs.Origin

/-!
# Spoken lines that stand for themselves

A spoken line is found again in its canonical text. There each attribute has one space before it and
none after its sign, so names that a minus sign divides stay apart.
-/

namespace NovelScript.Reader

open Line Text

variable {α : Type} {c d e : Cursor} {l : Lexeme} {p q r s s' t w : List Char} {x : Char}
  {T : List Char → Prop} {Q : α → Prop}

theorem retold_get {f : Cursor → Reader α} (h : ∀ e, Retold (f e) s s' p T Q) :
    Retold (get >>= f) s s' p T Q where
  reads c t ht hb := by
    obtain ⟨a, d, hr, ha⟩ := (h c).reads c t ht hb
    exact ⟨a, d, (run_bind_of_ok run_get).trans hr, ha⟩
  alike t ht ha := (h (.ofContent [] ⟨0, 0, 0, 0⟩)).alike t ht ha

/-- The rest of a spoken line: a literal or the sign before attributes follows. -/
def AfterSpeaker (t : List Char) : Prop :=
  Parted t ∧ ∃ x, (t.dropWhile isInline).head? = some x ∧ (isQuote x ∨ x = '@')

theorem ne_minus (hw : IsName w) : ((w ++ t).dropWhile isInline).head? ≠ some '-' := by
  obtain ⟨y, w', rfl, hy, -⟩ := hw.exists_cons
  rw [List.cons_append, dropWhile_of_not_inline (isInline_of_start hy)]
  rintro ⟨⟩
  exact absurd hy (by decide)

theorem retold_sayAttribute? {a : SayAttribute} (h : sayAttribute? c = .ok (some a) d) :
    a.text ≠ [] ∧ Retold sayAttribute? c.rest d.rest a.text Parted
      fun o => ∃ a', o = some a' ∧ a'.bare = a.bare := by
  obtain ⟨minus, e, n, hm, hn, rfl⟩ := sayAttribute?_eq_some.mp h
  obtain ⟨hname, hret⟩ := retold_name hn
  -- What follows the name takes it, whatever was found before it.
  have hrest : ∀ (next : Option Lexeme → Reader (Option SayAttribute)) (minus' : Option Lexeme),
      minus'.isSome = minus.isSome → (∀ n : Lexeme, next (some n) =
        return some ⟨n.value, minus'.isSome, (minus'.getD n).span.cover n.span⟩) →
      Retold (name >>= next) e.rest d.rest n.value Parted fun o => ∃ a', o = some a' ∧
        a'.bare = SayAttribute.bare ⟨n.value, minus.isSome, (minus.getD n).span.cover n.span⟩ := by
    intro next minus' hs hnext
    refine hret.before ⟨n, rfl, rfl⟩ ?_ fun _ ht => ht
    rintro _ ⟨n', rfl, hn'⟩
    rw [hnext]
    refine .pure ⟨_, rfl, ?_⟩
    simp only [SayAttribute.bare, value_of_word hn', hs]
  cases minus with
  | some minus =>
    refine ⟨by simp [SayAttribute.text], retold_get fun mark => ?_⟩
    refine Retold.bind (p := ['-']) (retold_punct (by decide) hm) ⟨minus, rfl, rfl⟩ ?_
      fun t _ he => absurd he (by decide)
    rintro _ ⟨minus', rfl, -⟩
    exact hrest _ (some minus') rfl fun _ => rfl
  | none =>
    refine ⟨by simp [SayAttribute.text, hname.ne_nil], retold_get fun mark => ?_⟩
    refine (retold_no_punct hm).after rfl ?_ fun t _ => ne_minus hname
    rintro _ rfl
    exact hrest _ none rfl fun _ => rfl

/-- Where no attribute is found, the cursor returns. -/
theorem rest_of_sayAttribute? (h : sayAttribute? c = .ok none d) : d.rest = c.rest := by
  have hl := Local.sayAttribute?.leads_of_ok h
  have hp : d.pos = c.pos := by
    unfold sayAttribute? at h
    rw [run_bind_of_ok run_get] at h
    obtain ⟨minus, e, hm, h⟩ := run_bind_eq_ok.mp h
    obtain ⟨n, e', hn, h⟩ := run_bind_eq_ok.mp h
    cases n <;> cases h
    rfl
  rw [Cursor.rest, Cursor.rest, hl.content, hp]

theorem no_name_before (h : c.Before t)
    (ht : ∀ x, (t.dropWhile isInline).head? = some x → isNameStart x = false) :
    name c = .ok none c.skipBlanks := by
  have hnone : name? c.skipBlanks.rest = none := by
    rw [h]
    cases hr : t.dropWhile isInline with
    | nil => rfl
    | cons y r =>
      have hy := ht y (by rw [hr]; rfl)
      rw [name?_cons, if_neg (by simp [hy])]
  rw [name_eq, hnone]

theorem no_sayAttribute_before (h : c.Before t) (hx : (t.dropWhile isInline).head? = some x)
    (hm : x ≠ '-') (hn : isNameStart x = false) :
    sayAttribute? c = .ok none { c.skipBlanks with pos := c.pos } := by
  have hminus : punct ['-'] c = .ok none c.skipBlanks := by
    refine no_punct_before h ?_
    rw [hx]
    rintro ⟨⟩
    exact hm rfl
  have hname : name c.skipBlanks = .ok none c.skipBlanks := by
    have hnone := no_name_before (before_skipBlanks.mpr h) fun y hy => by
      rw [hx] at hy
      cases hy
      exact hn
    rwa [Cursor.skipBlanks_idem] at hnone
  unfold sayAttribute?
  rw [run_bind_of_ok run_get, run_bind_of_ok hminus, run_bind_of_ok hname]
  rfl

/-- What may stand behind attributes starts no attribute. -/
theorem starts_no_attribute (hx : isQuote x ∨ x = '@') : x ≠ '-' ∧ isNameStart x = false := by
  obtain hq | rfl := hx
  · refine ⟨?_, isNameStart_of_quote hq⟩
    rintro rfl
    exact absurd hq (by decide)
  · decide

theorem retold_no_sayAttribute (h : sayAttribute? c = .ok none d) :
    Retold sayAttribute? c.rest d.rest [] AfterSpeaker (· = none) := by
  refine ⟨?_, fun t _ ha => by rwa [rest_of_sayAttribute? h] at ha⟩
  rintro c' t ⟨-, x, hx, hsign⟩ hb
  obtain ⟨hm, hn⟩ := starts_no_attribute hsign
  exact ⟨none, _, no_sayAttribute_before hb hx hm hn, rfl, hb⟩

theorem retold_attributes {as : List SayAttribute} (h : many sayAttribute? c = .ok as d) :
    (∀ t, AfterSpeaker t → Parted (following (as.map SayAttribute.text) ++ t)) ∧
      Retold (many sayAttribute?) c.rest d.rest (following (as.map SayAttribute.text)) AfterSpeaker
        fun as' => as'.map SayAttribute.bare = as.map SayAttribute.bare :=
  retold_many (V := Parted) SayAttribute.text SayAttribute.bare h length_lt_of_sayAttribute?
    (fun ha => ⟨(retold_sayAttribute? ha).1, fun _ _ => parted_space _, (retold_sayAttribute? ha).2⟩)
    retold_no_sayAttribute fun _ ht => ht.1

/-- What the search for the attributes of one line comes to. -/
inductive Temporary (c : Cursor) : List SayAttribute → Cursor → Prop
  | absent (hs : punct ['@'] c = .ok none c.skipBlanks) : Temporary c [] c.skipBlanks
  /-- No attribute follows the sign, and the cursor returns. -/
  | returned {sign : Lexeme} {e d : Cursor} (hs : punct ['@'] c = .ok (some sign) e)
    (hd : d.rest = c.rest) : Temporary c [] d
  | marked {sign : Lexeme} {e d : Cursor} {as : List SayAttribute}
    (hs : punct ['@'] c = .ok (some sign) e) (ha : many sayAttribute? e = .ok as d)
    (hne : as ≠ []) : Temporary c as d

theorem temporary_of_temporaryAttributes {as : List SayAttribute}
    (h : temporaryAttributes c = .ok as d) : Temporary c as d := by
  unfold temporaryAttributes at h
  rw [run_bind_of_ok run_get] at h
  obtain ⟨sign, e, hs, h⟩ := run_bind_eq_ok.mp h
  cases sign with
  | none =>
    cases h
    obtain rfl := eq_skipBlanks_of_punct hs
    exact .absent hs
  | some sign =>
    obtain ⟨ts, e', ha, h⟩ := run_bind_eq_ok.mp h
    by_cases hempty : ts.isEmpty
    · rw [if_pos hempty] at h
      cases h
      have hl := ((Local.punct (p := ['@']) (by simp)).leads_of_ok hs).trans
        ((Local.many Local.sayAttribute?).leads_of_ok ha)
      rw [List.isEmpty_iff.mp hempty]
      exact .returned hs (by rw [Cursor.rest, Cursor.rest, hl.content])
    · rw [if_neg hempty] at h
      cases h
      exact .marked hs ha fun hnil => hempty (List.isEmpty_iff.mpr hnil)

theorem not_isEmpty_of_bare {as as' : List SayAttribute}
    (h : as'.map SayAttribute.bare = as.map SayAttribute.bare) (hne : as ≠ []) :
    ¬as'.isEmpty = true := by
  intro hnil
  rw [List.isEmpty_iff.mp hnil, List.map_nil, eq_comm, List.map_eq_nil_iff] at h
  exact hne h

/-- The words of the attributes that hold for one line. -/
def temporaryWords (ts : List SayAttribute) : List (List Char) :=
  if ts.isEmpty then [] else ['@'] :: ts.map SayAttribute.text

theorem retold_temporaryAttributes {ts : List SayAttribute}
    (h : temporaryAttributes c = .ok ts d) (hw : string d = .ok (some l) e) :
    Retold temporaryAttributes c.rest d.rest (following (temporaryWords ts))
      (fun t => Parted t ∧ ∃ x, (t.dropWhile isInline).head? = some x ∧ isQuote x)
      fun ts' => ts'.map SayAttribute.bare = ts.map SayAttribute.bare := by
  cases temporary_of_temporaryAttributes h with
  | absent hs =>
    refine retold_get fun mark => (retold_no_punct hs).after rfl ?_ ?_
    · rintro _ rfl
      exact .pure rfl
    · rintro t ⟨-, x, hx, hq⟩ hat
      have hx' : (t.dropWhile isInline).head? = some '@' := hat
      rw [hx] at hx'
      cases hx'
      exact absurd hq (by decide)
  | returned hs hd =>
    -- No literal starts with the sign.
    obtain ⟨-, hat, -⟩ := split_of_punct hs
    obtain ⟨q, b, v, -, hq, -, hr⟩ := split_of_string hw
    rw [Cursor.rest_skipBlanks, hd, ← Cursor.rest_skipBlanks, hat] at hr
    obtain ⟨rfl, -⟩ := List.cons.inj hr
    exact absurd hq (by decide)
  | marked hs ha hne =>
    obtain ⟨hnext, hret⟩ := retold_attributes ha
    have hempty : ¬ts.isEmpty = true := fun hnil => hne (List.isEmpty_iff.mp hnil)
    have hwords : following (temporaryWords ts) =
        ' ' :: ['@'] ++ following (ts.map SayAttribute.text) := by
      rw [temporaryWords, if_neg hempty]
      rfl
    rw [hwords]
    refine retold_get fun mark => ?_
    refine Retold.bind ((retold_punct (by decide) hs).space (by simp)) ⟨_, rfl, rfl⟩ ?_
      fun t _ he => absurd he (by decide)
    rintro _ ⟨sign', rfl, -⟩
    refine Retold.before (T := AfterSpeaker) hret rfl (fun as' has' => ?_) ?_
    · rw [if_neg (not_isEmpty_of_bare has' hne)]
      exact .pure has'
    · rintro t ⟨hp, x, hx, hq⟩
      exact ⟨hp, x, hx, .inl hq⟩

theorem literalOf_bare {l' : Lexeme} (h : l'.word = l.word) :
    (literalOf l').bare = (literalOf l).bare := by
  simp only [literalOf, StringLiteral.bare, value_of_word h, h]

theorem retold_atEnd (h : isOver s) : Retold atEnd s [] [] (· = []) (· = true) := by
  refine ⟨?_, ?_⟩
  · rintro c t rfl hb
    refine ⟨true, c.skipBlanks, ?_, rfl, before_skipBlanks.mpr hb⟩
    rw [atEnd_eq, hb]
    rfl
  · rintro t rfl -
    exact .ended h

theorem isOver_of_atEnd (h : atEnd c = .ok true d) : isOver c.rest := by
  rw [atEnd_eq_isOver] at h
  injection h

theorem written_dialogue (who : List Char) (as ts : List SayAttribute) (what : StringLiteral)
    (span : Span) : Say.written ⟨some ⟨who, as, ts⟩, what, span⟩ =
      who ++ (following (as.map SayAttribute.text) ++
        (following (temporaryWords ts) ++ ' ' :: what.raw)) := by
  simp only [Say.written, Speaker.summary, spaced_cons, List.cons_append, following_append,
    temporaryWords, List.append_assoc]

/-- A spoken line that differs in its spans alone was found. -/
def SameSay (s : Say) (o : Option Say) : Prop := ∃ s', o = some s' ∧ s'.bare = s.bare

theorem retold_no_string (h : string c = .ok none d) : Retold string c.rest d.rest []
    (fun t => ∀ x, (t.dropWhile isInline).head? = some x → isQuote x = false) (· = none) := by
  refine ⟨fun c' t ht hb => ?_, fun t _ ha => ?_⟩
  · refine ⟨none, c'.skipBlanks, string_of_not_quote fun q r hr => ?_, rfl, before_skipBlanks.mpr hb⟩
    rw [hb] at hr
    exact ht q (by rw [← List.nil_append t, hr]; rfl)
  · rw [eq_skipBlanks_of_string h, Cursor.rest_skipBlanks] at ha
    exact ha.of_dropWhile

theorem exists_raw_cons (h : string c = .ok (some l) d) :
    ∃ q b, (literalOf l).raw = q :: b ∧ isQuote q := by
  obtain ⟨q, b, v, hl, hq, -, -⟩ := split_of_string h
  exact ⟨q, b, by rw [literalOf, hl]; rfl, hq⟩

theorem afterSpeaker_literal (hq : isQuote x) (ts : List SayAttribute) (b : List Char) :
    AfterSpeaker (following (temporaryWords ts) ++ (' ' :: x :: b)) := by
  by_cases hts : ts.isEmpty
  · rw [temporaryWords, if_pos hts]
    have hd : (' ' :: x :: b).dropWhile isInline = x :: b :=
      dropWhile_of_not_inline (isInline_of_quote hq) b
    exact ⟨parted_space _, x, by rw [following_nil, List.nil_append, hd]; rfl, .inl hq⟩
  · rw [temporaryWords, if_neg hts]
    exact ⟨parted_space _, '@', rfl, .inr rfl⟩

theorem retold_say? {s : Say} (h : say? c = .ok (some s) d) :
    Retold say? c.rest [] s.written (· = []) (SameSay s) := by
  unfold say?
  refine retold_get fun mark => ?_
  cases spoken_of_say? h with
  | @narration what e d hw hend =>
    obtain ⟨hne, hret⟩ := retold_string hw
    refine hret.before ⟨what, rfl, rfl⟩ ?_ fun _ _ => trivial
    rintro _ ⟨what', rfl, hwhat⟩
    refine (retold_atEnd (isOver_of_atEnd hend)).after rfl ?_ fun _ h => h
    rintro _ rfl
    exact .pure ⟨_, rfl, by simp only [Say.bare, literalOf_bare hwhat, Option.map_none]⟩
  | @dialogue who what attributes temporary e₁ e₂ e₃ e₄ d hn hwho ha ht hw hend =>
    rw [← name_skipBlanks] at hwho
    obtain ⟨hname, hwhoret⟩ := retold_name hwho
    obtain ⟨q, b, hraw, hq⟩ := exists_raw_cons hw
    obtain ⟨hne, hwret⟩ := retold_string hw
    obtain ⟨hanext, haret⟩ := retold_attributes ha
    have htret := retold_temporaryAttributes ht hw
    have hafter := afterSpeaker_literal hq temporary b
    rw [← hraw] at hafter
    rw [written_dialogue]
    refine (retold_no_string hn).after rfl ?_ ?_
    · rintro _ rfl
      refine hwhoret.bind ⟨who, rfl, rfl⟩ ?_ ?_
      · rintro _ ⟨who', rfl, hwho'⟩
        refine haret.bind rfl (fun as' has' => ?_) ?_
        · refine htret.bind rfl (fun ts' hts' => ?_) ?_
          · refine (hwret.space hne).before ⟨what, rfl, rfl⟩ ?_ fun _ _ => trivial
            rintro _ ⟨what', rfl, hwhat⟩
            refine (retold_atEnd (isOver_of_atEnd hend)).after rfl ?_ fun _ h => h
            rintro _ rfl
            refine .pure ⟨_, rfl, ?_⟩
            simp only [Say.bare, literalOf_bare hwhat, Option.map_some, Speaker.bare,
              value_of_word hwho', has', hts']
          · rintro t rfl
            refine ⟨parted_space _, q, ?_, hq⟩
            have hd : (' ' :: (q :: b)).dropWhile isInline = q :: b :=
              dropWhile_of_not_inline (isInline_of_quote hq) b
            rw [List.append_nil, hraw, hd]
            rfl
        · rintro t rfl
          rwa [List.append_nil]
      · rintro t rfl
        rw [List.append_nil]
        exact hanext _ hafter
    · rintro t rfl y hy
      obtain ⟨z, w', hz, hstart, -⟩ := hname.exists_cons
      have hd : ∀ u, (z :: u).dropWhile isInline = z :: u :=
        dropWhile_of_not_inline (isInline_of_start hstart)
      rw [hz, List.append_nil, List.cons_append, hd] at hy
      cases hy
      exact isQuote_of_name (isNameChar_of_start hstart)

end NovelScript.Reader
