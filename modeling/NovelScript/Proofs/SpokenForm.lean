import NovelScript.Proofs.Quoting
import NovelScript.Proofs.Speech

/-!
# The form of a spoken line

Which lines are spoken is said here without a reader: a line is a literal, or the name of a speaker
with attributes and then a literal, and after that nothing but blanks and a comment. The search for
a spoken line finds exactly these. It never takes back an attribute that it has found, and no line
is lost by that: a name goes on as far as it can, and neither a mark nor an at sign starts an
attribute, so a text has this form in one way only.
-/

namespace NovelScript.Line

open Text Literal

/-- After blanks the text `s` goes on with `w`, and `r` is left. -/
def Ahead (w s r : List Char) : Prop := s.dropWhile isInline = w ++ r

/-- The name `n` is next. A name goes on as far as it can. -/
structure NameAhead (n s r : List Char) : Prop where
  starts : ∃ x, n.head? = some x ∧ isNameStart x
  chars : ∀ x ∈ n, isNameChar x
  ends : ∀ x, r.head? = some x → isNameChar x = false
  ahead : Ahead n s r

inductive AttributeAhead : SayAttribute → List Char → List Char → Prop
  | plain {n s r : List Char} {span : Span} (h : NameAhead n s r) :
    AttributeAhead ⟨n, false, span⟩ s r
  | negated {n s t r : List Char} {span : Span} (hm : Ahead ['-'] s t) (h : NameAhead n t r) :
    AttributeAhead ⟨n, true, span⟩ s r

inductive AttributesAhead : List SayAttribute → List Char → List Char → Prop
  | nil (s : List Char) : AttributesAhead [] s s
  | cons {a : SayAttribute} {as : List SayAttribute} {s t r : List Char}
    (h : AttributeAhead a s t) (hs : AttributesAhead as t r) : AttributesAhead (a :: as) s r

/-- Attributes after an at sign are next, or no attributes at all. -/
inductive TemporaryAhead : List SayAttribute → List Char → List Char → Prop
  | absent (s : List Char) : TemporaryAhead [] s s
  | marked {as : List SayAttribute} {s t r : List Char} (ha : Ahead ['@'] s t)
    (h : AttributesAhead as t r) (hne : as ≠ []) : TemporaryAhead as s r

def SpeakerAhead (p : Speaker) (s r : List Char) : Prop :=
  ∃ t u, NameAhead p.name s t ∧ AttributesAhead p.attributes t u ∧ TemporaryAhead p.temporary u r

/-- A literal is next: letters between marks. -/
def LiteralAhead (l : StringLiteral) (s r : List Char) : Prop :=
  isQuote l.quote ∧ Ahead l.raw s r ∧ ∃ ls : List Letter, (∀ x ∈ ls, x.Fits l.quote) ∧
    l.value = ls.map Letter.value ∧ l.raw = l.quote :: (ls.flatMap Letter.text ++ [l.quote])

/-- The text says `s`, and nothing else but a comment. -/
inductive Says : List Char → Say → Prop
  | narration {l : StringLiteral} {span : Span} {s r : List Char} (hl : LiteralAhead l s r)
    (hr : isOver r) : Says s ⟨none, l, span⟩
  | dialogue {p : Speaker} {l : StringLiteral} {span : Span} {s t r : List Char}
    (hp : SpeakerAhead p s t) (hl : LiteralAhead l t r) (hr : isOver r) : Says s ⟨some p, l, span⟩

/-- The text is letters, then the mark `q` and anything. -/
def Closed (q : Char) (t : List Char) : Prop :=
  ∃ (ls : List Letter) (r : List Char), (∀ x ∈ ls, x.Fits q) ∧ t = ls.flatMap Letter.text ++ q :: r

/-- A mark is next that opens a literal which nothing closes. -/
def OpenAhead (s : List Char) : Prop := ∃ q t, isQuote q ∧ Ahead [q] s t ∧ ¬Closed q t

/-- The text ends inside the literal of a spoken line. -/
inductive BreaksOff (s : List Char) : Prop
  | narration (h : OpenAhead s)
  | dialogue {p : Speaker} {t : List Char} (hp : SpeakerAhead p s t) (h : OpenAhead t)

variable {l : StringLiteral} {as : List SayAttribute} {n s r t : List Char} {q x : Char}

theorem NameAhead.isName (h : NameAhead n s r) : IsName n := by
  obtain ⟨x, hx, hstart⟩ := h.starts
  obtain ⟨w, rfl⟩ := List.head?_eq_some_iff.mp hx
  rw [IsName, name?_cons, if_pos hstart, List.takeWhile_eq_self_iff.mpr h.chars]

theorem LiteralAhead.exists_quote (h : LiteralAhead l s r) :
    ∃ x, (s.dropWhile isInline).head? = some x ∧ isQuote x := by
  obtain ⟨hq, hs, ls, -, -, hraw⟩ := h
  refine ⟨l.quote, ?_, hq⟩
  rw [show s.dropWhile isInline = l.raw ++ r from hs, hraw]
  rfl

theorem OpenAhead.exists_quote (h : OpenAhead s) :
    ∃ x, (s.dropWhile isInline).head? = some x ∧ isQuote x := by
  obtain ⟨q, t, hq, hs, -⟩ := h
  refine ⟨q, ?_, hq⟩
  rw [show s.dropWhile isInline = [q] ++ t from hs]
  rfl

/-- What stands before a mark starts with a mark or an at sign. -/
theorem TemporaryAhead.exists_sign (h : TemporaryAhead as s r)
    (hx : (r.dropWhile isInline).head? = some x) (hq : isQuote x) :
    ∃ y, (s.dropWhile isInline).head? = some y ∧ (isQuote y ∨ y = '@') := by
  cases h with
  | absent => exact ⟨x, hx, .inl hq⟩
  | @marked _ _ t _ ha _ _ =>
    refine ⟨'@', ?_, .inr rfl⟩
    rw [show s.dropWhile isInline = ['@'] ++ t from ha]
    rfl

theorem closed_iff : Closed q t ↔ body? q t ≠ none := by
  constructor
  · rintro ⟨ls, r, hls, rfl⟩
    rw [body?_flatMap_text hls]
    nofun
  · intro h
    obtain ⟨⟨v, k⟩, hb⟩ := Option.ne_none_iff_exists'.mp h
    obtain ⟨ls, r, hls, ht, -⟩ := exists_letters_of_body? hb
    exact ⟨ls, r, hls, ht⟩

end NovelScript.Line

namespace NovelScript.Reader

open Line Text Literal

variable {c d : Cursor} {l : Lexeme} {a : SayAttribute} {as : List SayAttribute} {p : Speaker}
  {n s t r w : List Char} {x : Char} {f : Fault}

theorem before_of_ahead (h : Ahead w s r) (hc : c.Before s) : c.Before (w ++ r) := by
  have hs : s.dropWhile isInline = w ++ r := h
  rw [Cursor.Before, hc, ← hs, dropWhile_idem]

theorem before_of_rest_eq (h : d.rest = c.rest) (hc : c.Before s) : d.Before s := by
  rwa [Cursor.Before, Cursor.rest_skipBlanks, h, ← Cursor.rest_skipBlanks]

/-! Names and attributes. -/

theorem nameAhead_of_name (hc : c.Before s) (h : name c = .ok (some l) d) :
    NameAhead l.value s d.rest := by
  obtain ⟨w, hl, hw, hr, hx⟩ := split_of_name h
  have hv : l.value = w := by rw [Lexeme.value, hl]; rfl
  rw [hv]
  obtain ⟨y, w', rfl, hy, hall⟩ := hw.exists_cons
  exact ⟨⟨y, rfl, hy⟩, hall, hx, hc.symm.trans hr⟩

theorem name_of_nameAhead (hc : c.Before s) (h : NameAhead n s r) :
    ∃ l d, name c = .ok (some l) d ∧ l.value = n ∧ d.rest = r := by
  obtain ⟨l, d, hn, hl, hd⟩ := name_before h.isName h.ends (before_of_ahead h.ahead hc)
  exact ⟨l, d, hn, by rw [Lexeme.value, hl]; rfl, hd⟩

theorem attributeAhead_of_sayAttribute? (hc : c.Before s) (h : sayAttribute? c = .ok (some a) d) :
    AttributeAhead a s d.rest := by
  obtain ⟨minus, e, n, hm, hn, rfl⟩ := sayAttribute?_eq_some.mp h
  cases minus with
  | none =>
    obtain rfl := eq_skipBlanks_of_punct hm
    exact .plain (nameAhead_of_name (before_skipBlanks.mpr hc) hn)
  | some minus =>
    obtain ⟨-, hr, -⟩ := split_of_punct hm
    exact .negated (hc.symm.trans hr) (nameAhead_of_name (before_of_rest rfl) hn)

theorem sayAttribute?_of_attributeAhead (hc : c.Before s) (h : AttributeAhead a s r) :
    ∃ a' d, sayAttribute? c = .ok (some a') d ∧ a'.bare = a.bare ∧ d.rest = r := by
  cases h with
  | plain h =>
    have hminus : punct ['-'] c = .ok none c.skipBlanks :=
      no_punct_before (before_of_ahead h.ahead hc) (ne_minus h.isName)
    obtain ⟨l, d, hn, rfl, hd⟩ := name_of_nameAhead (before_skipBlanks.mpr hc) h
    exact ⟨_, d, sayAttribute?_eq_some.mpr ⟨none, _, l, hminus, hn, rfl⟩, rfl, hd⟩
  | negated hm h =>
    obtain ⟨m, e, hminus, -, he⟩ :=
      punct_before (x := '-') (by decide) (fun h => absurd h (by decide)) (before_of_ahead hm hc)
    obtain ⟨l, d, hn, rfl, hd⟩ := name_of_nameAhead (before_of_rest he) h
    exact ⟨_, d, sayAttribute?_eq_some.mpr ⟨some m, e, l, hminus, hn, rfl⟩, rfl, hd⟩

theorem attributesAhead_of_many (hc : c.Before s) (h : many sayAttribute? c = .ok as d) :
    ∃ r, AttributesAhead as s r ∧ d.Before r := by
  have hr := rounds_of_many h
  clear h
  induction hr generalizing s with
  | nil hn => exact ⟨s, .nil s, before_of_rest_eq (rest_of_sayAttribute? hn) hc⟩
  | cons hs hlt hr ih =>
    obtain ⟨r, hr, hd⟩ := ih (before_of_rest rfl)
    exact ⟨r, .cons (attributeAhead_of_sayAttribute? hc hs) hr, hd⟩
  | stall hs hlt => exact absurd (length_lt_of_sayAttribute? hs) hlt

/-- Attributes are found one after the other until something comes that starts no attribute. -/
theorem many_of_attributesAhead (hc : c.Before s) (h : AttributesAhead as s r)
    (hx : (r.dropWhile isInline).head? = some x) (hsign : isQuote x ∨ x = '@') :
    ∃ as' d, many sayAttribute? c = .ok as' d ∧
      as'.map SayAttribute.bare = as.map SayAttribute.bare ∧ d.Before r := by
  induction h generalizing c with
  | nil s =>
    obtain ⟨hm, hn⟩ := starts_no_attribute hsign
    exact ⟨[], _, many_of_none (no_sayAttribute_before hc hx hm hn), rfl, hc⟩
  | cons h hs ih =>
    obtain ⟨a', e, ha, hbare, he⟩ := sayAttribute?_of_attributeAhead hc h
    obtain ⟨as', d, hm, has, hd⟩ := ih (before_of_rest he) hx
    refine ⟨a' :: as', d, many_of_some ha (length_lt_of_sayAttribute? ha) hm, ?_, hd⟩
    rw [List.map_cons, List.map_cons, hbare, has]

theorem temporaryAhead_of_temporaryAttributes (hc : c.Before s)
    (h : temporaryAttributes c = .ok as d) : ∃ r, TemporaryAhead as s r ∧ d.Before r := by
  cases temporary_of_temporaryAttributes h with
  | absent hs => exact ⟨s, .absent s, before_skipBlanks.mpr hc⟩
  | returned hs hd => exact ⟨s, .absent s, before_of_rest_eq hd hc⟩
  | marked hs ha hne =>
    obtain ⟨-, hat, -⟩ := split_of_punct hs
    obtain ⟨r, hr, hd⟩ := attributesAhead_of_many (before_of_rest rfl) ha
    exact ⟨r, .marked (hc.symm.trans hat) hr hne, hd⟩

theorem temporaryAttributes_of_temporaryAhead (hc : c.Before s) (h : TemporaryAhead as s r)
    (hx : (r.dropWhile isInline).head? = some x) (hq : isQuote x) :
    ∃ as' d, temporaryAttributes c = .ok as' d ∧
      as'.map SayAttribute.bare = as.map SayAttribute.bare ∧ d.Before r := by
  cases h with
  | absent =>
    have hsign : punct ['@'] c = .ok none c.skipBlanks := by
      refine no_punct_before hc ?_
      rw [hx]
      rintro ⟨⟩
      exact absurd hq (by decide)
    refine ⟨[], c.skipBlanks, ?_, rfl, before_skipBlanks.mpr hc⟩
    unfold temporaryAttributes
    rw [run_bind_of_ok run_get, run_bind_of_ok hsign]
    rfl
  | marked ha h hne =>
    obtain ⟨sign, e, hsign, -, he⟩ :=
      punct_before (x := '@') (by decide) (fun h => absurd h (by decide)) (before_of_ahead ha hc)
    obtain ⟨as', d, hm, has, hd⟩ := many_of_attributesAhead (before_of_rest he) h hx (.inl hq)
    refine ⟨as', d, ?_, has, hd⟩
    unfold temporaryAttributes
    rw [run_bind_of_ok run_get, run_bind_of_ok hsign]
    simp only
    rw [run_bind_of_ok hm, if_neg (not_isEmpty_of_bare has hne)]
    rfl

/-! Literals. -/

theorem literalAhead_of_string (hc : c.Before s) (h : string c = .ok (some l) d) :
    LiteralAhead (literalOf l) s d.rest := by
  obtain ⟨q, ls, hq, hls, hl, hr⟩ := letters_of_string h
  have hliteral : literalOf l =
      ⟨ls.map Letter.value, q, q :: (ls.flatMap Letter.text ++ [q]), l.span⟩ := by
    rw [literalOf, Lexeme.value, hl]
    rfl
  rw [hliteral]
  exact ⟨hq, hc.symm.trans hr, ls, hls, rfl, rfl⟩

theorem string_of_literalAhead {what : StringLiteral} (hc : c.Before s)
    (h : LiteralAhead what s r) :
    ∃ l d, string c = .ok (some l) d ∧ (literalOf l).bare = what.bare ∧ d.rest = r := by
  obtain ⟨hq, hs, ls, hls, hv, hraw⟩ := h
  have hr : c.skipBlanks.rest = what.raw ++ r := hc.trans hs
  refine ⟨_, _, string_of_letters hq hls hraw hr, ?_, rest_take_of_append hr _⟩
  have hhead : what.raw.headD '"' = what.quote := by rw [hraw]; rfl
  change StringLiteral.mk (ls.map Letter.value) (what.raw.headD '"') what.raw .blank = what.bare
  rw [hhead, ← hv]
  rfl

theorem openAhead_of_string (hc : c.Before s) (h : string c = .error f d) :
    f.cause = .unterminatedString ∧ OpenAhead s := by
  rw [string_eq] at h
  cases hr : c.skipBlanks.rest with
  | nil =>
    rw [hr] at h
    cases h
  | cons q t =>
    rw [hr] at h
    by_cases hq : isQuote q
    · simp only [hq, if_true] at h
      cases hb : body? q t with
      | none =>
        simp only [hb] at h
        cases h
        exact ⟨rfl, q, t, hq, hc.symm.trans hr, fun ht => closed_iff.mp ht hb⟩
      | some vn => simp [hb] at h
    · simp [hq] at h

theorem string_of_openAhead (hc : c.Before s) (h : OpenAhead s) :
    ∃ f d, string c = .error f d := by
  obtain ⟨q, t, hq, hs, ht⟩ := h
  have hr : c.skipBlanks.rest = q :: t := hc.trans hs
  have hb : body? q t = none := by
    by_contra hb
    exact ht (closed_iff.mpr hb)
  rw [string_eq, hr]
  simp only [hq, if_true, hb]
  exact ⟨_, _, rfl⟩

/-! Parts that always come to something. -/

/-- The reader fails nowhere. -/
def Total {α : Type} (r : Reader α) : Prop := ∀ c, ∃ a d, r c = .ok a d

namespace Total

variable {α β : Type} {r : Reader α} {g : α → Reader β}

theorem bind (h : Total r) (hg : ∀ a, Total (g a)) : Total (r >>= g) := by
  intro c
  obtain ⟨a, e, hr⟩ := h c
  obtain ⟨b, d, hb⟩ := hg a e
  exact ⟨b, d, (run_bind_of_ok hr).trans hb⟩

theorem of_bind_error (h : Total r) (hc : (r >>= g) c = .error f d) :
    ∃ a e, r c = .ok a e ∧ g a e = .error f d := by
  rcases run_bind_eq_error.mp hc with hr | hr
  · obtain ⟨a, e, ha⟩ := h c
    rw [ha] at hr
    cases hr
  · exact hr

theorem not_error (h : Total r) : r c ≠ .error f d := by
  obtain ⟨a, e, ha⟩ := h c
  rw [ha]
  nofun

theorem atEnd : Total Reader.atEnd := fun _ => ⟨_, _, atEnd_eq⟩

theorem name : Total Reader.name := by
  intro c
  rw [name_eq]
  cases name? c.skipBlanks.rest <;> exact ⟨_, _, rfl⟩

theorem punct (x : Char) : Total (Reader.punct [x]) := by
  intro c
  rw [punct_eq (by simp)]
  by_cases hs : startsWith [x] c.skipBlanks.rest
  · rw [if_pos hs]
    exact ⟨_, _, rfl⟩
  · rw [if_neg hs]
    exact ⟨_, _, rfl⟩

/-- Going back to a mark. -/
theorem back (k : Nat) (b : β) :
    Total (do modify fun c => { c with pos := k }; return b : Reader β) :=
  fun _ => ⟨_, _, rfl⟩

theorem sayAttribute? : Total Reader.sayAttribute? := by
  intro c
  unfold Reader.sayAttribute?
  rw [run_bind_of_ok run_get]
  refine bind (punct '-') (fun minus => bind name fun n => ?_) c
  cases n with
  | none => exact back _ _
  | some n => exact fun c => ⟨_, c, rfl⟩

theorem attributes : Total (many Reader.sayAttribute?) := by
  intro c
  induction hn : c.rest.length using Nat.strong_induction_on generalizing c with
  | _ n ih =>
    obtain ⟨o, d, ho⟩ := sayAttribute? c
    cases o with
    | none => exact ⟨[], d, many_of_none ho⟩
    | some a =>
      have hlt := length_lt_of_sayAttribute? ho
      obtain ⟨as, e, hm⟩ := ih d.rest.length (hn ▸ hlt) d rfl
      exact ⟨a :: as, e, many_of_some ho hlt hm⟩

theorem temporaryAttributes : Total Reader.temporaryAttributes := by
  intro c
  unfold Reader.temporaryAttributes
  rw [run_bind_of_ok run_get]
  refine bind (punct '@') (fun sign => ?_) c
  cases sign with
  | none => exact fun c => ⟨_, c, rfl⟩
  | some sign =>
    refine bind attributes fun as => ?_
    by_cases hempty : as.isEmpty
    · rw [if_pos hempty]
      exact back _ _
    · rw [if_neg hempty]
      exact fun c => ⟨_, c, rfl⟩

end Total

/-! The whole line. -/

/-- A speaker before a literal is found as it stands there. -/
theorem speaker_of_speakerAhead (hc : c.Before s) (h : SpeakerAhead p s t)
    (hx : (t.dropWhile isInline).head? = some x) (hq : isQuote x) :
    ∃ who as ts e₁ e₂ e₃, string c = .ok none c.skipBlanks ∧
      name c = .ok (some who) e₁ ∧ many sayAttribute? e₁ = .ok as e₂ ∧
      temporaryAttributes e₂ = .ok ts e₃ ∧ Speaker.bare ⟨who.value, as, ts⟩ = p.bare ∧
      e₃.Before t := by
  obtain ⟨u, v, hname, has, hts⟩ := h
  obtain ⟨y, hy, hsign⟩ := hts.exists_sign hx hq
  obtain ⟨who, e₁, hwho, hvalue, he₁⟩ := name_of_nameAhead hc hname
  obtain ⟨as, e₂, ha, hbare, he₂⟩ := many_of_attributesAhead (before_of_rest he₁) has hy hsign
  obtain ⟨ts, e₃, ht, hbare', he₃⟩ := temporaryAttributes_of_temporaryAhead he₂ hts hx hq
  have hstring : string c = .ok none c.skipBlanks := by
    obtain ⟨z, w, hz, hstart, -⟩ := hname.isName.exists_cons
    exact no_string_before (before_of_ahead hname.ahead hc) (by rw [hz]; rfl)
      (isInline_of_start hstart) (isQuote_of_name (isNameChar_of_start hstart))
  refine ⟨who, as, ts, e₁, e₂, e₃, hstring, hwho, ha, ht, ?_, he₃⟩
  rw [Speaker.bare, Speaker.bare, hvalue, hbare, hbare']

theorem says_of_say? {line : Say} (h : say? c = .ok (some line) d) : Says c.rest line := by
  have hc : c.Before c.rest := before_of_rest rfl
  cases spoken_of_say? h with
  | narration hw hend => exact .narration (literalAhead_of_string hc hw) (isOver_of_atEnd hend)
  | dialogue hn hwho ha ht hw hend =>
    obtain ⟨u, has, hu⟩ := attributesAhead_of_many (before_of_rest rfl) ha
    obtain ⟨v, hts, hv⟩ := temporaryAhead_of_temporaryAttributes hu ht
    exact .dialogue ⟨_, u, nameAhead_of_name hc hwho, has, hts⟩ (literalAhead_of_string hv hw)
      (isOver_of_atEnd hend)

theorem say?_of_says {line : Say} (h : Says c.rest line) :
    ∃ line' d, say? c = .ok (some line') d ∧ line'.bare = line.bare := by
  have hc : c.Before c.rest := before_of_rest rfl
  cases h with
  | narration hl hr =>
    obtain ⟨what, e, hw, hbare, rfl⟩ := string_of_literalAhead hc hl
    have hend : atEnd e = .ok true e.skipBlanks := by rw [atEnd_eq_isOver, hr]
    refine ⟨_, _, say?_of_spoken (.narration hw hend), ?_⟩
    rw [Say.bare, Say.bare, hbare]
  | dialogue hp hl hr =>
    obtain ⟨x, hx, hq⟩ := hl.exists_quote
    obtain ⟨who, as, ts, e₁, e₂, e₃, hn, hwho, ha, ht, hspeaker, he₃⟩ :=
      speaker_of_speakerAhead hc hp hx hq
    obtain ⟨what, e₄, hw, hbare, rfl⟩ := string_of_literalAhead he₃ hl
    have hend : atEnd e₄ = .ok true e₄.skipBlanks := by rw [atEnd_eq_isOver, hr]
    refine ⟨_, _, say?_of_spoken (.dialogue hn hwho ha ht hw hend), ?_⟩
    rw [Say.bare, Say.bare, Option.map_some, Option.map_some, hspeaker, hbare]

theorem say?_of_breaksOff (h : BreaksOff c.rest) : ∃ f d, say? c = .error f d := by
  have hc : c.Before c.rest := before_of_rest rfl
  unfold say?
  rw [run_bind_of_ok run_get]
  cases h with
  | narration h =>
    obtain ⟨f, d, hw⟩ := string_of_openAhead hc h
    exact ⟨f, d, run_bind_of_error hw⟩
  | dialogue hp h =>
    obtain ⟨x, hx, hq⟩ := h.exists_quote
    obtain ⟨who, as, ts, e₁, e₂, e₃, hn, hwho, ha, ht, -, he₃⟩ :=
      speaker_of_speakerAhead hc hp hx hq
    obtain ⟨f, d, hw⟩ := string_of_openAhead he₃ h
    refine ⟨f, d, ?_⟩
    rw [run_bind_of_ok hn]
    simp only
    rw [run_bind_of_ok ((name_skipBlanks c).trans hwho)]
    simp only
    rw [run_bind_of_ok ha, run_bind_of_ok ht, run_bind_of_error hw]

theorem breaksOff_of_say? (h : say? c = .error f d) :
    f.cause = .unterminatedString ∧ BreaksOff c.rest := by
  have hc : c.Before c.rest := before_of_rest rfl
  -- After a literal only blanks are looked at, and the cursor may go back.
  have hclosed : ∀ (k : Nat) (line : Say), Total (do
      if ← atEnd then return some line
      modify fun c => { c with pos := k }
      return none : Reader (Option Say)) := by
    intro k line
    refine Total.atEnd.bind fun ended => ?_
    cases ended with
    | true => exact fun c => ⟨_, c, rfl⟩
    | false => exact Total.back k none
  unfold say? at h
  rw [run_bind_of_ok run_get] at h
  rcases run_bind_eq_error.mp h with hw | ⟨what, e, hw, h⟩
  · obtain ⟨hf, hopen⟩ := openAhead_of_string hc hw
    exact ⟨hf, .narration hopen⟩
  · cases what with
    | some what => exact absurd h (hclosed c.pos _).not_error
    | none =>
      obtain rfl := eq_skipBlanks_of_string hw
      obtain ⟨who, e₁, hwho, h⟩ := Total.name.of_bind_error h
      cases who with
      | none => cases h
      | some who =>
        obtain ⟨as, e₂, ha, h⟩ := Total.attributes.of_bind_error h
        obtain ⟨ts, e₃, ht, h⟩ := Total.temporaryAttributes.of_bind_error h
        rcases run_bind_eq_error.mp h with hw₃ | ⟨what, e₄, hw₃, h⟩
        · rw [name_skipBlanks] at hwho
          obtain ⟨u, has, hu⟩ := attributesAhead_of_many (before_of_rest rfl) ha
          obtain ⟨v, hts, hv⟩ := temporaryAhead_of_temporaryAttributes hu ht
          obtain ⟨hf, hopen⟩ := openAhead_of_string hv hw₃
          exact ⟨hf, .dialogue (p := ⟨who.value, as, ts⟩)
            ⟨_, u, nameAhead_of_name hc hwho, has, hts⟩ hopen⟩
        · cases what with
          | some what => exact absurd h (hclosed c.pos _).not_error
          | none => exact absurd h (Total.back c.pos none).not_error

/-- The search for a spoken line finds one exactly where the text has the form of one, and then it
finds what the text says. It fails exactly where a literal of such a line is not closed. In all
other cases it finds nothing, and at most the blanks are skipped. -/
theorem say?_iff_says (c : Cursor) :
    ((∃ line d, say? c = .ok (some line) d) ↔ ∃ line, Says c.rest line) ∧
    (∀ line d, say? c = .ok (some line) d →
      Says c.rest line ∧ ∀ line', Says c.rest line' → line'.bare = line.bare) ∧
    ((∃ f d, say? c = .error f d) ↔ BreaksOff c.rest) ∧
    (∀ f d, say? c = .error f d → f.cause = .unterminatedString) ∧
    ∀ d, say? c = .ok none d →
      d.content = c.content ∧ (d.pos = c.pos ∨ d.pos = c.skipBlanks.pos) := by
  refine ⟨⟨?_, ?_⟩, ?_, ⟨?_, say?_of_breaksOff⟩, ?_, ?_⟩
  · rintro ⟨line, d, h⟩
    exact ⟨line, says_of_say? h⟩
  · rintro ⟨line, h⟩
    obtain ⟨line', d, h', -⟩ := say?_of_says h
    exact ⟨line', d, h'⟩
  · intro line d h
    refine ⟨says_of_say? h, fun line' h' => ?_⟩
    obtain ⟨line'', d', hd', hbare⟩ := say?_of_says h'
    rw [h] at hd'
    cases hd'
    exact hbare.symm
  · rintro ⟨f, d, h⟩
    exact (breaksOff_of_say? h).2
  · intro f d h
    exact (breaksOff_of_say? h).1
  · intro d h
    refine ⟨(Local.say?.leads_of_ok h).content, ?_⟩
    cases spoken_of_say? h with
    | none hd => exact hd.imp_right (congrArg Cursor.pos)

/-- Keywords as the names of a speaker and of an attribute, and a comment. -/
def staged : List Char := "show -happy @ at \"Hi\" # note".toList

theorem say?_iff_says_staged : ∃ line d,
    say? (.ofContent staged ⟨1, 1, 0, 28⟩) = .ok (some line) d ∧
      line.bare = ⟨some ⟨"show".toList, [⟨"happy".toList, true, .blank⟩],
        [⟨"at".toList, false, .blank⟩]⟩, ⟨"Hi".toList, '"', "\"Hi\"".toList, .blank⟩, .blank⟩ := by
  have hspeaker : SpeakerAhead ⟨"show".toList, [⟨"happy".toList, true, .blank⟩],
      [⟨"at".toList, false, .blank⟩]⟩ staged " \"Hi\" # note".toList := by
    refine ⟨" -happy @ at \"Hi\" # note".toList, " @ at \"Hi\" # note".toList, ?_, ?_, ?_⟩
    · exact ⟨⟨'s', rfl, rfl⟩, List.all_eq_true.mp rfl, by rintro _ ⟨⟩; rfl, rfl⟩
    · refine .cons (.negated (t := "happy @ at \"Hi\" # note".toList) rfl ?_) (.nil _)
      exact ⟨⟨'h', rfl, rfl⟩, List.all_eq_true.mp rfl, by rintro _ ⟨⟩; rfl, rfl⟩
    · refine .marked (t := " at \"Hi\" # note".toList) rfl (.cons (.plain ?_) (.nil _)) nofun
      exact ⟨⟨'a', rfl, rfl⟩, List.all_eq_true.mp rfl, by rintro _ ⟨⟩; rfl, rfl⟩
  have hliteral : LiteralAhead ⟨"Hi".toList, '"', "\"Hi\"".toList, .blank⟩
      " \"Hi\" # note".toList " # note".toList :=
    ⟨rfl, rfl, [.plain 'H', .plain 'i'], by simp [Letter.Fits], rfl, rfl⟩
  have hsays : Says staged ⟨some _, _, .blank⟩ := .dialogue hspeaker hliteral rfl
  obtain ⟨hsome, hform, -⟩ := say?_iff_says (.ofContent staged ⟨1, 1, 0, 28⟩)
  obtain ⟨line, d, hread⟩ := hsome.mpr ⟨_, hsays⟩
  exact ⟨line, d, hread, ((hform line d hread).2 _ hsays).symm⟩

end NovelScript.Reader
