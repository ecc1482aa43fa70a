import NovelScript.Proofs.Alike
import NovelScript.Proofs.Canonical

/-!
# Reading a part again from its canonical text

`Retold` says of a part that a reader found in a line that the reader finds it again in the text
that stands for it, with whatever follows, and that the text is alike to the part of the line.
Readers that are put together find again what is put together from their texts.
-/

namespace NovelScript

open Line Text

/-- The text lies ahead of the cursor, up to the blanks at its start. -/
def Line.Cursor.Before (c : Cursor) (s : List Char) : Prop :=
  c.skipBlanks.rest = s.dropWhile isInline

namespace Reader

variable {α β : Type} {r : Reader α} {f : α → Reader β} {c d : Cursor} {p q s s' s'' t w : List Char}
  {T U : List Char → Prop} {Q : α → Prop} {R : β → Prop} {x : Char}

/-- Between the texts `s` and `s'` ahead the reader found something that stands for itself as the
text `p`: before a text that satisfies `T`, the reader finds in it what satisfies `Q`. -/
structure Retold (r : Reader α) (s s' p : List Char) (T : List Char → Prop) (Q : α → Prop) :
    Prop where
  reads : ∀ c t, T t → c.Before (p ++ t) → ∃ a d, r c = .ok a d ∧ Q a ∧ d.Before t
  alike : ∀ t, T t → Alike s' t → Alike s (p ++ t)

theorem before_skipBlanks : c.skipBlanks.Before t ↔ c.Before t := by
  rw [Cursor.Before, Cursor.skipBlanks_idem, Cursor.Before]

theorem before_of_rest (h : c.rest = t) : c.Before t := by
  rw [Cursor.Before, Cursor.rest_skipBlanks, h]

/-- A text that starts with no blank lies exactly where the blanks end. -/
theorem Before.rest_eq (h : c.Before (p ++ t)) (hx : p.head? = some x) (hi : isInline x = false) :
    c.skipBlanks.rest = p ++ t := by
  cases p with
  | nil => cases hx
  | cons y p =>
    cases hx
    rw [h, List.cons_append, dropWhile_of_not_inline hi]

namespace Retold

theorem pure {a : α} (h : Q a) : Retold (Pure.pure a) s s [] T Q where
  reads c _ _ hb := ⟨a, c, rfl, h, hb⟩
  alike _ _ h := h

theorem imp {Q' : α → Prop} (h : Retold r s s' p T Q) (hq : ∀ a, Q a → Q' a)
    (ht : ∀ t, U t → T t) : Retold r s s' p U Q' where
  reads c t hu hb := by
    obtain ⟨a, d, hr, ha, hd⟩ := h.reads c t (ht t hu) hb
    exact ⟨a, d, hr, hq a ha, hd⟩
  alike t hu := h.alike t (ht t hu)

/-- The text of two parts is the text of the first and then that of the second. -/
theorem bind {a : α} (h : Retold r s s' p T Q) (ha : Q a)
    (hf : ∀ a, Q a → Retold (f a) s' s'' q U R) (hT : ∀ t, U t → T (q ++ t)) :
    Retold (r >>= f) s s'' (p ++ q) U R where
  reads c t hu hb := by
    rw [List.append_assoc] at hb
    obtain ⟨b, e, hr, hb, he⟩ := h.reads c (q ++ t) (hT t hu) hb
    obtain ⟨b', d, hr', hb', hd⟩ := (hf b hb).reads e t hu he
    exact ⟨b', d, (run_bind_of_ok hr).trans hr', hb', hd⟩
  alike t hu hd := by
    rw [List.append_assoc]
    exact h.alike (q ++ t) (hT t hu) ((hf a ha).alike t hu hd)

/-- The first part has no text. -/
theorem after {a : α} (h : Retold r s s' [] T Q) (ha : Q a)
    (hf : ∀ a, Q a → Retold (f a) s' s'' q U R) (hT : ∀ t, U t → T (q ++ t)) :
    Retold (r >>= f) s s'' q U R := h.bind ha hf hT

/-- The last part has no text. -/
theorem before {a : α} (h : Retold r s s' p T Q) (ha : Q a)
    (hf : ∀ a, Q a → Retold (f a) s' s'' [] U R) (hT : ∀ t, U t → T t) :
    Retold (r >>= f) s s'' p U R := by
  have hb := h.bind ha hf hT
  rwa [List.append_nil] at hb

theorem map {g : α → β} (h : Retold r s s' p T fun a => R (g a)) : Retold (g <$> r) s s' p T R where
  reads c t ht hb := by
    obtain ⟨a, d, hr, ha, hd⟩ := h.reads c t ht hb
    exact ⟨g a, d, run_map_of_ok hr, ha, hd⟩
  alike := h.alike

theorem required {what : String} {r : Reader (Option α)}
    (h : Retold r s s' p T fun o => ∃ a, o = some a ∧ Q a) :
    Retold (Reader.required what r) s s' p T Q where
  reads c t ht hb := by
    obtain ⟨o, d, hr, ⟨a, rfl, ha⟩, hd⟩ := h.reads c t ht hb
    exact ⟨a, d, required_eq_ok.mpr hr, ha, hd⟩
  alike := h.alike

/-- The blanks ahead may have been skipped before. -/
theorem of_skipBlanks (h : Retold r c.skipBlanks.rest s' p T Q) : Retold r c.rest s' p T Q where
  reads := h.reads
  alike t ht ha := by
    have hs := h.alike t ht ha
    rw [Cursor.rest_skipBlanks] at hs
    exact hs.of_dropWhile

/-- A text may have a space before it. -/
theorem space (h : Retold r s s' p T Q) (hp : p ≠ []) : Retold r s s' (' ' :: p) T Q where
  reads := h.reads
  alike t ht hd := (h.alike t ht hd).space (by simp [hp])

end Retold

/-! Lexemes. -/

/-- A lexeme with the same word was found. -/
def SameWord (l : Lexeme) (o : Option Lexeme) : Prop := ∃ l', o = some l' ∧ l'.word = l.word

theorem alike_of_lump (hr : c.skipBlanks.rest = w ++ d.rest) (hw : Lump w d.rest) (hw' : Lump w t)
    (h : Alike d.rest t) : Alike c.rest (w ++ t) := by
  refine Alike.of_dropWhile ?_
  rw [← Cursor.rest_skipBlanks, hr]
  exact h.cons hw hw'

theorem alike_of_whole (hr : c.skipBlanks.rest = p ++ d.rest) (hp : Whole p) (hs : Shut p)
    (hd : Apart p d.rest) (ht : Parted t) (h : Alike d.rest t) : Alike c.rest (p ++ t) := by
  refine Alike.of_dropWhile ?_
  rw [← Cursor.rest_skipBlanks, hr]
  exact hp.alike_append hs h hd (ht.apart p)

theorem split_of_name {l : Lexeme} (h : name c = .ok (some l) d) : ∃ w, l.word = .name w ∧
    IsName w ∧ c.skipBlanks.rest = w ++ d.rest ∧
      ∀ x, d.rest.head? = some x → isNameChar x = false := by
  rw [name_eq] at h
  cases hn : name? c.skipBlanks.rest with
  | none => simp [hn] at h
  | some w =>
    simp only [hn] at h
    cases h
    obtain ⟨hw, r, hr, hx⟩ := split_of_name? hn
    rw [rest_take_of_append hr]
    exact ⟨w, rfl, hw, hr, hx⟩

theorem name_before (hw : IsName w) (ht : ∀ x, t.head? = some x → isNameChar x = false)
    (h : c.Before (w ++ t)) :
    ∃ l d, name c = .ok (some l) d ∧ l.word = .name w ∧ d.rest = t := by
  obtain ⟨x, w', rfl, hx, -⟩ := hw.exists_cons
  have hr : c.skipBlanks.rest = x :: w' ++ t := Before.rest_eq h rfl (isInline_of_start hx)
  have hn : name c = .ok (some (c.skipBlanks.take (x :: w').length (.name (x :: w'))).1)
      (c.skipBlanks.take (x :: w').length (.name (x :: w'))).2 := by
    rw [name_eq, hr, hw.name?_append ht]
  exact ⟨_, _, hn, rfl, rest_take_of_append hr _⟩

theorem retold_name {l : Lexeme} (h : name c = .ok (some l) d) :
    IsName l.value ∧ Retold name c.rest d.rest l.value Parted (SameWord l) := by
  obtain ⟨w, hl, hw, hr, hx⟩ := split_of_name h
  have hv : l.value = w := by rw [Lexeme.value, hl]; rfl
  rw [hv]
  refine ⟨hw, fun c' t ht hb => ?_, fun t ht ha => ?_⟩
  · obtain ⟨l', d', hn, hl', hd⟩ := name_before hw (fun x => ht.not_name) hb
    exact ⟨_, d', hn, ⟨l', rfl, hl'.trans hl.symm⟩, before_of_rest hd⟩
  · exact alike_of_lump hr (.name hw hx) (.name hw fun x => ht.not_name) ha

theorem retold_keyword {k : List Char} {l : Lexeme} (h : keyword k c = .ok (some l) d) :
    IsName k ∧ Retold (keyword k) c.rest d.rest k Parted (SameWord l) := by
  rw [keyword_eq] at h
  by_cases hn : name? c.skipBlanks.rest = some k
  · simp only [hn, if_true] at h
    cases h
    obtain ⟨hw, r, hr, hx⟩ := split_of_name? hn
    have hd : (c.skipBlanks.take k.length (.keyword k)).2.rest = r := rest_take_of_append hr _
    refine ⟨hw, fun c' t ht hb => ?_, fun t ht ha => ?_⟩
    · obtain ⟨x, k', rfl, hx', -⟩ := hw.exists_cons
      have hr' := Before.rest_eq hb rfl (isInline_of_start hx')
      rw [keyword_eq, hr', hw.name?_append fun x => ht.not_name]
      simp only [if_true]
      exact ⟨_, _, rfl, ⟨_, rfl, rfl⟩, before_of_rest (rest_take_of_append hr' _)⟩
    · rw [hd] at ha
      refine Alike.of_dropWhile ?_
      rw [← Cursor.rest_skipBlanks, hr]
      exact ha.cons (.name hw hx) (.name hw fun x => ht.not_name)
  · simp only [hn, if_false] at h
    cases h

theorem retold_no_keyword {k : List Char} (h : keyword k c = .ok none d) :
    Retold (keyword k) c.rest d.rest [] (fun t => name? (t.dropWhile isInline) ≠ some k) (· = none) := by
  rw [keyword_eq] at h
  split at h
  · cases h
  · cases h
    refine ⟨fun c' t ht hb => ?_, fun t ht ha => ?_⟩
    · have hn : name? c'.skipBlanks.rest ≠ some k := by
        rw [hb]
        exact ht
      rw [keyword_eq, if_neg hn]
      exact ⟨_, _, rfl, rfl, before_skipBlanks.mpr hb⟩
    · rw [Cursor.rest_skipBlanks] at ha
      exact ha.of_dropWhile

/-! Signs. -/

theorem startsWith_singleton {cs : List Char} : startsWith [x] cs ↔
    ∃ t, cs = x :: t ∧ (x = '=' → t.head? ≠ some '=') := by
  have hprefix : ∀ y (cs : List Char), [y].isPrefixOf cs ↔ ∃ t, cs = y :: t := by
    intro y cs
    cases cs with
    | nil => simp
    | cons z cs =>
      by_cases hyz : y = z
      · simp [List.isPrefixOf, hyz]
      · simp [List.isPrefixOf, hyz, Ne.symm hyz]
  by_cases hx : x = '='
  · subst hx
    have he : startsWith ['='] cs = (['='].isPrefixOf cs && !(['=', '='].isPrefixOf cs)) := rfl
    rw [he, Bool.and_eq_true, hprefix]
    constructor
    · rintro ⟨⟨t, rfl⟩, hne⟩
      refine ⟨t, rfl, fun _ ht => ?_⟩
      cases t with
      | nil => cases ht
      | cons y t =>
        cases ht
        simp at hne
    · rintro ⟨t, rfl, ht⟩
      refine ⟨⟨t, rfl⟩, ?_⟩
      cases t with
      | nil => rfl
      | cons y t =>
        have hy : y ≠ '=' := fun hy => ht rfl (by rw [hy]; rfl)
        simp [List.isPrefixOf, Ne.symm hy]
  · have hne : ([x] == ['=']) = false := by simpa using hx
    rw [startsWith, hne, Bool.false_and, Bool.not_false, Bool.and_true, hprefix]
    constructor
    · rintro ⟨t, ht⟩
      exact ⟨t, ht, fun h => absurd h hx⟩
    · rintro ⟨t, ht, -⟩
      exact ⟨t, ht⟩

/-- The sign stands for itself on a line. -/
def IsSingle (x : Char) : Prop := isNameStart x = false ∧ isQuote x = false ∧ isInline x = false

instance (x : Char) : Decidable (IsSingle x) := inferInstanceAs (Decidable (_ ∧ _ ∧ _))

theorem split_of_punct {l : Lexeme} (h : punct [x] c = .ok (some l) d) :
    l.word = .punct [x] ∧ c.skipBlanks.rest = x :: d.rest ∧ (x = '=' → d.rest.head? ≠ some '=') := by
  rw [punct_eq (by simp)] at h
  by_cases hs : startsWith [x] c.skipBlanks.rest
  · simp only [hs, if_true] at h
    cases h
    obtain ⟨t, ht, hne⟩ := startsWith_singleton.mp hs
    have hd : (c.skipBlanks.take [x].length (.punct [x])).2.rest = t := rest_take_of_append ht _
    rw [hd]
    exact ⟨rfl, ht, hne⟩
  · simp [hs] at h

theorem punct_before (hx : IsSingle x) (ht : x = '=' → t.head? ≠ some '=')
    (h : c.Before (x :: t)) :
    ∃ l d, punct [x] c = .ok (some l) d ∧ l.word = .punct [x] ∧ d.rest = t := by
  have hr : c.skipBlanks.rest = x :: t := Before.rest_eq (p := [x]) h rfl hx.2.2
  have hp : punct [x] c = .ok (some (c.skipBlanks.take [x].length (.punct [x])).1)
      (c.skipBlanks.take [x].length (.punct [x])).2 := by
    rw [punct_eq (by simp), if_pos (startsWith_singleton.mpr ⟨t, hr, ht⟩)]
  exact ⟨_, _, hp, rfl, rest_take_of_append (w := [x]) hr _⟩

theorem retold_punct (hx : IsSingle x) {l : Lexeme} (h : punct [x] c = .ok (some l) d) :
    Retold (punct [x]) c.rest d.rest [x] (fun t => x = '=' → t.head? ≠ some '=') (SameWord l) := by
  obtain ⟨hl, hr, hne⟩ := split_of_punct h
  refine ⟨fun c' t ht hb => ?_, fun t ht ha => ?_⟩
  · obtain ⟨l', d', hp, hl', hd⟩ := punct_before hx ht hb
    exact ⟨_, d', hp, ⟨l', rfl, hl'.trans hl.symm⟩, before_of_rest hd⟩
  · exact alike_of_lump (w := [x]) hr (.sign hx.1 hx.2.1 hx.2.2) (.sign hx.1 hx.2.1 hx.2.2) ha

/-! Literals. -/

theorem split_of_string {l : Lexeme} (h : string c = .ok (some l) d) : ∃ q b v,
    l.word = .string v (q :: b) ∧ isQuote q ∧
      (∀ t, Literal.body? q (b ++ t) = some (v, b.length)) ∧
      c.skipBlanks.rest = q :: b ++ d.rest := by
  rw [string_eq] at h
  cases hr : c.skipBlanks.rest with
  | nil => simp [hr] at h
  | cons q cs =>
    simp only [hr] at h
    by_cases hq : isQuote q
    · simp only [hq, if_true] at h
      cases hb : Literal.body? q cs with
      | none => simp [hb] at h
      | some vn =>
        obtain ⟨v, n⟩ := vn
        obtain ⟨b, r, rfl, rfl, hbody⟩ := Literal.split_of_body? hb
        simp only [hb, List.take_succ_cons, List.take_left] at h
        cases h
        have hd : (c.skipBlanks.take (b.length + 1) (.string v (q :: b))).2.rest = r :=
          rest_take_of_append (w := q :: b) hr _
        rw [hd]
        exact ⟨q, b, v, rfl, hq, hbody, rfl⟩
    · simp [hq] at h

theorem retold_string {l : Lexeme} (h : string c = .ok (some l) d) :
    (literalOf l).raw ≠ [] ∧
      Retold string c.rest d.rest (literalOf l).raw (fun _ => True) (SameWord l) := by
  obtain ⟨q, b, v, hl, hq, hb, hr⟩ := split_of_string h
  have hraw : (literalOf l).raw = q :: b := by rw [literalOf, hl]; rfl
  have hbody : IsBody q b := fun t => ⟨v, hb t⟩
  rw [hraw]
  refine ⟨List.cons_ne_nil _ _, fun c' t _ hb' => ?_, fun t _ ha => ?_⟩
  · have hr' := Before.rest_eq (p := q :: b) hb' rfl (isInline_of_quote hq)
    obtain ⟨l', d', hs, hl', hd⟩ := string_of_literal hr' hq (hb t)
    exact ⟨_, d', hs, ⟨l', rfl, hl'.trans hl.symm⟩, before_of_rest hd⟩
  · exact alike_of_lump hr (.literal hq hbody) (.literal hq hbody) ha

/-- Nothing is found where the text starts with no mark. -/
theorem no_string_before (h : c.Before (p ++ t)) (hx : p.head? = some x)
    (hi : isInline x = false) (hq : isQuote x = false) : string c = .ok none c.skipBlanks := by
  refine string_of_not_quote fun q s hs => ?_
  rw [Before.rest_eq h hx hi] at hs
  cases p with
  | nil => cases hx
  | cons y p =>
    cases hx
    cases hs
    exact hq

/-! Bracket groups and numbers. -/

theorem isInline_of_closer? {y : Char} (h : closer? x = some y) : isInline x = false := by
  unfold closer? at h
  split at h
  all_goals first | rfl | cases h

theorem no_group_before (h : c.Before (p ++ t)) (hx : p.head? = some x)
    (hi : isInline x = false) (hc : closer? x = none) : group c = .ok none c.skipBlanks := by
  cases p with
  | nil => cases hx
  | cons y p =>
    cases hx
    have hg : group? (x :: p ++ t) = .ok none := by
      rw [List.cons_append, group?, hc]
    rw [group_eq, Before.rest_eq h rfl hi, hg, takeFragment_eq]

theorem split_of_number {l : Lexeme} (h : number c = .ok (some l) d) : ∃ n, l.word = .fragment n ∧
    Numeric n ∧ c.skipBlanks.rest = n ++ d.rest ∧
      ∀ x, d.rest.head? = some x → isNameChar x = false := by
  rw [number_eq] at h
  cases hn : number? c.skipBlanks.rest with
  | none => simp [hn] at h
  | some n =>
    simp only [hn] at h
    cases h
    obtain ⟨hnum, r, hr, hx⟩ := split_of_number? hn
    rw [rest_take_of_append hr]
    exact ⟨n, rfl, hnum, hr, hx⟩

end Reader

end NovelScript
