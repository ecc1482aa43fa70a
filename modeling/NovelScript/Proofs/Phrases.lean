import NovelScript.Proofs.Expressions
import NovelScript.Grammar.Head

/-!
# Phrases that stand for themselves

Label names, names with dots, fragments and the ends of lines are found again in their canonical
texts. A fragment is found again before the end of the line, and before a colon if one followed it
where it was found, because then it leaves no bracket open.
-/

namespace NovelScript.Reader

open Line Text

variable {c d e : Cursor} {l : Lexeme} {p r s t w : List Char} {x : Char}

theorem eq_skipBlanks_of_punct (h : punct [x] c = .ok none d) : d = c.skipBlanks := by
  rw [punct_eq (by simp)] at h
  split at h <;> cases h
  rfl

theorem no_punct_before (h : c.Before t) (hx : (t.dropWhile isInline).head? ≠ some x) :
    punct [x] c = .ok none c.skipBlanks := by
  rw [punct_eq (by simp), if_neg]
  rw [startsWith_singleton, h]
  rintro ⟨t', ht', -⟩
  exact hx (by rw [ht']; rfl)

theorem retold_no_punct (h : punct [x] c = .ok none d) : Retold (punct [x]) c.rest d.rest []
    (fun t => (t.dropWhile isInline).head? ≠ some x) (· = none) := by
  refine ⟨fun c' t ht hb => ?_, fun t _ ha => ?_⟩
  · exact ⟨none, c'.skipBlanks, no_punct_before hb ht, rfl, before_skipBlanks.mpr hb⟩
  · rw [eq_skipBlanks_of_punct h, Cursor.rest_skipBlanks] at ha
    exact ha.of_dropWhile

/-- A part that starts with a look at the text after the blanks is found again where that look comes
to the same. -/
theorem retold_look {α β : Type} {look : Reader β} {g : List Char → β} {f : β → Reader α} {b : β}
    {T : List Char → Prop} {Q : α → Prop}
    (hl : ∀ c, look c = .ok (g c.skipBlanks.rest) c.skipBlanks)
    (h : Retold (f b) c.skipBlanks.rest s p T Q)
    (hb : ∀ t, T t → g ((p ++ t).dropWhile isInline) = b) :
    Retold (look >>= f) c.rest s p T Q where
  reads c' t ht hb' := by
    obtain ⟨a, d', hr, ha, hd⟩ := h.reads c'.skipBlanks t ht (before_skipBlanks.mpr hb')
    refine ⟨a, d', ?_, ha, hd⟩
    rw [run_bind_of_ok (hl c'), hb', hb t ht]
    exact hr
  alike t ht ha := by
    have ha' := h.alike t ht ha
    rw [Cursor.rest_skipBlanks] at ha'
    exact ha'.of_dropWhile

theorem retold_peekName {α : Type} {f : Option (List Char) → Reader α} {n : Option (List Char)}
    {T : List Char → Prop} {Q : α → Prop} (h : Retold (f n) c.skipBlanks.rest s p T Q)
    (hn : ∀ t, T t → name? ((p ++ t).dropWhile isInline) = n) :
    Retold (peekName >>= f) c.rest s p T Q := retold_look (fun _ => peekName_eq) h hn

theorem name?_dropWhile (hw : IsName w) (ht : Unnamed t) :
    name? ((w ++ t).dropWhile isInline) = some w := by
  obtain ⟨y, w', rfl, hy, -⟩ := hw.exists_cons
  rw [List.cons_append, dropWhile_of_not_inline (isInline_of_start hy), ← List.cons_append,
    hw.name?_append ht]

theorem retold_expectKeyword {k : String} (h : expectKeyword k c = .ok l d) :
    IsName k.toList ∧ Retold (expectKeyword k) c.rest d.rest k.toList Parted fun _ => True := by
  obtain ⟨hn, hret⟩ := retold_keyword (required_eq_ok.mp h)
  refine ⟨hn, Retold.required (hret.imp ?_ fun _ h => h)⟩
  rintro o ⟨l', rfl, -⟩
  exact ⟨l', rfl, trivial⟩

theorem expectName_of_name {what : String} (h : name c = .ok (some l) d) :
    expectName what c = .ok l d := required_eq_ok.mpr h

theorem retold_expectName {what : String} (h : expectName what c = .ok l d) :
    IsName l.value ∧ Retold (expectName what) c.rest d.rest l.value Parted
      fun l' => l'.word = l.word := by
  obtain ⟨hn, hret⟩ := retold_name (required_eq_ok.mp h)
  exact ⟨hn, hret.required⟩

theorem value_of_word {l' : Lexeme} (h : l'.word = l.word) : l'.value = l.value := by
  rw [Lexeme.value, Lexeme.value, h]

/-! Names with dots. -/

theorem dotted_eq_flatMap (ms : List Lexeme) :
    (ms.flatMap fun m => '.' :: m.value) = dotted (ms.map Lexeme.value) := by
  rw [dotted, List.flatMap_map]

theorem retold_dottedName {what : String} {n : List Char} {span : Span}
    (h : dottedName what c = .ok (n, span) d) :
    n ≠ [] ∧ Retold (dottedName what) c.rest d.rest n Parted fun y => y.1 = n := by
  obtain ⟨first, d₁, hfirst, h⟩ := run_bind_eq_ok.mp h
  obtain ⟨ms, d₂, hms, h⟩ := run_bind_eq_ok.mp h
  obtain ⟨hw, hns, htook, -, -, hn⟩ := chain_of_many (required_eq_ok.mp hfirst) hms
  cases h
  rw [dotted_eq_flatMap]
  obtain ⟨y, w', hy, hstart, -⟩ := hw.exists_cons
  refine ⟨by simp [hy], fun c' t ht hb => ?_, fun t ht => ?_⟩
  · have hr := Before.rest_eq hb (x := y) (by rw [hy]; rfl) (isInline_of_start hstart)
    rw [List.append_assoc] at hr
    obtain ⟨first', d₁', hfirst', hv, htakes', hd₁⟩ :=
      name_of_rest hw hr (unnamed_dotted _ fun x => ht.not_name)
    obtain ⟨ms', d₂', hms', hvs, -, hd₂⟩ := many_member_of_rest (l := first') hns hd₁
      (fun x => ht.not_name) (not_hasMember_of_parted ht) htakes'.last
    refine ⟨_, d₂', (run_bind_of_ok (expectName_of_name hfirst')).trans (run_bind_of_ok hms'), ?_,
      before_of_rest hd₂⟩
    rw [dotted_eq_flatMap, hv, hvs]
  · exact alike_of_whole htook.rest (whole_of_forall fun x hx => (mem_names hw hns hx).1)
      (shut_of_forall fun x hx => (mem_names hw hns hx).2) (fun z y _ hy _ => hn y hy) ht

/-! Label names. -/

/-- A label name that differs in its span alone was found. -/
def SameLabel (n n' : LabelName) : Prop := n'.bare = n.bare

theorem bare_label {n n' : LabelName} (hs : n'.scope = n.scope) (hn : n'.name = n.name) :
    n'.bare = n.bare := by
  rw [LabelName.bare, LabelName.bare, hs, hn]

/-- The ways in which a label name is read: a dot and a name, two names with a dot between them, or a
name alone. -/
inductive LabelAt (c : Cursor) : LabelName → Cursor → Prop
  | inner {dot n : Lexeme} {d e : Cursor} (hdot : punct ['.'] c = .ok (some dot) d)
    (hn : name d = .ok (some n) e) : LabelAt c ⟨.inner, n.value, dot.span.cover n.span⟩ e
  | within {first n : Lexeme} {dot : Option Lexeme} {d e f : Cursor}
    (hno : punct ['.'] c = .ok none c.skipBlanks)
    (hfirst : name c.skipBlanks = .ok (some first) d) (hc : d.rest.head? = some '.')
    (hdot : punct ['.'] d = .ok dot e) (hn : name e = .ok (some n) f) :
    LabelAt c ⟨.within first.value, n.value, first.span.cover n.span⟩ f
  | plain {n : Lexeme} {d : Cursor} (hno : punct ['.'] c = .ok none c.skipBlanks)
    (hn : name c.skipBlanks = .ok (some n) d) (hc : d.rest.head? ≠ some '.') :
    LabelAt c ⟨.plain, n.value, n.span⟩ d

theorem labelName_eq_ok_iff {n : LabelName} : labelName c = .ok n d ↔ LabelAt c n d := by
  constructor
  · intro h
    obtain ⟨dot?, d₁, hdot, h⟩ := run_bind_eq_ok.mp h
    cases dot? with
    | some dot =>
      obtain ⟨m, d₂, hm, h⟩ := run_bind_eq_ok.mp h
      cases h
      exact .inner hdot (required_eq_ok.mp hm)
    | none =>
      obtain rfl := eq_skipBlanks_of_punct hdot
      obtain ⟨first, d₂, hfirst, h⟩ := run_bind_eq_ok.mp h
      rw [run_bind_of_ok char?_eq] at h
      split at h
      · next hc =>
        obtain ⟨dot?, d₃, hdot', h⟩ := run_bind_eq_ok.mp h
        obtain ⟨m, d₄, hm, h⟩ := run_bind_eq_ok.mp h
        cases h
        exact .within hdot (required_eq_ok.mp hfirst) hc hdot' (required_eq_ok.mp hm)
      · next hc =>
        cases h
        exact .plain hdot (required_eq_ok.mp hfirst) hc
  · intro h
    unfold labelName
    cases h with
    | inner hdot hn =>
      rw [run_bind_of_ok hdot]
      simp only
      rw [run_bind_of_ok (expectName_of_name hn)]
      rfl
    | within hno hfirst hc hdot hn =>
      rw [run_bind_of_ok hno]
      simp only
      rw [run_bind_of_ok (expectName_of_name hfirst), run_bind_of_ok char?_eq, if_pos hc,
        run_bind_of_ok hdot, run_bind_of_ok (expectName_of_name hn)]
      rfl
    | plain hno hn hc =>
      rw [run_bind_of_ok hno]
      simp only
      rw [run_bind_of_ok (expectName_of_name hn), run_bind_of_ok char?_eq, if_neg hc]
      rfl

/-- Before a name stands no dot. -/
theorem no_dot_before {n : List Char} (hn : IsName n) (hb : c.Before (n ++ t)) :
    punct ['.'] c = .ok none c.skipBlanks := by
  obtain ⟨y, n', rfl, hstart, -⟩ := hn.exists_cons
  refine no_punct_before hb ?_
  rw [List.cons_append, dropWhile_of_not_inline (isInline_of_start hstart)]
  rintro ⟨⟩
  exact absurd hstart (by decide)

theorem name_skipBlanks_before {n : List Char} (hn : IsName n) (hb : c.Before (n ++ t))
    (ht : Unnamed t) : ∃ l d, name c.skipBlanks = .ok (some l) d ∧ l.value = n ∧ d.rest = t := by
  obtain ⟨y, n', hy, hstart, -⟩ := hn.exists_cons
  have hr := Before.rest_eq hb (x := y) (by rw [hy]; rfl) (isInline_of_start hstart)
  obtain ⟨l, d, hl, hv, -, hd⟩ := name_of_rest (c := c.skipBlanks) hn
    (by rw [Cursor.skipBlanks_idem]; exact hr) ht
  exact ⟨l, d, hl, hv, hd⟩

/-- A text that starts with a name starts with neither a colon nor a blank. -/
theorem starts_of_name {n : List Char} (hn : IsName n) (r : List Char) :
    ∃ y p, n ++ r = y :: p ∧ y ≠ ':' ∧ isInline y = false := by
  obtain ⟨y, w, rfl, hstart, -⟩ := hn.exists_cons
  refine ⟨y, _, List.cons_append, ?_, isInline_of_start hstart⟩
  rintro rfl
  exact absurd hstart (by decide)

/-- The dot inside a label name, which no blank stands before. -/
theorem retold_dot {dot? : Option Lexeme} (hc : c.rest.head? = some '.')
    (h : punct ['.'] c = .ok dot? d) :
    Retold (punct ['.']) c.rest d.rest ['.'] (fun _ => True) fun _ => True := by
  cases dot? with
  | none =>
    obtain ⟨u, hu⟩ := List.head?_eq_some_iff.mp hc
    have hskip : c.skipBlanks = c := Cursor.skipBlanks_eq_self (by rw [hu]; rfl) (by decide)
    rw [punct_eq (by simp), hskip, hu, if_pos (startsWith_singleton.mpr
      ⟨u, rfl, fun he => absurd he (by decide)⟩)] at h
    cases h
  | some dot =>
    exact (retold_punct (by decide) h).imp (fun _ _ => trivial) fun t _ he => absurd he (by decide)

theorem retold_labelName {n : LabelName} (h : labelName c = .ok n d) :
    (∃ y p, n.text = y :: p ∧ y ≠ ':' ∧ isInline y = false) ∧
      Retold labelName c.rest d.rest n.text Parted (SameLabel n) := by
  cases labelName_eq_ok_iff.mp h with
  | @inner dot m d₁ _ hdot hn =>
    obtain ⟨-, hname⟩ := retold_name hn
    refine ⟨⟨'.', _, rfl, by decide, rfl⟩, ?_⟩
    refine Retold.bind (p := ['.']) (retold_punct (by decide) hdot) ⟨dot, rfl, rfl⟩ ?_
      fun t _ h => absurd h (by decide)
    rintro _ ⟨dot', rfl, -⟩
    refine hname.required.before rfl (fun m' hm' => .pure ?_) fun _ h => h
    exact bare_label rfl (value_of_word hm')
  | @within first m dot d₁ d₂ _ hno hfirst hc hdot hn =>
    obtain ⟨hw, htakes, hn₁⟩ := takes_of_name hfirst
    rw [Cursor.skipBlanks_idem] at htakes
    have hdotret := retold_dot hc hdot
    have hmret := (retold_name hn).2
    refine ⟨starts_of_name hw _, fun c' t ht hb => ?_, fun t ht ha => ?_⟩
    · -- Blanks may stand after the dot, but not in the canonical text.
      have hb' : c'.Before (first.value ++ '.' :: (m.value ++ t)) := by
        simpa [LabelName.text] using hb
      obtain ⟨first', d₁', hfirst', hv, hd₁⟩ :=
        name_skipBlanks_before hw hb' (by rintro z ⟨⟩; decide)
      obtain ⟨dot', d₂', hdot', -, hd₂⟩ :=
        hdotret.reads d₁' (m.value ++ t) trivial (before_of_rest hd₁)
      obtain ⟨_, d₃', hm', ⟨m', rfl, hmv⟩, hd₃⟩ := hmret.reads d₂' t ht hd₂
      refine ⟨_, d₃', labelName_eq_ok_iff.mpr (.within (no_dot_before hw hb') hfirst'
        (by rw [hd₁]; rfl) hdot' hm'), bare_label ?_ (value_of_word hmv), hd₃⟩
      simp only [hv]
    · have ha' := hdotret.alike _ trivial (hmret.alike t ht ha)
      have he : LabelName.text ⟨.within first.value, m.value, first.span.cover m.span⟩ ++ t =
          first.value ++ (['.'] ++ (m.value ++ t)) := by simp [LabelName.text]
      rw [he]
      exact alike_of_lump htakes.took.rest (.name hw hn₁)
        (.name hw (by rintro z ⟨⟩; decide)) ha'
  | @plain l _ hno hn hc =>
    obtain ⟨hw, htakes, hn₁⟩ := takes_of_name hn
    rw [Cursor.skipBlanks_idem] at htakes
    have hstarts := starts_of_name hw []
    rw [List.append_nil] at hstarts
    refine ⟨hstarts, fun c' t ht hb => ?_, fun t ht ha => ?_⟩
    · obtain ⟨l', d', hl', hv, hd⟩ := name_skipBlanks_before hw hb fun z => ht.not_name
      refine ⟨_, d', labelName_eq_ok_iff.mpr (.plain (no_dot_before hw hb) hl' ?_),
        bare_label rfl hv, before_of_rest hd⟩
      rw [hd]
      intro hdot
      obtain he | he := ht '.' hdot <;> cases he
    · exact alike_of_lump htakes.took.rest (.name hw hn₁) (.name hw fun z => ht.not_name) ha

/-! Fragments and the ends of lines. -/

theorem fragment_of_rest {g : List Char} {k : Nat} (hg : IsFragment g k)
    (hr : c.skipBlanks.rest = g ++ t) (ht : Halts k t) :
    ∃ l d, fragment c = .ok (some l) d ∧ l.value = g ∧ d.rest = t := by
  have hf : fragment c = .ok (some (c.skipBlanks.take g.length (.fragment g)).1)
      (c.skipBlanks.take g.length (.fragment g)).2 := by
    rw [fragment_eq, hr, hg.fragment?_append ht, takeFragment_eq]
  exact ⟨_, _, hf, rfl, rest_take_of_append hr _⟩

theorem split_of_code? {e : Expression} (h : code? c = .ok (some e) d) : e.kind = .code ∧
    ∃ k b r, IsFragment e.text k ∧ c.skipBlanks.rest = e.text ++ d.rest ∧ d.rest = b ++ r ∧
      (∀ y ∈ b, isBlank y) ∧ Halts k r := by
  obtain ⟨l?, d₁, hl, h⟩ := run_bind_eq_ok.mp h
  rw [fragment_eq, takeFragment_eq] at hl
  split at hl
  · next g hg =>
    cases hl
    cases h
    obtain ⟨k, b, r, hfrag, hr, hb, hhalt⟩ := split_of_fragment? hg
    have hd := rest_take_of_append hr (.fragment g)
    refine ⟨rfl, k, b, r, hfrag, ?_, hd, hb, hhalt⟩
    rw [hd]
    exact hr
  · cases hl
    cases h
  · cases hl

/-- A code is found before the end of the line, and before a colon if a colon followed it. -/
def CodeEnds (d : Cursor) (t : List Char) : Prop :=
  t = [] ∨ (d.skipBlanks.rest.head? = some ':' ∧ t.head? = some ':')

theorem isBlank_of_name (h : isNameChar x) : isBlank x = false := by
  have hrange : 48 ≤ x.toNat ∧ x.toNat ≤ 122 := by
    change (decide (65 ≤ x.val ∧ x.val ≤ 90) ||
      decide (97 ≤ x.val) && decide (x.val ≤ 122) ||
      decide (48 ≤ x.val) && decide (x.val ≤ 57) || x == '_') = true at h
    simp only [Bool.or_eq_true, Bool.and_eq_true, decide_eq_true_eq, beq_iff_eq,
      UInt32.le_iff_toNat_le] at h
    change 48 ≤ x.val.toNat ∧ x.val.toNat ≤ 122
    obtain ((h | h) | h) | rfl := h
    · exact ⟨Nat.le_trans (by decide) h.1, h.2.trans (by decide)⟩
    · exact ⟨Nat.le_trans (by decide) h.1, h.2⟩
    · exact ⟨h.1, h.2.trans (by decide)⟩
    · decide
  simp only [isBlank, Bool.or_eq_false_iff, Bool.and_eq_false_iff, decide_eq_false_iff_not,
    beq_eq_false_iff_ne]
  omega

/-- No bracket is open after blanks if then a colon ends the fragment. -/
theorem eq_zero_of_colon {k : Nat} {b : List Char} (hb : ∀ y ∈ b, isBlank y) (hr : Halts k r)
    (hc : ((b ++ r).dropWhile isInline).head? = some ':') : k = 0 := by
  rw [List.dropWhile_append] at hc
  by_cases he : (b.dropWhile isInline).isEmpty
  · rw [if_pos he] at hc
    obtain rfl | hr | ⟨hr, rfl⟩ := hr
    · cases hc
    · cases r with
      | nil => cases hr
      | cons y r =>
        cases hr
        cases hc
    · rfl
  · rw [if_neg he] at hc
    cases hd : b.dropWhile isInline with
    | nil => simp [hd] at he
    | cons y b' =>
      rw [hd] at hc
      cases hc
      have hmem : ':' ∈ b := (List.dropWhile_suffix isInline).subset (hd ▸ List.mem_cons_self)
      exact absurd (hb _ hmem) (by decide)

theorem retold_code? {e : Expression} (h : code? c = .ok (some e) d) :
    e.text ≠ [] ∧ Retold code? c.rest d.rest e.text (CodeEnds d) (SameExpression e) := by
  obtain ⟨hkind, k, b, r, hfrag, hr, hd, hb, hhalt⟩ := split_of_code? h
  obtain ⟨y, g, hy⟩ := List.exists_cons_of_ne_nil hfrag.ne_nil
  have hi : isInline y = false := by
    refine c.isInline_head_skipBlanks ?_
    rw [hr, hy]
    rfl
  have hend : ∀ t, CodeEnds d t → Halts k t := by
    rintro t (rfl | ⟨hcolon, ht⟩)
    · exact .inl rfl
    · rw [Cursor.rest_skipBlanks, hd] at hcolon
      exact .inr (.inr ⟨ht, eq_zero_of_colon hb hhalt hcolon⟩)
  refine ⟨hfrag.ne_nil, fun c' t ht hb' => ?_, fun t ht ha => ?_⟩
  · have hr' := Before.rest_eq hb' (x := y) (by rw [hy]; rfl) hi
    obtain ⟨l, d', hl, hv, hd'⟩ := fragment_of_rest hfrag hr' (hend t ht)
    exact ⟨_, d', run_bind_of_ok hl, ⟨_, rfl, bare_expression hv hkind.symm⟩, before_of_rest hd'⟩
  · have hshut : Shut e.text := by
      intro x hx
      by_contra hix
      have hblank := isBlank_of_isInline (by simpa using hix)
      rw [hfrag.tight x hx] at hblank
      cases hblank
    have hend' : ∀ x, d.rest.head? = some x → isNameChar x = false := by
      intro x hx
      by_contra hn
      have hblank := isBlank_of_name (by simpa using hn)
      rw [hd] at hx
      cases b with
      | cons z b =>
        cases hx
        rw [hb x List.mem_cons_self] at hblank
        cases hblank
      | nil =>
        obtain rfl | hh | ⟨hh, -⟩ := hhalt
        · cases hx
        · rw [List.nil_append, hh] at hx
          cases hx
          exact hn (by decide)
        · rw [List.nil_append, hh] at hx
          cases hx
          exact hn (by decide)
    have hparted : Parted t := by
      obtain rfl | ⟨-, ht⟩ := ht
      · exact parted_nil
      · intro x hx
        rw [ht] at hx
        cases hx
        exact .inr rfl
    exact alike_of_whole hr hfrag.scan.whole hshut (fun z x _ hx _ => hend' x hx) hparted ha

theorem retold_no_code (h : code? c = .ok none d) :
    Retold code? c.rest d.rest [] (· = []) (· = none) := by
  have hd : d.rest = c.rest.dropWhile isInline := by
    obtain ⟨l?, d₁, hl, h⟩ := run_bind_eq_ok.mp h
    rw [fragment_eq, takeFragment_eq] at hl
    split at hl
    · cases hl
      cases h
    · cases hl
      cases h
      exact c.rest_skipBlanks
    · cases hl
  refine ⟨?_, ?_⟩
  · rintro c' t rfl hb
    have hf : fragment c' = .ok none c'.skipBlanks := by
      rw [fragment_eq, hb, takeFragment_eq]
      simp [fragment?, fragmentEnd, Except.map, trimEnd]
    exact ⟨none, c'.skipBlanks, run_bind_of_ok hf, rfl, before_skipBlanks.mpr hb⟩
  · intro t _ ha
    rw [hd] at ha
    exact ha.of_dropWhile

theorem atEnd_eq_isOver : atEnd c = .ok (isOver c.rest) c.skipBlanks := by
  have h := atEnd_eq (c := c)
  rw [Cursor.rest_skipBlanks] at h
  exact h

theorem endOfLine_eq_ok {construct : String} {u : Unit} (h : endOfLine construct c = .ok u d) :
    isOver c.rest := by
  obtain ⟨ended, d₁, he, h⟩ := run_bind_eq_ok.mp h
  rw [atEnd_eq_isOver] at he
  cases he
  by_contra ho
  rw [Bool.not_eq_true] at ho
  simp [ho, refuse, run_bind, atEnd_eq] at h

theorem retold_endOfLine (construct : String) (h : isOver s) :
    Retold (endOfLine construct) s [] [] (· = []) fun _ => True := by
  refine ⟨?_, ?_⟩
  · rintro c' t rfl hb
    refine ⟨(), c'.skipBlanks, ?_, trivial, before_skipBlanks.mpr hb⟩
    unfold endOfLine
    rw [run_bind_of_ok atEnd_eq, hb]
    rfl
  · rintro t rfl -
    exact .ended h

theorem retold_opensBlock {construct : String} {u : Unit} (h : opensBlock construct c = .ok u d) :
    c.skipBlanks.rest.head? = some ':' ∧
      Retold (opensBlock construct) c.rest [] [':'] (· = []) fun _ => True := by
  obtain ⟨colon, d₁, hcolon, h⟩ := run_bind_eq_ok.mp h
  have hp : punct [':'] c = .ok (some colon) d₁ := required_eq_ok.mp hcolon
  obtain ⟨-, hr, -⟩ := split_of_punct hp
  refine ⟨by rw [hr]; rfl, ?_⟩
  exact (Retold.required (retold_punct (by decide) hp)).before rfl
    (fun _ _ => retold_endOfLine _ (endOfLine_eq_ok h)) fun t _ he => absurd he (by decide)

/-- An expression that differs in its span alone. -/
def SameValue (e e' : Expression) : Prop := e'.bare = e.bare

theorem retold_condition {construct : String} {e : Expression}
    (h : condition construct c = .ok e d) : e.text ≠ [] ∧
      Retold (condition construct) c.rest [] (e.text ++ [':']) (· = []) (SameValue e) := by
  obtain ⟨e', d₁, he, h⟩ := run_bind_eq_ok.mp h
  obtain ⟨u, d₂, hu, h⟩ := run_bind_eq_ok.mp h
  cases h
  obtain ⟨hne, hcode⟩ := retold_code? (required_eq_ok.mp he)
  obtain ⟨hcolon, hopen⟩ := retold_opensBlock hu
  refine ⟨hne, hcode.required.bind rfl (fun e' he' => ?_) ?_⟩
  · exact hopen.before (a := ()) trivial (fun _ _ => .pure he') fun _ h => h
  · rintro t rfl
    exact .inr ⟨hcolon, rfl⟩

theorem retold_assigned {construct : String} {e : Expression}
    (h : assigned construct c = .ok e d) :
    Retold (assigned construct) c.rest [] ('=' :: ' ' :: e.text) (· = []) (SameValue e) := by
  obtain ⟨sign, d₁, hsign, h⟩ := run_bind_eq_ok.mp h
  obtain ⟨e', d₂, he, h⟩ := run_bind_eq_ok.mp h
  obtain ⟨u, d₃, hu, h⟩ := run_bind_eq_ok.mp h
  cases h
  obtain ⟨hne, hcode⟩ := retold_code? (required_eq_ok.mp he)
  refine Retold.bind (p := ['=']) (Retold.required (retold_punct (by decide)
    (required_eq_ok.mp hsign))) rfl (fun _ _ => ?_) ?_
  · refine (hcode.required.space hne).before rfl (fun e' he' => ?_) ?_
    · exact (retold_endOfLine _ (endOfLine_eq_ok hu)).after (a := ()) trivial
        (fun _ _ => .pure he') fun _ h => h
    · rintro t rfl
      exact .inl rfl
  · rintro t - - h
    cases h

end NovelScript.Reader
