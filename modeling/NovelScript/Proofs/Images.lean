import NovelScript.Proofs.Phrases

/-!
# Images that stand for themselves

The name of an image goes on as long as words follow that start no modifier and no transition, so an
image is found again only before the end of the line, a colon or a transition. The parts of a
repetition are found again one after the other, each with a space before it.
-/

namespace NovelScript.Reader

open Line Text

section

variable {α β : Type} {r : Reader (Option α)} {c d : Cursor} {T V : List Char → Prop}
  (text : α → List Char) (key : α → β)

/-- The parts of a repetition are found again with a space before each. Each of them is found before
`V`, and nothing more is found before `T`. -/
theorem retold_many {as : List α} (h : many r c = .ok as d)
    (hlt : ∀ {c d a}, r c = .ok (some a) d → d.rest.length < c.rest.length)
    (hsome : ∀ {c d a}, r c = .ok (some a) d → text a ≠ [] ∧
      (∀ t, V t → V (' ' :: (text a ++ t))) ∧
      Retold r c.rest d.rest (text a) V fun o => ∃ a', o = some a' ∧ key a' = key a)
    (hnone : ∀ {c d}, r c = .ok none d → Retold r c.rest d.rest [] T (· = none))
    (hT : ∀ t, T t → V t) :
    (∀ t, T t → V (following (as.map text) ++ t)) ∧
      Retold (many r) c.rest d.rest (following (as.map text)) T
        fun as' => as'.map key = as.map key := by
  have hr := rounds_of_many h
  clear h
  induction hr with
  | nil h =>
    have hret := hnone h
    refine ⟨hT, fun c' t ht hb => ?_, hret.alike⟩
    obtain ⟨o, d', hn, rfl, hd⟩ := hret.reads c' t ht hb
    exact ⟨[], d', many_of_none hn, rfl, hd⟩
  | @cons c d e a as h hl hrest ih =>
    obtain ⟨hnext, hret⟩ := ih
    obtain ⟨hne, hspace, hpart⟩ := hsome h
    have hpart := hpart.space hne
    have hcons : ∀ t, following ((a :: as).map text) ++ t =
        ' ' :: (text a ++ (following (as.map text) ++ t)) := by
      intro t
      rw [List.map_cons, following_cons, List.cons_append, List.append_assoc]
    refine ⟨fun t ht => ?_, fun c' t ht hb => ?_, fun t ht ha => ?_⟩
    · rw [hcons]
      exact hspace _ (hnext t ht)
    · rw [hcons] at hb
      obtain ⟨o, d', ha', ⟨a', rfl, hkey⟩, hd⟩ := hpart.reads c' _ (hnext t ht) hb
      obtain ⟨as', e', has', hkeys, he⟩ := hret.reads d' t ht hd
      refine ⟨a' :: as', e', many_of_some ha' (hlt ha') has', ?_, he⟩
      rw [List.map_cons, List.map_cons, hkey, hkeys]
    · rw [hcons]
      exact hpart.alike _ (hnext t ht) (hret.alike t ht ha)
  | stall h hl => exact absurd (hlt h) hl

end

variable {c d : Cursor} {l : Lexeme} {p r s t w : List Char} {x : Char}

theorem length_lt_of_name (h : name c = .ok (some l) d) : d.rest.length < c.rest.length := by
  obtain ⟨hw, htakes, -⟩ := takes_of_name h
  have hrest := congrArg List.length htakes.took.rest
  have hle := (Cursor.leads_skipBlanks c).length_le
  have hpos := List.length_pos_iff.mpr hw.ne_nil
  rw [List.length_append] at hrest
  omega

theorem length_lt_of_keyword {k : List Char} (h : keyword k c = .ok (some l) d) :
    d.rest.length < c.rest.length := by
  rw [keyword_eq] at h
  by_cases hn : name? c.skipBlanks.rest = some k
  · rw [if_pos hn] at h
    cases h
    obtain ⟨hw, r, hr, -⟩ := split_of_name? hn
    have hle := (Cursor.leads_skipBlanks c).length_le
    have hpos := List.length_pos_iff.mpr hw.ne_nil
    rw [rest_take_of_append hr]
    rw [hr, List.length_append] at hle
    omega
  · rw [if_neg hn] at h
    cases h

/-- The next name, if there is one, ends the name of an image. -/
def Stopped (t : List Char) : Prop :=
  Parted t ∧ ∀ n, name? (t.dropWhile isInline) = some n → isStopWord n

theorem imageWord?_eq : imageWord? c = match name? c.skipBlanks.rest with
    | some n => if isStopWord n then .ok none c.skipBlanks else name c.skipBlanks
    | none => .ok none c.skipBlanks := by
  unfold imageWord?
  rw [run_bind_of_ok peekName_eq]
  cases name? c.skipBlanks.rest with
  | none => rfl
  | some n =>
    simp only
    split <;> rfl

theorem name_of_imageWord? (h : imageWord? c = .ok (some l) d) :
    name c.skipBlanks = .ok (some l) d ∧ isStopWord l.value = false := by
  rw [imageWord?_eq] at h
  cases hn : name? c.skipBlanks.rest with
  | none => simp [hn] at h
  | some n =>
    by_cases hs : isStopWord n = true
    · simp [hn, hs] at h
    · simp only [hn, hs] at h
      refine ⟨h, ?_⟩
      rw [name_eq, Cursor.skipBlanks_idem, hn] at h
      cases h
      exact Bool.eq_false_iff.mpr hs

theorem eq_skipBlanks_of_imageWord? (h : imageWord? c = .ok none d) : d = c.skipBlanks := by
  rw [imageWord?_eq] at h
  split at h
  · split at h
    · cases h
      rfl
    · rw [eq_skipBlanks_of_name h, Cursor.skipBlanks_idem]
  · cases h
    rfl

theorem retold_imageWord? (h : imageWord? c = .ok (some l) d) : l.value ≠ [] ∧
    Retold imageWord? c.rest d.rest l.value Parted
      fun o => ∃ l', o = some l' ∧ l'.value = l.value := by
  obtain ⟨hn, hstop⟩ := name_of_imageWord? h
  obtain ⟨hw, hret⟩ := retold_name hn
  refine ⟨hw.ne_nil, retold_peekName (n := some l.value) ?_ fun t ht =>
    name?_dropWhile hw fun x => ht.not_name⟩
  simp only [hstop, Bool.false_eq_true, if_false]
  refine hret.imp ?_ fun _ h => h
  rintro o ⟨l', rfl, hl'⟩
  exact ⟨l', rfl, value_of_word hl'⟩

theorem retold_no_imageWord (h : imageWord? c = .ok none d) :
    Retold imageWord? c.rest d.rest [] Stopped (· = none) := by
  refine ⟨fun c' t ht hb => ?_, fun t ht ha => ?_⟩
  · refine ⟨none, c'.skipBlanks, ?_, rfl, before_skipBlanks.mpr hb⟩
    rw [imageWord?_eq, hb, List.nil_append]
    cases hn : name? (t.dropWhile isInline) with
    | none => rfl
    | some n => simp only [ht.2 n hn, if_true]
  · rw [eq_skipBlanks_of_imageWord? h, Cursor.rest_skipBlanks] at ha
    exact ha.of_dropWhile

theorem length_lt_of_imageWord? (h : imageWord? c = .ok (some l) d) :
    d.rest.length < c.rest.length := by
  have hlt := length_lt_of_name (name_of_imageWord? h).1
  have hle := (Cursor.leads_skipBlanks c).length_le
  omega

theorem retold_imageWords {what : String} {first : Lexeme} {more : List Lexeme}
    (h : imageWords what c = .ok (first, more) d) : IsName first.value ∧
    isStopWord first.value = false ∧
    Retold (imageWords what) c.rest d.rest
      (first.value ++ following (more.map Lexeme.value)) Stopped
      fun y => y.1.value = first.value ∧ y.2.map Lexeme.value = more.map Lexeme.value := by
  obtain ⟨f, d₁, hfirst, h⟩ := run_bind_eq_ok.mp h
  obtain ⟨m, d₂, hmore, h⟩ := run_bind_eq_ok.mp h
  cases h
  have hword := required_eq_ok.mp hfirst
  obtain ⟨hn, hstop⟩ := name_of_imageWord? hword
  obtain ⟨hne, hret⟩ := retold_imageWord? hword
  obtain ⟨hnext, hrest⟩ := retold_many (V := Parted) Lexeme.value Lexeme.value hmore length_lt_of_imageWord?
    (fun ha => ⟨(retold_imageWord? ha).1, fun t _ => parted_space _, (retold_imageWord? ha).2⟩)
    retold_no_imageWord fun t ht => ht.1
  refine ⟨(takes_of_name hn).1, hstop, hret.required.bind rfl (fun f' hf' => ?_) hnext⟩
  exact hrest.before rfl (fun m' hm' => .pure ⟨hf', hm'⟩) fun _ h => h

/-! Modifiers. -/

/-- The words of a modifier after its keyword. -/
def arguments : ModifierClause → List (List Char)
  | .transform e | .order e => [e.text]
  | .layer name | .tag name => [name]
  | .behind tags => tags

theorem spaced_words (m : ModifierClause) :
    spaced m.words = m.kind.keyword ++ following (arguments m) := by
  have hw : m.words = m.kind.keyword :: arguments m := by cases m <;> rfl
  rw [hw, spaced_cons]

theorem retold_simpleExpression {what : String} {e : Expression}
    (h : simpleExpression what c = .ok e d) : e.text ≠ [] ∧
      Retold (simpleExpression what) c.rest d.rest e.text Parted (SameValue e) := by
  obtain ⟨hne, hret⟩ := retold_simpleExpression? (required_eq_ok.mp h)
  exact ⟨hne, hret.required⟩

theorem Stopped.parted (h : Stopped t) : Parted t := h.1

/-- A clause of one word. -/
theorem retold_argument {α : Type} {r : Reader α} {w : List Char} {a : α} {Q : α → Prop}
    {f : α → ModifierClause × Span} (hne : w ≠ []) (hret : Retold r c.rest d.rest w Parted Q)
    (ha : Q a) (hwords : arguments (f a).1 = [w])
    (hbare : ∀ a', Q a' → (f a').1.bare = (f a).1.bare) :
    arguments (f a).1 ≠ [] ∧
      Retold (r >>= fun a => pure (f a)) c.rest d.rest (following (arguments (f a).1)) Stopped
        fun y => y.1.bare = (f a).1.bare := by
  have hone : following [w] = ' ' :: w := by simp
  rw [hwords, hone]
  exact ⟨List.cons_ne_nil _ _,
    (hret.space hne).before ha (fun a' ha' => .pure (hbare a' ha')) fun _ ht => ht.parted⟩

theorem retold_modifierClause {kind : ModifierKind} {m : ModifierClause × Span}
    (h : modifierClause kind c = .ok m d) : m.1.kind = kind ∧ arguments m.1 ≠ [] ∧
      Retold (modifierClause kind) c.rest d.rest (following (arguments m.1)) Stopped
        fun y => y.1.bare = m.1.bare := by
  cases kind with
  | «at» =>
    obtain ⟨e, d₁, he, h⟩ := run_bind_eq_ok.mp h
    cases h
    obtain ⟨hne, hret⟩ := retold_simpleExpression he
    exact ⟨rfl, retold_argument (f := fun e => (.transform e, e.span)) hne hret rfl rfl
      fun e' he' => congrArg ModifierClause.transform he'⟩
  | zorder =>
    obtain ⟨e, d₁, he, h⟩ := run_bind_eq_ok.mp h
    cases h
    obtain ⟨hne, hret⟩ := retold_simpleExpression he
    exact ⟨rfl, retold_argument (f := fun e => (.order e, e.span)) hne hret rfl rfl
      fun e' he' => congrArg ModifierClause.order he'⟩
  | onlayer =>
    obtain ⟨l, d₁, hl, h⟩ := run_bind_eq_ok.mp h
    cases h
    obtain ⟨hn, hret⟩ := retold_expectName hl
    exact ⟨rfl, retold_argument (f := fun l => (.layer l.value, l.span)) hn.ne_nil hret rfl rfl
      fun l' hl' => congrArg ModifierClause.layer (value_of_word hl')⟩
  | «as» =>
    obtain ⟨l, d₁, hl, h⟩ := run_bind_eq_ok.mp h
    cases h
    obtain ⟨hn, hret⟩ := retold_expectName hl
    exact ⟨rfl, retold_argument (f := fun l => (.tag l.value, l.span)) hn.ne_nil hret rfl rfl
      fun l' hl' => congrArg ModifierClause.tag (value_of_word hl')⟩
  | behind =>
    obtain ⟨⟨first, more⟩, d₁, hw, h⟩ := run_bind_eq_ok.mp h
    cases h
    obtain ⟨hn, -, hret⟩ := retold_imageWords hw
    refine ⟨rfl, by simp [arguments], ?_⟩
    rw [arguments, following_cons]
    refine (hret.space (by simp [hn.ne_nil])).before (a := (first, more)) ⟨rfl, rfl⟩ ?_ fun _ ht => ht
    rintro ⟨first', more'⟩ ⟨hf, hm⟩
    refine .pure (congrArg ModifierClause.behind ?_)
    rw [hf, hm]

theorem isName_keyword (k : ModifierKind) : IsName k.keyword ∧ isStopWord k.keyword := by
  cases k <;> exact ⟨rfl, rfl⟩

/-- The kind of the modifier that the name starts. -/
theorem find?_keyword {n : Option (List Char)} {kind : ModifierKind}
    (h : (ModifierKind.all.find? fun k => n = some k.keyword) = some kind) :
    n = some kind.keyword := by
  have := List.find?_some h
  simpa using this

theorem unnamed_following {ws : List (List Char)} (hne : ws ≠ []) : Unnamed (following ws ++ t) := by
  obtain ⟨w, ws, rfl⟩ := List.exists_cons_of_ne_nil hne
  rintro x ⟨⟩
  decide

/-- A modifier that is found is a keyword and the clause of its kind. -/
theorem split_of_modifier? {m : Modifier} (h : modifier? c = .ok (some m) d) :
    ∃ kind start clause d₁,
      (ModifierKind.all.find? fun k => name? c.skipBlanks.rest = some k.keyword) = some kind ∧
      expectKeyword (String.ofList kind.keyword) c.skipBlanks = .ok start d₁ ∧
      modifierClause kind d₁ = .ok clause d ∧ m = ⟨clause.1, start.span.cover clause.2⟩ := by
  unfold modifier? at h
  rw [run_bind_of_ok peekName_eq] at h
  cases hf : ModifierKind.all.find? fun k => name? c.skipBlanks.rest = some k.keyword with
  | none =>
    rw [hf] at h
    cases h
  | some kind =>
    simp only [hf] at h
    obtain ⟨start, d₁, hs, h⟩ := run_bind_eq_ok.mp h
    obtain ⟨clause, d₂, hc, h⟩ := run_bind_eq_ok.mp h
    cases h
    exact ⟨kind, start, clause, d₁, rfl, hs, hc, rfl⟩

theorem eq_skipBlanks_of_modifier? (h : modifier? c = .ok none d) : d = c.skipBlanks := by
  unfold modifier? at h
  rw [run_bind_of_ok peekName_eq] at h
  cases hf : ModifierKind.all.find? fun k => name? c.skipBlanks.rest = some k.keyword with
  | none =>
    rw [hf] at h
    cases h
    rfl
  | some kind =>
    simp only [hf] at h
    obtain ⟨start, d₁, -, h⟩ := run_bind_eq_ok.mp h
    obtain ⟨clause, d₂, -, h⟩ := run_bind_eq_ok.mp h
    cases h

theorem retold_modifier? {m : Modifier} (h : modifier? c = .ok (some m) d) :
    spaced m.clause.words ≠ [] ∧
    (∀ t, Stopped t → Stopped (' ' :: (spaced m.clause.words ++ t))) ∧
    Retold modifier? c.rest d.rest (spaced m.clause.words) Stopped
      fun o => ∃ m', o = some m' ∧ m'.bare = m.bare := by
  obtain ⟨kind, start, ⟨clause, span⟩, d₁, hf, hs, hc, rfl⟩ := split_of_modifier? h
  obtain ⟨hkind, hne, hclause⟩ := retold_modifierClause hc
  obtain ⟨hname, hstop⟩ := isName_keyword kind
  have hnext := find?_keyword hf
  obtain ⟨-, hkey⟩ := retold_expectKeyword hs
  rw [String.toList_ofList] at hkey
  rw [spaced_words, hkind]
  have hpeek : ∀ t, name? ((kind.keyword ++ following (arguments clause) ++ t).dropWhile isInline) =
      some kind.keyword := by
    intro t
    rw [List.append_assoc]
    exact name?_dropWhile hname (unnamed_following hne)
  refine ⟨by simp [hname.ne_nil], fun t _ => ⟨parted_space _, fun n hn => ?_⟩, ?_⟩
  · have hn' : name? ((kind.keyword ++ following (arguments clause) ++ t).dropWhile isInline) =
        some n := hn
    rw [hpeek] at hn'
    cases hn'
    exact hstop
  · refine retold_peekName (n := name? c.skipBlanks.rest) ?_ fun t _ => by rw [hpeek, hnext]
    simp only [hf]
    refine hkey.bind (a := start) trivial (fun start' _ => ?_) ?_
    · refine hclause.before rfl (fun m' hm' => .pure ⟨_, rfl, ?_⟩) fun _ ht => ht
      rw [Modifier.bare, Modifier.bare, hm']
    · intro t _
      obtain ⟨w, ws, hw⟩ := List.exists_cons_of_ne_nil hne
      rw [hw]
      exact parted_space _

theorem length_lt_of_modifier? {m : Modifier} (h : modifier? c = .ok (some m) d) :
    d.rest.length < c.rest.length := by
  obtain ⟨kind, start, clause, d₁, -, hs, hc, -⟩ := split_of_modifier? h
  have hlt := length_lt_of_keyword (required_eq_ok.mp hs)
  have hle := ((Composed.modifierClause kind).isLocal.leads_of_ok hc).length_le
  have hle' := (Cursor.leads_skipBlanks c).length_le
  omega

/-- At most a transition follows an image. -/
def AfterImage (t : List Char) : Prop :=
  Parted t ∧ (t = [] ∨ name? (t.dropWhile isInline) = some "with".toList)

theorem AfterImage.eq_with (h : AfterImage t) {n : List Char}
    (hn : name? (t.dropWhile isInline) = some n) : n = "with".toList := by
  obtain rfl | h := h.2
  · cases hn
  · rw [h] at hn
    cases hn
    rfl

theorem AfterImage.stopped (h : AfterImage t) : Stopped t :=
  ⟨h.1, fun n hn => by rw [h.eq_with hn]; rfl⟩

theorem retold_no_modifier (h : modifier? c = .ok none d) :
    Retold modifier? c.rest d.rest [] AfterImage (· = none) := by
  refine ⟨fun c' t ht hb => ?_, fun t ht ha => ?_⟩
  · refine ⟨none, c'.skipBlanks, ?_, rfl, before_skipBlanks.mpr hb⟩
    unfold modifier?
    rw [run_bind_of_ok peekName_eq, hb, List.nil_append]
    have hf : (ModifierKind.all.find? fun k =>
        name? (t.dropWhile isInline) = some k.keyword) = none := by
      rw [List.find?_eq_none]
      intro k _ hk
      have hw := ht.eq_with (by simpa using hk)
      cases k <;> exact absurd hw (by decide)
    rw [hf]
    rfl
  · rw [eq_skipBlanks_of_modifier? h, Cursor.rest_skipBlanks] at ha
    exact ha.of_dropWhile

theorem retold_imageSpec {i : ImageSpec} (h : imageSpec c = .ok i d) :
    (∃ w ws, i.summary = w ++ following ws ∧ IsName w ∧ isStopWord w = false) ∧
      Retold imageSpec c.rest d.rest i.summary AfterImage fun i' => i'.bare = i.bare := by
  obtain ⟨⟨first, more⟩, d₁, hw, h⟩ := run_bind_eq_ok.mp h
  obtain ⟨ms, d₂, hms, h⟩ := run_bind_eq_ok.mp h
  cases h
  obtain ⟨hn, hstop, hwords⟩ := retold_imageWords hw
  obtain ⟨hnext, hmods⟩ := retold_many (V := Stopped) (fun m : Modifier => spaced m.clause.words)
    Modifier.bare hms length_lt_of_modifier? retold_modifier? retold_no_modifier
    fun t => AfterImage.stopped
  have htext : ∀ span, ImageSpec.summary ⟨first.value :: more.map Lexeme.value, ms, span⟩ =
      first.value ++ following (more.map Lexeme.value) ++
        following (ms.map fun m => spaced m.clause.words) := by
    intro span
    rw [ImageSpec.summary, ImageSpec.name, spaced_cons, spaced_cons]
  rw [htext]
  refine ⟨⟨first.value, _, by rw [List.append_assoc, ← following_append], hn, hstop⟩, ?_⟩
  refine hwords.bind (a := (first, more)) ⟨rfl, rfl⟩ ?_ hnext
  rintro ⟨first', more'⟩ ⟨hf, hm⟩
  refine hmods.before rfl (fun ms' hms' => .pure ?_) fun _ h => h
  simp only [ImageSpec.bare, hf, hm, hms']

/-! Transitions. -/

/-- Nothing more follows, or nothing that starts with a name. -/
theorem retold_transition? {o : Option Expression} (h : transition? c = .ok o d) :
    Retold transition? c.rest d.rest (following (transitionWords o)) (· = [])
      fun o' => o'.map Expression.bare = o.map Expression.bare := by
  obtain ⟨k, d₁, hk, h⟩ := run_bind_eq_ok.mp h
  cases k with
  | none =>
    cases h
    refine (retold_no_keyword hk).after rfl ?_ ?_
    · rintro _ rfl
      exact .pure rfl
    · rintro t rfl hn
      cases hn
  | some k =>
    obtain ⟨e, he, rfl⟩ := run_map_eq_ok.mp h
    obtain ⟨hne, hret⟩ := retold_simpleExpression he
    obtain ⟨hn, hkey⟩ := retold_keyword hk
    have htext : following (transitionWords (some e)) = ' ' :: "with".toList ++ (' ' :: e.text) := by
      simp [transitionWords]
    rw [htext]
    refine (hkey.space hn.ne_nil).bind ⟨k, rfl, rfl⟩ ?_ fun t _ => parted_space _
    rintro _ ⟨k', rfl, -⟩
    refine Retold.map ((hret.space hne).imp (fun e' he' => ?_) ?_)
    · exact congrArg some he'
    · rintro t rfl
      exact parted_nil

theorem afterImage_transition (o : Option Expression) : AfterImage (following (transitionWords o)) := by
  cases o with
  | none => exact ⟨parted_nil, .inl rfl⟩
  | some e =>
    have hw : name? (("with".toList ++ (' ' :: (e.text ++ []))).dropWhile isInline) =
        some "with".toList := name?_dropWhile rfl (by rintro x ⟨⟩; rfl)
    exact ⟨parted_space _, .inr hw⟩

end NovelScript.Reader
