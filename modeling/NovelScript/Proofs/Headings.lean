import NovelScript.Proofs.Speech

/-!
# Lines that stand for themselves

The line of every head is read again from its canonical line. The canonical line is alike to the
line that was read, so it is a spoken line only if that one was. It starts with no blank and no
comment.
-/

namespace NovelScript

open Line Text

namespace Reader

variable {c d e : Cursor} {l : Lexeme} {p q r s t w : List Char} {x : Char}

theorem peekPunct_eq_decide (hx : x ≠ '=') (c : Cursor) :
    peekPunct [x] c = .ok (decide (c.skipBlanks.rest.head? = some x)) c.skipBlanks := by
  rw [peekPunct_eq (by simp), startsWith_sign hx]

theorem retold_moreNames {ls : List Lexeme} (h : many name c = .ok ls d) :
    (∀ t, Parted t ∧ name? (t.dropWhile isInline) = none →
      Parted (following (ls.map Lexeme.value) ++ t)) ∧
      Retold (many name) c.rest d.rest (following (ls.map Lexeme.value))
        (fun t => Parted t ∧ name? (t.dropWhile isInline) = none)
        fun ls' => ls'.map Lexeme.value = ls.map Lexeme.value := by
  refine retold_many (V := Parted) Lexeme.value Lexeme.value h length_lt_of_name (fun hl => ?_)
    (fun hn => ?_) fun _ ht => ht.1
  · obtain ⟨hw, hret⟩ := retold_name hl
    refine ⟨hw.ne_nil, fun _ _ => parted_space _, hret.imp ?_ fun _ h => h⟩
    rintro o ⟨l', rfl, hl'⟩
    exact ⟨l', rfl, value_of_word hl'⟩
  · refine ⟨?_, fun t _ ha => ?_⟩
    · rintro c' t ⟨-, ht⟩ hb
      refine ⟨none, c'.skipBlanks, ?_, rfl, before_skipBlanks.mpr hb⟩
      rw [name_eq, hb, List.nil_append, ht]
    · rw [eq_skipBlanks_of_name hn, Cursor.rest_skipBlanks] at ha
      exact ha.of_dropWhile

/-- No image goes on in the line: it ends here, or a transition follows. -/
def LacksImage (t : List Char) : Prop :=
  isOver t ∨ name? (t.dropWhile isInline) = some "with".toList

theorem lacksImage_iff_of_before (h : c.Before t) : LacksImage c.rest ↔ LacksImage t := by
  rw [Cursor.Before, Cursor.rest_skipBlanks] at h
  rw [LacksImage, LacksImage, isOver, isOver, h]

theorem sceneImage?_of_lacksImage (h : LacksImage c.rest) :
    sceneImage? c = .ok none c.skipBlanks := by
  rw [LacksImage] at h
  unfold sceneImage?
  rw [run_bind_of_ok atEnd_eq_isOver, run_bind_of_ok peekName_eq, Cursor.skipBlanks_idem,
    Cursor.rest_skipBlanks, if_pos (by simpa using h)]
  rfl

theorem sceneImage?_of_not (h : ¬LacksImage c.rest) :
    sceneImage? c = (some <$> imageSpec) c.skipBlanks := by
  rw [LacksImage] at h
  unfold sceneImage?
  rw [run_bind_of_ok atEnd_eq_isOver, run_bind_of_ok peekName_eq, Cursor.skipBlanks_idem,
    Cursor.rest_skipBlanks, if_neg (by simpa using h)]

theorem AfterImage.lacksImage (h : AfterImage t) : LacksImage t := by
  obtain rfl | h := h.2
  · exact .inl rfl
  · exact .inr h

/-- An image starts with a name, but not with the one that starts a transition. -/
theorem not_lacksImage {n : List Char} (hn : IsName n) (hwith : n ≠ "with".toList)
    (ht : Unnamed t) : ¬LacksImage (n ++ t) := by
  have hname := name?_dropWhile hn ht
  obtain ⟨y, n', rfl, hstart, -⟩ := hn.exists_cons
  rintro (hover | hnext)
  · rw [isOver, List.cons_append, dropWhile_of_not_inline (isInline_of_start hstart)] at hover
    obtain rfl : y = '#' := by simpa using hover
    exact absurd hstart (by decide)
  · exact hwith (Option.some.inj (hname.symm.trans hnext))

theorem retold_sceneImage? {o : Option ImageSpec} (h : sceneImage? c = .ok o d) :
    Retold sceneImage? c.rest d.rest (following (o.map ImageSpec.summary).toList) AfterImage
      fun o' => o'.map ImageSpec.bare = o.map ImageSpec.bare := by
  by_cases hc : LacksImage c.rest
  · rw [sceneImage?_of_lacksImage hc] at h
    cases h
    refine .of_skipBlanks ⟨fun c' t ht hb => ?_, fun t _ ha => ha⟩
    have hlacks := (lacksImage_iff_of_before hb).mpr ht.lacksImage
    exact ⟨none, _, sceneImage?_of_lacksImage hlacks, rfl, before_skipBlanks.mpr hb⟩
  · rw [sceneImage?_of_not hc] at h
    obtain ⟨i, hi, rfl⟩ := run_map_eq_ok.mp h
    obtain ⟨⟨w, ws, hsum, hw, hstop⟩, hret⟩ := retold_imageSpec hi
    have hwith : w ≠ "with".toList := by
      rintro rfl
      cases hstop
    have hone : following (Option.map ImageSpec.summary (some i)).toList = ' ' :: i.summary := by simp
    rw [hone]
    refine Retold.space (.of_skipBlanks ⟨fun c' t ht hb => ?_, hret.alike⟩) (by simp [hsum, hw.ne_nil])
    have hun : Unnamed (following ws ++ t) := by
      cases ws with
      | nil => exact fun z => ht.1.not_name
      | cons v ws => exact unnamed_following (by simp)
    have hno := not_lacksImage hw hwith hun
    rw [← List.append_assoc, ← hsum, ← lacksImage_iff_of_before hb] at hno
    obtain ⟨i', d', hi', hbare, hd'⟩ := hret.reads c'.skipBlanks t ht (before_skipBlanks.mpr hb)
    exact ⟨some i', d', (sceneImage?_of_not hno).trans (run_map_of_ok hi'), congrArg some hbare, hd'⟩

/-- The head is read again from what follows its keyword in its line. -/
def Continues (kind : StatementKind) (c : Cursor) (h : Head) : Prop :=
  ∃ q, h.written = kind.text.toList ++ q ∧ Parted q ∧ ∀ keyword,
    Retold (afterKeyword keyword kind) c.rest [] q (· = []) fun h' => h'.bare = h.bare

theorem parted_of_nil {t : List Char} (h : t = []) : Parted t := by
  subst h
  exact parted_nil

/-- The end of a line that says `a` after its keyword. -/
theorem retold_simple {construct : String} {u : Unit} {a a' : Action} {span : Span}
    (h : endOfLine construct c = .ok u d) (ha : a'.bare = a.bare) :
    Retold (endOfLine construct >>= fun _ => pure (Head.simple a' span)) c.rest [] [] (· = [])
      fun h' => h'.bare = .simple a.bare .blank :=
  (retold_endOfLine _ (endOfLine_eq_ok h)).after (a := ()) trivial
    (fun _ _ => .pure (congrArg (Head.simple · .blank) ha)) fun _ h => h

variable {keyword : Span} {h : Head}

theorem continues_label (hr : afterKeyword keyword .label c = .ok h d) : Continues .label c h := by
  obtain ⟨name, d₁, hn, hr⟩ := run_bind_eq_ok.mp hr
  obtain ⟨u, d₂, hu, hr⟩ := run_bind_eq_ok.mp hr
  cases hr
  obtain ⟨⟨y, p, hy, -, -⟩, hname⟩ := retold_labelName hn
  obtain ⟨-, hopen⟩ := retold_opensBlock hu
  refine ⟨' ' :: name.text ++ [':'], by simp [Head.written, spaced_cons, StatementKind.text],
    parted_space _, fun keyword => ?_⟩
  refine (hname.space (by simp [hy])).bind rfl (fun n' hn' => ?_) fun t _ => parted_colon t
  exact hopen.before (a := ()) trivial (fun _ _ => .pure (congrArg (Head.label · .blank) hn'))
    fun _ h => h

/-- A line that has a condition after its keyword. -/
theorem continues_condition {kind : StatementKind} {construct : String}
    {make : Expression → Span → Head}
    (hread : ∀ keyword, afterKeyword keyword kind =
      condition construct >>= fun e => pure (make e keyword))
    (hwritten : ∀ e keyword, (make e keyword).written =
      kind.text.toList ++ ' ' :: (e.text ++ [':']))
    (hbare : ∀ e keyword, (make e keyword).bare = make e.bare .blank)
    (hr : afterKeyword keyword kind c = .ok h d) : Continues kind c h := by
  rw [hread] at hr
  obtain ⟨e, d₁, he, hr⟩ := run_bind_eq_ok.mp hr
  cases hr
  obtain ⟨hne, hcond⟩ := retold_condition he
  refine ⟨' ' :: (e.text ++ [':']), hwritten e keyword, parted_space _, fun keyword' => ?_⟩
  rw [hread, hbare]
  exact (hcond.space (by simp)).before rfl
    (fun e' he' => .pure ((hbare e' keyword').trans (congrArg (make · .blank) he'))) fun _ h => h

/-- Whether a colon comes next. -/
def colonNext (cs : List Char) : Bool := decide (cs.head? = some ':')

theorem continues_menu (hr : afterKeyword keyword .menu c = .ok h d) : Continues .menu c h := by
  obtain ⟨colon, e₀, hcolon, hr⟩ := run_bind_eq_ok.mp hr
  rw [peekPunct_eq_decide (by decide)] at hcolon
  cases hcolon
  have hend : ∀ {e d : Cursor} {u : Unit} {n : Option LabelName} (keyword : Span)
      (n' : Option LabelName), opensBlock "menu statement" e = .ok u d →
      n'.map LabelName.bare = n.map LabelName.bare →
      Retold (opensBlock "menu statement" >>= fun _ => pure (Head.menu n' keyword)) e.rest [] [':']
        (· = []) fun h' => h'.bare = .menu (n.map LabelName.bare) .blank := by
    intro e d u n keyword n' hu hn
    obtain ⟨-, hopen⟩ := retold_opensBlock hu
    exact hopen.before (a := ()) trivial (fun _ _ => .pure (congrArg (Head.menu · .blank) hn))
      fun _ h => h
  by_cases hcolon : c.skipBlanks.rest.head? = some ':'
  · rw [if_pos (decide_eq_true hcolon)] at hr
    obtain ⟨o, e₁, ho, hr⟩ := run_bind_eq_ok.mp hr
    cases ho
    obtain ⟨u, d₂, hu, hr⟩ := run_bind_eq_ok.mp hr
    cases hr
    refine ⟨[':'], rfl, parted_colon _, fun keyword => ?_⟩
    refine retold_look (g := colonNext) (b := true) (peekPunct_eq_decide (by decide)) ?_ ?_
    · exact Retold.after (T := fun _ => True) (Q := (· = none)) (.pure rfl) rfl
        (by rintro _ rfl; exact hend keyword none hu rfl) fun _ _ => trivial
    · rintro t rfl
      rfl
  · rw [if_neg (by simpa using hcolon)] at hr
    obtain ⟨o, d₁, ho, hr⟩ := run_bind_eq_ok.mp hr
    obtain ⟨name, hn, rfl⟩ := run_map_eq_ok.mp ho
    obtain ⟨u, d₂, hu, hr⟩ := run_bind_eq_ok.mp hr
    cases hr
    obtain ⟨⟨y, p, hy, hne, hi⟩, hname⟩ := retold_labelName hn
    refine ⟨' ' :: name.text ++ [':'], by simp [Head.written, spaced_cons, StatementKind.text],
      parted_space _, fun keyword => ?_⟩
    refine retold_look (g := colonNext) (b := false) (peekPunct_eq_decide (by decide)) ?_ ?_
    · refine Retold.bind (Q := fun o => o.map LabelName.bare = some name.bare)
        (Retold.map ((hname.space (by simp [hy])).imp (fun n' hn' => congrArg some hn') fun _ h => h))
        (a := some name) rfl (fun n' hn' => hend keyword n' hu hn') fun t _ => parted_colon t
    · rintro t rfl
      have hd : ((' ' :: name.text ++ [':'] ++ []).dropWhile isInline).head? = some y := by
        rw [hy]
        exact congrArg List.head? (dropWhile_of_not_inline hi _)
      rw [colonNext, hd]
      simpa using hne

theorem continues_jump (hr : afterKeyword keyword .jump c = .ok h d) : Continues .jump c h := by
  obtain ⟨name, d₁, hn, hr⟩ := run_bind_eq_ok.mp hr
  obtain ⟨u, d₂, hu, hr⟩ := run_bind_eq_ok.mp hr
  cases hr
  obtain ⟨⟨y, p, hy, -, -⟩, hname⟩ := retold_labelName hn
  refine ⟨' ' :: name.text, by simp [Head.written, Action.written, Action.summary, Action.kind,
    spaced_cons, StatementKind.text], parted_space _, fun keyword => ?_⟩
  exact (hname.space (by simp [hy])).before rfl
    (fun n' hn' => retold_simple hu (congrArg Action.jump hn')) fun _ => parted_of_nil

theorem continues_call (hr : afterKeyword keyword .call c = .ok h d) : Continues .call c h := by
  obtain ⟨target, d₁, ht, hr⟩ := run_bind_eq_ok.mp hr
  obtain ⟨word, d₂, hw, hr⟩ := run_bind_eq_ok.mp hr
  obtain ⟨⟨y, p, hy, -, -⟩, htarget⟩ := retold_labelName ht
  have htarget := htarget.space (by simp [hy])
  cases word with
  | none =>
    obtain ⟨o, e₁, ho, hr⟩ := run_bind_eq_ok.mp hr
    cases ho
    obtain ⟨u, d₃, hu, hr⟩ := run_bind_eq_ok.mp hr
    cases hr
    refine ⟨' ' :: target.text, by simp [Head.written, Action.written, Action.summary, Action.kind,
      spaced_cons, StatementKind.text], parted_space _, fun keyword => ?_⟩
    refine htarget.before rfl (fun target' ht' => ?_) fun _ => parted_of_nil
    refine (retold_no_keyword hw).after rfl ?_ ?_
    · rintro _ rfl
      exact Retold.after (T := fun _ => True) (Q := (· = none)) (.pure rfl) rfl
        (by rintro _ rfl; exact retold_simple hu (congrArg (Action.call · none) ht'))
        fun _ _ => trivial
    · rintro t rfl hn
      cases hn
  | some word =>
    obtain ⟨o, d₃, ho, hr⟩ := run_bind_eq_ok.mp hr
    obtain ⟨site, hs, rfl⟩ := run_map_eq_ok.mp ho
    obtain ⟨u, d₄, hu, hr⟩ := run_bind_eq_ok.mp hr
    cases hr
    obtain ⟨⟨z, p', hz, -, -⟩, hsite⟩ := retold_labelName hs
    obtain ⟨hn, hkey⟩ := retold_keyword hw
    refine ⟨' ' :: target.text ++ (' ' :: "from".toList ++ ' ' :: site.text), by
      simp [Head.written, Action.written, Action.summary, Action.kind, spaced_cons,
        StatementKind.text], parted_space _, fun keyword => ?_⟩
    refine htarget.bind rfl (fun target' ht' => ?_) fun t _ => parted_space _
    refine (hkey.space hn.ne_nil).bind ⟨word, rfl, rfl⟩ ?_ fun t _ => parted_space _
    rintro _ ⟨word', rfl, -⟩
    refine Retold.before (Q := fun o => o.map LabelName.bare = some site.bare) (a := some site)
      (Retold.map ((hsite.space (by simp [hz])).imp (fun n' hn' => congrArg some hn') fun _ h => h))
      rfl (fun site' hs' => retold_simple hu ?_) fun _ => parted_of_nil
    exact congrArg₂ Action.call ht' hs'

theorem continues_leave (hr : afterKeyword keyword .leave c = .ok h d) : Continues .leave c h := by
  obtain ⟨value, d₁, hv, hr⟩ := run_bind_eq_ok.mp hr
  obtain ⟨u, d₂, hu, hr⟩ := run_bind_eq_ok.mp hr
  cases hr
  cases value with
  | none =>
    refine ⟨[], rfl, parted_nil, fun keyword => ?_⟩
    refine (retold_no_code hv).after rfl ?_ fun _ h => h
    rintro _ rfl
    exact retold_simple hu rfl
  | some e =>
    obtain ⟨hne, hcode⟩ := retold_code? hv
    refine ⟨' ' :: e.text, by simp [Head.written, Action.written, Action.summary, Action.kind,
      spaced_cons, StatementKind.text], parted_space _, fun keyword => ?_⟩
    refine (hcode.space hne).before ⟨e, rfl, rfl⟩ ?_ fun t ht => .inl ht
    rintro _ ⟨e', rfl, he'⟩
    exact retold_simple hu (congrArg (fun e => Action.leave (some e)) he')

theorem continues_pass (hr : afterKeyword keyword .pass c = .ok h d) : Continues .pass c h := by
  obtain ⟨u, d₁, hu, hr⟩ := run_bind_eq_ok.mp hr
  cases hr
  exact ⟨[], rfl, parted_nil, fun keyword => retold_simple hu rfl⟩

theorem continues_transition (hr : afterKeyword keyword .transition c = .ok h d) :
    Continues .transition c h := by
  obtain ⟨e, d₁, he, hr⟩ := run_bind_eq_ok.mp hr
  obtain ⟨u, d₂, hu, hr⟩ := run_bind_eq_ok.mp hr
  cases hr
  obtain ⟨hne, hret⟩ := retold_simpleExpression he
  refine ⟨' ' :: e.text, by simp [Head.written, Action.written, Action.summary, Action.kind,
    spaced_cons, StatementKind.text], parted_space _, fun keyword => ?_⟩
  exact (hret.space hne).before rfl
    (fun e' he' => retold_simple hu (congrArg Action.transition he')) fun _ => parted_of_nil

/-- A line that has an image after its keyword, and perhaps a transition. -/
theorem continues_imageSpec {kind : StatementKind} {construct : String}
    {make : ImageSpec → Option Expression → Action}
    (hread : ∀ keyword, afterKeyword keyword kind = (do
      let i ← imageSpec
      let o ← transition?
      endOfLine construct
      return .simple (make i o) (extent keyword [some i.span, o.map (·.span)])))
    (hwritten : ∀ i o, (make i o).written =
      kind.text.toList ++ (' ' :: i.summary ++ following (transitionWords o)))
    (hbare : ∀ i o, (make i o).bare = make i.bare (o.map Expression.bare))
    (hr : afterKeyword keyword kind c = .ok h d) : Continues kind c h := by
  rw [hread] at hr
  obtain ⟨i, d₁, hi, hr⟩ := run_bind_eq_ok.mp hr
  obtain ⟨o, d₂, ho, hr⟩ := run_bind_eq_ok.mp hr
  obtain ⟨u, d₃, hu, hr⟩ := run_bind_eq_ok.mp hr
  cases hr
  obtain ⟨⟨w, ws, hsum, hw, -⟩, himage⟩ := retold_imageSpec hi
  refine ⟨_, hwritten i o, parted_space _, fun keyword' => ?_⟩
  rw [hread]
  refine (himage.space (by simp [hsum, hw.ne_nil])).bind rfl (fun i' hi' => ?_) ?_
  · refine (retold_transition? ho).before rfl (fun o' ho' => retold_simple hu ?_) fun _ h => h
    rw [hbare, hbare, hi', ho']
  · rintro t rfl
    rw [List.append_nil]
    exact afterImage_transition o

theorem parted_following (ws : List (List Char)) : Parted (following ws) := by
  cases ws with
  | nil => exact parted_nil
  | cons w ws => exact parted_space _

theorem continues_scene (hr : afterKeyword keyword .scene c = .ok h d) : Continues .scene c h := by
  obtain ⟨i, d₁, hi, hr⟩ := run_bind_eq_ok.mp hr
  obtain ⟨o, d₂, ho, hr⟩ := run_bind_eq_ok.mp hr
  obtain ⟨u, d₃, hu, hr⟩ := run_bind_eq_ok.mp hr
  cases hr
  have hq : Head.written (.simple (.scene i o) (extent keyword
      [i.map (·.span), o.map (·.span)])) = "scene".toList ++
        (following (i.map ImageSpec.summary).toList ++ following (transitionWords o)) := by
    simp [Head.written, Action.written, Action.summary, Action.kind, spaced_cons,
      StatementKind.text]
  refine ⟨_, hq, ?_, fun keyword => ?_⟩
  · rw [← following_append]
    exact parted_following _
  · refine (retold_sceneImage? hi).bind rfl (fun i' hi' => ?_) ?_
    · exact (retold_transition? ho).before rfl
        (fun o' ho' => retold_simple hu (congrArg₂ Action.scene hi' ho')) fun _ h => h
    · rintro t rfl
      rw [List.append_nil]
      exact afterImage_transition o

/-- A line that sets a name to a value after its keyword. -/
theorem continues_dottedName {kind : StatementKind} {construct : String}
    {make : List Char → Expression → Action}
    (hread : ∀ keyword, afterKeyword keyword kind = (do
      let (name, _) ← dottedName "variable name"
      let value ← assigned construct
      return .simple (make name value) (keyword.cover value.span)))
    (hwritten : ∀ n e, (make n e).written =
      kind.text.toList ++ (' ' :: n ++ (' ' :: '=' :: ' ' :: e.text)))
    (hbare : ∀ n e, (make n e).bare = make n e.bare)
    (hr : afterKeyword keyword kind c = .ok h d) : Continues kind c h := by
  rw [hread] at hr
  obtain ⟨⟨n, span⟩, d₁, hn, hr⟩ := run_bind_eq_ok.mp hr
  obtain ⟨e, d₂, he, hr⟩ := run_bind_eq_ok.mp hr
  cases hr
  obtain ⟨hne, hname⟩ := retold_dottedName hn
  refine ⟨_, hwritten n e, parted_space _, fun keyword' => ?_⟩
  rw [hread]
  refine (hname.space hne).bind (a := (n, span)) rfl ?_ fun t _ => parted_space _
  rintro ⟨n', span'⟩ (rfl : n' = n)
  refine ((retold_assigned he).space (by simp)).before rfl (fun e' he' => .pure ?_) fun _ h => h
  rw [Head.bare, Head.bare, hbare, hbare, he']

theorem continues_image (hr : afterKeyword keyword .image c = .ok h d) : Continues .image c h := by
  obtain ⟨first, d₁, hfirst, hr⟩ := run_bind_eq_ok.mp hr
  obtain ⟨more, d₂, hmore, hr⟩ := run_bind_eq_ok.mp hr
  obtain ⟨e, d₃, he, hr⟩ := run_bind_eq_ok.mp hr
  cases hr
  obtain ⟨hn, hname⟩ := retold_expectName hfirst
  obtain ⟨hnext, hnames⟩ := retold_moreNames hmore
  refine ⟨' ' :: first.value ++ (following (more.map Lexeme.value) ++
    (' ' :: '=' :: ' ' :: e.text)), by
      simp [Head.written, Action.written, Action.summary, Action.kind, spaced_cons,
        StatementKind.text], parted_space _, fun keyword => ?_⟩
  have hassigned : Parted (' ' :: '=' :: ' ' :: e.text) ∧
      name? ((' ' :: '=' :: ' ' :: e.text).dropWhile isInline) = none := ⟨parted_space _, rfl⟩
  refine (hname.space hn.ne_nil).bind rfl (fun first' hf => ?_) ?_
  · refine hnames.bind rfl (fun more' hm => ?_) ?_
    · refine ((retold_assigned he).space (by simp)).before rfl (fun e' he' => .pure ?_) fun _ h => h
      have hvalues : first'.value :: more'.map Lexeme.value =
          first.value :: more.map Lexeme.value := by
        rw [value_of_word hf, hm]
      exact congrArg₂ (fun ns e => Head.simple (.image ns e) .blank) hvalues he'
    · rintro t rfl
      rwa [List.append_nil]
  · rintro t rfl
    rw [List.append_nil]
    exact hnext _ hassigned

theorem continues_of_afterKeyword {kind : StatementKind}
    (hr : afterKeyword keyword kind c = .ok h d) : Continues kind c h := by
  cases kind with
  | say => exact absurd hr (by simp [afterKeyword, refuse, run_bind, atEnd_eq])
  | label => exact continues_label hr
  | branch | loop =>
    exact continues_condition (fun _ => rfl)
      (by simp [Head.written, spaced_cons, StatementKind.text]) (fun _ _ => rfl) hr
  | menu => exact continues_menu hr
  | jump => exact continues_jump hr
  | call => exact continues_call hr
  | leave => exact continues_leave hr
  | pass => exact continues_pass hr
  | showImage | hideImage =>
    exact continues_imageSpec (fun _ => rfl)
      (by simp [Action.written, Action.summary, Action.kind, spaced_cons, StatementKind.text])
      (fun _ _ => rfl) hr
  | scene => exact continues_scene hr
  | transition => exact continues_transition hr
  | define | default =>
    exact continues_dottedName (fun _ => rfl)
      (by simp [Action.written, Action.summary, Action.kind, spaced_cons, StatementKind.text])
      (fun _ _ => rfl) hr
  | image => exact continues_image hr

end Reader

end NovelScript
