import NovelScript.Proofs.Headings

/-!
# Reading a line again

What a line says is found again in its canonical line wherever that stands, and it is found by the
same reader: a canonical line is spoken, starts a clause or is the line of a choice if the original
line is.
-/

namespace NovelScript.Reader

open Line Text

variable {α : Type} {r : Reader α} {Q : α → Prop} {c d e : Cursor} {l : Lexeme}
  {p q s t w : List Char} {x : Char}

/-- The text starts with something that is neither a blank nor a comment. -/
def Filled (p : List Char) : Prop := ∃ x p', p = x :: p' ∧ isBlank x = false ∧ x ≠ '#'

theorem filled_of_name (hw : IsName w) (t : List Char) : Filled (w ++ t) := by
  obtain ⟨y, w', rfl, hy, -⟩ := hw.exists_cons
  refine ⟨y, w' ++ t, rfl, isBlank_of_name (isNameChar_of_start hy), ?_⟩
  rintro rfl
  exact absurd hy (by decide)

theorem filled_of_quote (hx : isQuote x) (t : List Char) : Filled (x :: t) := by
  refine ⟨x, t, rfl, ?_, ?_⟩
  · simp only [isQuote, Bool.or_eq_true, beq_iff_eq] at hx
    obtain rfl | rfl := hx <;> rfl
  · rintro rfl
    exact absurd hx (by decide)

theorem Filled.dropWhile_eq (h : Filled p) : p.dropWhile isInline = p := by
  obtain ⟨x, p', rfl, hx, -⟩ := h
  refine dropWhile_of_not_inline ?_ p'
  by_contra hi
  rw [isBlank_of_isInline (by simpa using hi)] at hx
  cases hx

/-- The reader finds the same in the canonical line `p`, which is alike to the line `s`. -/
structure Again (r : Reader α) (s p : List Char) (Q : α → Prop) : Prop where
  alike : Alike s p
  filled : Filled p
  reads : ∀ place, ∃ a d, r (.ofContent p place) = .ok a d ∧ Q a

theorem Retold.again (h : Retold r s [] p (· = []) Q) (hp : Filled p) : Again r s p Q := by
  refine ⟨?_, hp, fun place => ?_⟩
  · have ha := h.alike [] rfl (.ended rfl)
    rwa [List.append_nil] at ha
  · obtain ⟨a, d, hr, ha, -⟩ := h.reads (.ofContent p place) [] rfl
      (before_of_rest (List.append_nil p).symm)
    exact ⟨a, d, hr, ha⟩

theorem rest_of_say? (h : say? c = .ok none d) : d.skipBlanks.rest = c.skipBlanks.rest := by
  have hl := Local.say?.leads_of_ok h
  obtain hp | rfl : d.pos = c.pos ∨ d = c.skipBlanks := by
    cases spoken_of_say? h with
    | none hd => exact hd
  · rw [Cursor.rest_skipBlanks, Cursor.rest_skipBlanks, Cursor.rest, Cursor.rest, hl.content, hp]
  · rw [Cursor.skipBlanks_idem]

/-- A line that is not spoken is read again by what reads it after the search for a spoken line. -/
theorem again_of_not_say {f : Option Say → Reader α} (hs : say? c = .ok none e)
    (h : Retold (f none) e.rest [] p (· = []) Q) (hp : Filled p) : Again (say? >>= f) c.rest p Q := by
  have halike : Alike c.rest p := by
    have ha := h.alike [] rfl (.ended rfl)
    rw [List.append_nil] at ha
    have hdrop := ha.dropWhile
    rw [← Cursor.rest_skipBlanks, rest_of_say? hs, Cursor.rest_skipBlanks, hp.dropWhile_eq] at hdrop
    exact hdrop.of_dropWhile
  refine ⟨halike, hp, fun place => ?_⟩
  have hmirror : Mirrored BothSome (say? c) (say? (.ofContent p place)) := mirrored_say? halike
  obtain ⟨o, d, hd, ho, -⟩ := hmirror.elim hs
  cases o with
  | some o => cases ho
  | none =>
    have hb : d.Before (p ++ []) := by
      have hrest : Cursor.rest (.ofContent p place) = p := rfl
      rw [Cursor.Before, rest_of_say? hd, Cursor.rest_skipBlanks, hrest, List.append_nil]
    obtain ⟨a, d', hr, ha, -⟩ := h.reads d [] rfl hb
    exact ⟨a, d', (run_bind_of_ok hd).trans hr, ha⟩

/-! Heads of statements. -/

theorem filled_say {s : Say} (h : say? c = .ok (some s) d) : Filled s.written := by
  cases spoken_of_say? h with
  | @narration what e d hw hend =>
    obtain ⟨q, b, hraw, hq⟩ := exists_raw_cons hw
    have hwritten : Say.written ⟨none, literalOf what, what.span⟩ = q :: b := hraw
    rw [hwritten]
    exact filled_of_quote hq b
  | dialogue hn hwho ha ht hw hend =>
    rw [written_dialogue]
    exact filled_of_name (takes_of_name hwho).1 _

theorem retold_spokenHead {s : Say} (h : say? c = .ok (some s) d) :
    Retold head c.rest [] s.written (· = [])
      fun x => x.bare = .simple (.say s.bare) .blank := by
  refine (retold_say? h).before ⟨s, rfl, rfl⟩ ?_ fun _ h => h
  rintro _ ⟨s', rfl, hs'⟩
  exact (retold_endOfLine _ rfl).after (a := ()) trivial
    (fun _ _ => .pure (congrArg (fun s => Head.simple (.say s) .blank) hs')) fun _ h => h

theorem again_head {x : Head} (h : head c = .ok x d) :
    Again head c.rest x.written fun x' => x'.bare = x.bare := by
  obtain ⟨o, e₀, hs, h⟩ := run_bind_eq_ok.mp h
  cases o with
  | some s =>
    obtain ⟨u, e₁, -, h⟩ := run_bind_eq_ok.mp h
    cases h
    exact (retold_spokenHead hs).again (filled_say hs)
  | none =>
    obtain ⟨next, e₁, hnext, h⟩ := run_bind_eq_ok.mp h
    rw [peekName_eq] at hnext
    cases hnext
    cases hf : StatementKind.keyed.find? fun k =>
        name? e₀.skipBlanks.rest = some k.text.toList with
    | none =>
      rw [hf] at h
      exact absurd h (by simp [refuse, run_bind, atEnd_eq])
    | some kind =>
      simp only [hf] at h
      obtain ⟨keyword, e₂, hk, h⟩ := run_bind_eq_ok.mp h
      obtain ⟨q, hq, hpart, hret⟩ := continues_of_afterKeyword h
      obtain ⟨hn, hkey⟩ := retold_expectKeyword hk
      have hname : name? e₀.skipBlanks.rest = some kind.text.toList := by
        have := List.find?_some hf
        simpa using this
      rw [hq]
      refine again_of_not_say hs ?_ (filled_of_name hn q)
      refine retold_peekName (n := name? e₀.skipBlanks.rest) ?_ ?_
      · simp only [hf]
        refine hkey.bind (a := keyword) trivial (fun keyword' _ => hret keyword'.span) ?_
        rintro t rfl
        rwa [List.append_nil]
      · rintro t rfl
        rw [hname, List.append_assoc]
        refine name?_dropWhile hn fun y hy => hpart.not_name ?_
        rwa [List.append_nil] at hy

/-! Clauses. -/

/-- The keywords that start a clause and no statement. -/
def IsClauseWord (k : String) : Prop := ∀ kind ∈ StatementKind.keyed, kind.text.toList ≠ k.toList

theorem string_skipBlanks (c : Cursor) : string c.skipBlanks = string c := by
  rw [string_eq, string_eq, Cursor.skipBlanks_idem]

/-- A line that is spoken is spoken also without the blanks at its start. -/
theorem say?_skipBlanks {s : Say} (h : say? c = .ok (some s) d) :
    say? c.skipBlanks = .ok (some s) d := by
  refine say?_of_spoken ?_
  cases spoken_of_say? h with
  | narration hw hend => exact .narration ((string_skipBlanks c).trans hw) hend
  | dialogue hn hwho ha ht hw hend =>
    have hstring : string c.skipBlanks = .ok none c.skipBlanks.skipBlanks := by
      rw [string_skipBlanks, hn, Cursor.skipBlanks_idem]
    exact .dialogue hstring ((name_skipBlanks c).trans hwho) ha ht hw hend

/-- The line of a statement starts no clause. -/
theorem startsClause_of_head {k : String} {x : Head} (hk : IsClauseWord k)
    (h : head c = .ok x d) : ∃ e, startsClause k c = .ok false e := by
  unfold startsClause
  rw [run_bind_of_ok peekName_eq]
  by_cases hn : name? c.skipBlanks.rest = some k.toList
  · rw [if_pos hn]
    obtain ⟨o, e₀, hs, h⟩ := run_bind_eq_ok.mp h
    cases o with
    | some s =>
      rw [run_bind_of_ok (say?_skipBlanks hs)]
      exact ⟨e₀, rfl⟩
    | none =>
      obtain ⟨next, e₁, hnext, h⟩ := run_bind_eq_ok.mp h
      rw [peekName_eq, rest_of_say? hs, hn] at hnext
      cases hnext
      have hf : (StatementKind.keyed.find? fun kind => some k.toList = some kind.text.toList) =
          none := by
        rw [List.find?_eq_none]
        intro kind hkind he
        exact hk kind hkind (by simpa using Eq.symm (by simpa using he))
      rw [hf] at h
      exact absurd h (by simp [refuse, run_bind, atEnd_eq])
  · rw [if_neg hn]
    exact ⟨c.skipBlanks, rfl⟩

theorem startsClause_again {k : String} (hk : startsClause k c = .ok true e)
    (ha : Alike c.rest p) (hn : name? p = some k.toList) (hp : Filled p) (place : Place) :
    ∃ e, startsClause k (.ofContent p place) = .ok true e := by
  obtain ⟨next, e₀, hnext, hk⟩ := run_bind_eq_ok.mp hk
  rw [peekName_eq] at hnext
  cases hnext
  by_cases hw : name? c.skipBlanks.rest = some k.toList
  · rw [if_pos hw] at hk
    obtain ⟨o, e₁, hs, hk⟩ := run_bind_eq_ok.mp hk
    cases o with
    | some s => cases hk
    | none =>
      have hrest : Cursor.rest (.ofContent p place) = p := rfl
      have hn' : name? (Cursor.ofContent p place).skipBlanks.rest = some k.toList := by
        rw [Cursor.rest_skipBlanks, hrest, hp.dropWhile_eq, hn]
      have hmirror : Mirrored BothSome (say? c.skipBlanks)
          (say? (Cursor.ofContent p place).skipBlanks) := mirrored_say? (alike_skipBlanks ha)
      obtain ⟨o', d', hs', ho, -⟩ := hmirror.elim hs
      cases o' with
      | some s => cases ho
      | none =>
        refine ⟨d', ?_⟩
        unfold startsClause
        rw [run_bind_of_ok peekName_eq, if_pos hn', run_bind_of_ok hs']
        rfl
  · rw [if_neg hw] at hk
    cases hk

theorem again_elifHead {condition : Expression} {keyword : Span}
    (h : elifHead c = .ok (condition, keyword) d) :
    Again elifHead c.rest (elifLine condition) fun y => y.1.bare = condition.bare := by
  obtain ⟨k, e₁, hk, h⟩ := run_bind_eq_ok.mp h
  obtain ⟨e', e₂, he, h⟩ := run_bind_eq_ok.mp h
  cases h
  obtain ⟨hn, hkey⟩ := retold_expectKeyword hk
  obtain ⟨hne, hcond⟩ := retold_condition he
  have hline : elifLine condition = "elif".toList ++ ' ' :: (condition.text ++ [':']) := by
    simp [elifLine, spaced_cons]
  rw [hline]
  refine Retold.again ?_ (filled_of_name hn _)
  refine hkey.bind (a := k) trivial (fun k' _ => ?_) fun t _ => parted_space _
  exact (hcond.space (by simp)).before rfl (fun e' he' => .pure he') fun _ h => h

theorem again_elseHead {u : Unit} (h : elseHead c = .ok u d) :
    Again elseHead c.rest elseLine fun _ => True := by
  obtain ⟨k, e₁, hk, h⟩ := run_bind_eq_ok.mp h
  obtain ⟨hn, hkey⟩ := retold_expectKeyword hk
  obtain ⟨-, hopen⟩ := retold_opensBlock h
  refine Retold.again ?_ (filled_of_name hn [':'])
  exact hkey.bind (a := k) trivial (fun k' _ => hopen) fun t _ => parted_colon _

/-! Menus. -/

theorem say?_of_captionHead {o : Option Say} (h : captionHead c = .ok o d) :
    ∃ e, say? c = .ok o e := by
  obtain ⟨o', e, hs, h⟩ := run_bind_eq_ok.mp h
  obtain ⟨u, e', -, h⟩ := run_bind_eq_ok.mp h
  cases h
  exact ⟨e, hs⟩

theorem again_captionHead {line : Say} (h : captionHead c = .ok (some line) d) :
    Again captionHead c.rest line.written (SameSay line) := by
  obtain ⟨e, hs⟩ := say?_of_captionHead h
  refine Retold.again ?_ (filled_say hs)
  refine (retold_say? hs).before ⟨line, rfl, rfl⟩ (fun o ho => ?_) fun _ h => h
  exact (retold_endOfLine _ rfl).after (a := ()) trivial (fun _ _ => .pure ho) fun _ h => h

/-- The line of a choice is not spoken, because something follows its text. -/
theorem say?_of_choiceHead {y : Lexeme × Option Expression} (h : choiceHead c = .ok y d) :
    ∃ e, say? c = .ok none e := by
  obtain ⟨text, e₁, ht, h⟩ := run_bind_eq_ok.mp h
  obtain ⟨word, e₂, hw, h⟩ := run_bind_eq_ok.mp h
  have hhead : ∃ x, e₁.skipBlanks.rest.head? = some x ∧ x ≠ '#' := by
    rw [keyword_eq] at hw
    by_cases hn : name? e₁.skipBlanks.rest = some "if".toList
    · obtain ⟨-, r, hr, -⟩ := split_of_name? hn
      exact ⟨'i', by rw [hr]; rfl, by decide⟩
    · rw [if_neg hn] at hw
      cases hw
      obtain ⟨o, e₃, ho, h⟩ := run_bind_eq_ok.mp h
      cases ho
      obtain ⟨u, e₄, hu, h⟩ := run_bind_eq_ok.mp h
      have hcolon := (retold_opensBlock hu).1
      rw [Cursor.skipBlanks_idem] at hcolon
      exact ⟨':', hcolon, by decide⟩
  have hover : isOver e₁.rest = false := by
    obtain ⟨x, hx, hne⟩ := hhead
    rw [isOver, ← Cursor.rest_skipBlanks, hx]
    simpa using hne
  refine ⟨{ e₁.skipBlanks with pos := c.pos }, ?_⟩
  unfold say?
  rw [run_bind_of_ok run_get, run_bind_of_ok (required_eq_ok.mp ht)]
  simp only
  rw [run_bind_of_ok atEnd_eq_isOver, hover]
  rfl

theorem again_choiceHead {text : Lexeme} {condition : Option Expression}
    (h : choiceHead c = .ok (text, condition) d) :
    Again choiceHead c.rest (choiceLine (literalOf text) condition) fun y =>
      y.1.word = text.word ∧ y.2.map Expression.bare = condition.map Expression.bare := by
  obtain ⟨text', e₁, ht, h⟩ := run_bind_eq_ok.mp h
  obtain ⟨word, e₂, hw, h⟩ := run_bind_eq_ok.mp h
  obtain ⟨q, b, hraw, hq⟩ := exists_raw_cons (required_eq_ok.mp ht)
  obtain ⟨hne, hstring⟩ := retold_string (required_eq_ok.mp ht)
  have hfilled : ∀ t, Filled ((literalOf text').raw ++ t) := by
    intro t
    rw [hraw]
    exact filled_of_quote hq _
  have htext : Retold (expectString "menu choice") c.rest e₁.rest (literalOf text').raw
      (fun _ => True) fun l => l.word = text'.word := Retold.required hstring
  cases word with
  | none =>
    obtain ⟨o, e₃, ho, h⟩ := run_bind_eq_ok.mp h
    cases ho
    obtain ⟨u, e₄, hu, h⟩ := run_bind_eq_ok.mp h
    cases h
    obtain ⟨-, hopen⟩ := retold_opensBlock hu
    refine Retold.again ?_ (hfilled [':'])
    refine htext.bind rfl (fun l hl => ?_) fun _ _ => trivial
    refine (retold_no_keyword hw).after rfl ?_ ?_
    · rintro _ rfl
      refine Retold.after (T := fun _ => True) (Q := (· = none)) (.pure rfl) rfl ?_ fun _ _ => trivial
      rintro _ rfl
      exact hopen.before (a := ()) trivial (fun _ _ => .pure ⟨hl, rfl⟩) fun _ h => h
    · rintro t rfl hn
      cases hn
  | some word =>
    obtain ⟨o, e₃, ho, h⟩ := run_bind_eq_ok.mp h
    obtain ⟨e', he, rfl⟩ := run_map_eq_ok.mp ho
    obtain ⟨u, e₄, hu, h⟩ := run_bind_eq_ok.mp h
    cases h
    obtain ⟨hcolon, hopen⟩ := retold_opensBlock hu
    obtain ⟨hen, hcode⟩ := retold_code? (required_eq_ok.mp he)
    obtain ⟨hn, hkey⟩ := retold_keyword hw
    have hline : choiceLine (literalOf text) (some e') = (literalOf text).raw ++
        (' ' :: "if".toList ++ (' ' :: e'.text ++ [':'])) := by
      simp [choiceLine, spaced_cons]
    rw [hline]
    refine Retold.again ?_ (hfilled _)
    refine htext.bind rfl (fun l hl => ?_) fun _ _ => trivial
    refine (hkey.space hn.ne_nil).bind ⟨word, rfl, rfl⟩ ?_ fun t _ => parted_space _
    rintro _ ⟨word', rfl, -⟩
    have hcond : Retold (some <$> code "condition") e₂.rest e₃.rest (' ' :: e'.text) (CodeEnds e₃)
        fun o => o.map Expression.bare = some e'.bare :=
      Retold.map ((hcode.required.space hen).imp (fun e'' he'' => congrArg some he'') fun _ h => h)
    refine hcond.bind (a := some e') rfl (fun o ho => ?_) ?_
    · exact hopen.before (a := ()) trivial (fun _ _ => .pure ⟨hl, ho⟩) fun _ h => h
    · rintro t rfl
      exact .inr ⟨hcolon, rfl⟩

end NovelScript.Reader
