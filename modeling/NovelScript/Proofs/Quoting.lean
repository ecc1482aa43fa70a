import NovelScript.Proofs.Retelling

/-!
# Literals that are written and read

Writing a value as a literal chooses one letter for each of its characters, and reading the literal
gives the values of its letters. So whatever is written is read back, and a literal that was read is
written as it was if and only if all of its letters are the ones that writing chooses.
-/

namespace NovelScript.Line.Literal

namespace Letter

/-- Whether the letter is written in the one way that `quote` has: the letters `n` and `t`,
backslashes and marks are all that is escaped, and tabs and line feeds never stand for
themselves. -/
def Canonical (q : Char) : Letter → Prop
  | plain c => c ≠ '\n' ∧ c ≠ '\t'
  | escaped c => c = 'n' ∨ c = 't' ∨ c = '\\' ∨ c = q

/-- The letter that `quote` writes for a character. -/
def ofChar (q c : Char) : Letter :=
  if c = '\\' ∨ c = q then escaped c
  else if c = '\n' then escaped 'n'
  else if c = '\t' then escaped 't'
  else plain c

instance (q : Char) (l : Letter) : Decidable (l.Canonical q) :=
  match l with
  | plain _ => inferInstanceAs (Decidable (_ ∧ _))
  | escaped _ => inferInstanceAs (Decidable (_ ∨ _))

variable {q : Char} {l : Letter}

theorem fits_ofChar (hq : isQuote q) (c : Char) : (ofChar q c).Fits q := by
  have hback := ne_backslash_of_quote hq
  unfold ofChar
  by_cases hc : c = '\\' ∨ c = q
  · rw [if_pos hc]
    exact hback
  · rw [if_neg hc]
    split_ifs
    · exact hback
    · exact hback
    · exact ⟨fun h => hc (.inr h), fun h => hc (.inl h)⟩

theorem canonical_ofChar (q c : Char) : (ofChar q c).Canonical q := by
  unfold ofChar
  by_cases hc : c = '\\' ∨ c = q
  · rw [if_pos hc]
    exact .inr (.inr hc)
  · rw [if_neg hc]
    split_ifs with hn ht
    · exact .inl rfl
    · exact .inr (.inl rfl)
    · exact ⟨hn, ht⟩

theorem unescape_mark (hq : isQuote q) : unescape q = q := by
  simp only [isQuote, Bool.or_eq_true, beq_iff_eq] at hq
  rcases hq with rfl | rfl <;> rfl

/-- The letter of a character has that character as its value. -/
theorem value_ofChar (hq : isQuote q) (c : Char) : (ofChar q c).value = c := by
  unfold ofChar
  by_cases hc : c = '\\' ∨ c = q
  · rw [if_pos hc]
    rcases hc with rfl | rfl
    · rfl
    · exact unescape_mark hq
  · rw [if_neg hc]
    split_ifs with hn ht
    · exact hn.symm
    · exact ht.symm
    · rfl

/-- No other letter than a canonical one is written for its value. -/
theorem ofChar_value_eq_iff (hq : isQuote q) (h : l.Fits q) :
    ofChar q l.value = l ↔ l.Canonical q := by
  constructor
  · intro he
    rw [← he]
    exact canonical_ofChar q l.value
  · intro hl
    have hblank : ¬('\n' = '\\' ∨ '\n' = q) ∧ ¬('\t' = '\\' ∨ '\t' = q) := by
      constructor <;>
      · rintro (hc | rfl)
        · exact absurd hc (by decide)
        · exact absurd hq (by decide)
    cases l with
    | plain c =>
      have hc : ¬(c = '\\' ∨ c = q) := fun hc => hc.elim h.2 h.1
      rw [value, ofChar, if_neg hc, if_neg hl.1, if_neg hl.2]
    | escaped c =>
      rw [value]
      rcases hl with rfl | rfl | rfl | rfl
      · exact if_neg hblank.1
      · exact if_neg hblank.2
      · exact if_pos (.inl rfl)
      · rw [unescape_mark hq]
        exact if_pos (.inr rfl)

end Letter

open Letter

variable {q : Char}

theorem replace_singleton (old : Char) (new cs : List Char) :
    replace [old] new cs = cs.flatMap fun c => if c = old then new else [c] := by
  unfold replace
  induction cs with
  | nil => rfl
  | cons c cs ih =>
    have hprefix : [old].isPrefixOf (c :: cs) = (old == c) := by simp [List.isPrefixOf]
    rw [List.flatMap_cons, List.length_cons, replace.go, hprefix]
    by_cases hc : c = old
    · simp only [hc, List.isEmpty_cons, Bool.false_eq_true, beq_self_eq_true, if_true, if_false]
      exact congrArg (new ++ ·) ih
    · have hne : (old == c) = false := beq_false_of_ne (Ne.symm hc)
      simp only [hc, hne, List.isEmpty_cons, Bool.false_eq_true, if_false]
      exact congrArg (c :: ·) ih

/-- The four replacements come to one letter for each character: none of them touches what an
earlier one has put in. -/
theorem quote_eq (hq : isQuote q) (value : List Char) :
    quote [q] value = q :: ((value.map (ofChar q)).flatMap text ++ [q]) := by
  have hassoc : ∀ f g h k : Char → List Char, (((value.flatMap f).flatMap g).flatMap h).flatMap k =
      value.flatMap fun c => (((f c).flatMap g).flatMap h).flatMap k := by
    intro f g h k
    simp only [List.flatMap_assoc]
  have hback : '\\' ≠ q := (ne_backslash_of_quote hq).symm
  have hblank : q ≠ '\n' ∧ q ≠ '\t' := by
    constructor <;>
    · rintro rfl
      exact absurd hq (by decide)
  simp only [quote, replace_singleton, hassoc, List.flatMap_map, List.singleton_append]
  rw [List.cons_append]
  refine congrArg (fun f : Char → List Char => q :: (value.flatMap f ++ [q])) (funext fun c => ?_)
  unfold ofChar
  by_cases hb : c = '\\'
  · simp [hb, hback, text]
  · by_cases hm : c = q
    · simp [hm, hback.symm, hblank.1, hblank.2, text]
    · by_cases hf : c = '\n'
      · simp [hf, hblank.1.symm, text]
      · by_cases ht : c = '\t'
        · simp [ht, hblank.2.symm, text]
        · simp [hb, hm, hf, ht, text]

end NovelScript.Line.Literal

namespace NovelScript.Reader

open Line Literal Letter

variable {c d : Cursor} {l : Lexeme} {q : Char} {ls : List Letter} {rest : List Char}

/-- Letters between marks are read as one lexeme. -/
theorem string_of_letters (hq : isQuote q) (h : ∀ x ∈ ls, x.Fits q) {raw : List Char}
    (hraw : raw = q :: (ls.flatMap text ++ [q])) (hr : c.skipBlanks.rest = raw ++ rest) :
    string c = .ok (some (c.skipBlanks.take raw.length (.string (ls.map value) raw)).1)
      (c.skipBlanks.take raw.length (.string (ls.map value) raw)).2 := by
  have hlength : (ls.flatMap text).length + 1 + 1 = raw.length := by
    rw [hraw, List.length_cons, List.length_append, List.length_singleton]
  have hsplit : raw ++ rest = q :: (ls.flatMap text ++ q :: rest) := by
    rw [hraw, List.cons_append, List.append_assoc, List.singleton_append]
  have htake : (q :: (ls.flatMap text ++ q :: rest)).take raw.length = raw := by
    rw [← hsplit, List.take_left]
  rw [string_eq, hr, hsplit]
  simp only [hq, if_true, body?_flatMap_text h, hlength, htake]

/-- What is read as a string is letters between marks. -/
theorem letters_of_string (h : string c = .ok (some l) d) : ∃ (q : Char) (ls : List Letter),
    isQuote q ∧ (∀ x ∈ ls, x.Fits q) ∧
      l.word = .string (ls.map value) (q :: (ls.flatMap text ++ [q])) ∧
      c.skipBlanks.rest = q :: (ls.flatMap text ++ [q]) ++ d.rest := by
  obtain ⟨q, b, v, hl, hq, hb, hr⟩ := split_of_string h
  obtain ⟨ls, more, hls, hbody, rfl, hlength⟩ := exists_letters_of_body? (hb [])
  have hmore : more = [] := by
    have := congrArg List.length hbody
    rw [List.append_nil, List.length_append, List.length_cons] at this
    exact List.eq_nil_of_length_eq_zero (by omega)
  rw [List.append_nil, hmore] at hbody
  rw [hbody] at hl hr
  exact ⟨q, ls, hq, hls, hl, hr⟩

/-- Whatever is written as a literal is read as the value it was written for, and the cursor comes
to stand right behind the literal. -/
theorem string_of_quote (hq : isQuote q) (value rest : List Char)
    (hc : c.rest = Literal.quote [q] value ++ rest) :
    ∃ l d, string c = .ok (some l) d ∧ l.word = .string value (Literal.quote [q] value) ∧
      l.place = c.ahead (Literal.quote [q] value).length ∧ d.rest = rest ∧
      d = { c with pos := c.pos + (Literal.quote [q] value).length, last := some l } := by
  have hquote := quote_eq hq value
  have hskip : c.skipBlanks = c := by
    have hblanks : c.rest.takeWhile Text.isInline = [] := by
      rw [hc, hquote, List.cons_append]
      exact List.takeWhile_cons_of_neg (by simp [isInline_of_quote hq])
    rw [Cursor.skipBlanks, hblanks]
    rfl
  have hvalue : (value.map (ofChar q)).map Letter.value = value := by
    rw [List.map_map]
    exact List.map_id'' (value_ofChar hq) value
  have hfits : ∀ x ∈ value.map (ofChar q), x.Fits q := by
    intro x hx
    obtain ⟨y, -, rfl⟩ := List.mem_map.mp hx
    exact fits_ofChar hq y
  have hread := string_of_letters (c := c) hq hfits hquote (by rw [hskip, hc])
  rw [hskip, hvalue] at hread
  refine ⟨_, _, hread, rfl, rfl, ?_, rfl⟩
  rw [Cursor.rest_take, hc, List.drop_left]

/-- Everything that is escaped, and both marks. -/
def thorny : List Char := "\\\"'\t\n\r \\".toList

theorem string_of_quote_thorny : isQuote '\'' ∧
    ∃ l d, string (.ofContent (Literal.quote ['\''] thorny ++ "'\\".toList) ⟨1, 1, 0, 17⟩) =
      .ok (some l) d ∧ l.value = thorny ∧ d.pos = 15 ∧ d.rest = "'\\".toList := by
  have hmark : isQuote '\'' := by decide
  obtain ⟨l, d, hread, hword, -, hrest, hd⟩ := string_of_quote
    (c := .ofContent (Literal.quote ['\''] thorny ++ "'\\".toList) ⟨1, 1, 0, 17⟩) hmark thorny
      "'\\".toList rfl
  refine ⟨hmark, l, d, hread, ?_, ?_, hrest⟩
  · rw [Lexeme.value, hword]
    rfl
  · rw [hd]
    exact (by decide : 0 + (Literal.quote ['\''] thorny).length = 15)

/-- A literal that was read is written as it was exactly when each of its letters is canonical. So
no two letters that are not make up for each other. -/
theorem quote_value_eq_raw_iff (h : string c = .ok (some l) d) :
    ∃ (q : Char) (body value : List Char),
      l.word = .string value (q :: (body ++ [q])) ∧ isQuote q ∧
        (Literal.quote [q] value = q :: (body ++ [q]) ↔ ∀ x ∈ letters body, x.Canonical q) := by
  obtain ⟨q, ls, hq, hls, hl, -⟩ := letters_of_string h
  refine ⟨q, _, _, hl, hq, ?_⟩
  rw [letters_flatMap_text hls, quote_eq hq, List.map_map]
  have hletters : (ls.map (ofChar q ∘ value)).flatMap text = ls.flatMap text ↔
      ls.map (ofChar q ∘ value) = ls := by
    refine ⟨fun htext => ?_, congrArg _⟩
    have hfits : ∀ x ∈ ls.map (ofChar q ∘ value), x.Fits q := by
      intro x hx
      obtain ⟨y, -, rfl⟩ := List.mem_map.mp hx
      exact fits_ofChar hq y.value
    rw [← letters_flatMap_text hfits, htext, letters_flatMap_text hls]
  have heach : ls.map (ofChar q ∘ value) = ls ↔ ∀ x ∈ ls, ofChar q x.value = x := by
    have hid := List.map_inj_left (l := ls) (f := ofChar q ∘ value) (g := id)
    rwa [List.map_id] at hid
  rw [List.cons_inj_right, List.append_left_inj, hletters, heach]
  exact forall₂_congr fun x hx => ofChar_value_eq_iff hq (hls x hx)

/-- One letter takes one character less when it is written again, and the other takes one more. -/
def swapped : List Char := "\"\\q\t\"".toList

theorem quote_value_eq_raw_iff_swapped : ∃ l d,
    string (.ofContent swapped ⟨1, 1, 0, 5⟩) = .ok (some l) d ∧ l.word.raw? = some swapped ∧
      (Literal.quote ['"'] l.value).length = swapped.length ∧
      Literal.quote ['"'] l.value ≠ swapped := by
  have hread : string (.ofContent swapped ⟨1, 1, 0, 5⟩) =
      .ok (some ⟨.string "q\t".toList swapped, ⟨1, 1, 0, 5⟩⟩)
        ((Cursor.ofContent swapped ⟨1, 1, 0, 5⟩).take 5 (.string "q\t".toList swapped)).2 := by
    rfl
  obtain ⟨q, body, value, hword, -, hiff⟩ := quote_value_eq_raw_iff hread
  obtain ⟨rfl, hraw⟩ := Word.string.inj hword
  obtain ⟨rfl, hbody⟩ := List.cons.inj hraw
  have hend : "\\q\t".toList ++ ['"'] = body ++ ['"'] := hbody
  obtain rfl : "\\q\t".toList = body := List.append_cancel_right hend
  refine ⟨_, _, hread, rfl, by decide, fun heq => ?_⟩
  exact absurd (hiff.mp heq) (by decide)

end NovelScript.Reader
