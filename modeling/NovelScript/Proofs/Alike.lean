import NovelScript.Proofs.Fragments
import NovelScript.Proofs.Locality

/-!
# Texts that are alike to a search for a spoken line

A search for a spoken line takes names, literals and signs, and passes over the blanks between them.
Two texts are `Alike` when they consist of the same of these lumps, whatever the blanks between the
lumps and the comment after the first text. A line that is alike to one that is not spoken is not
spoken either.
-/

namespace NovelScript

open Line Text

namespace Line

/-- Whether nothing but blanks and a comment is left of a line. -/
def isOver (s : List Char) : Bool :=
  match (s.dropWhile isInline).head? with
  | none => true
  | some c => c == '#'

/-- The search takes `w` at once when `r` follows. -/
inductive Lump : List Char → List Char → Prop
  | name {w r : List Char} (hw : IsName w) (hr : ∀ x, r.head? = some x → isNameChar x = false) :
    Lump w r
  | literal {q : Char} {b r : List Char} (hq : isQuote q) (hb : IsBody q b) : Lump (q :: b) r
  | sign {c : Char} {r : List Char} (hn : isNameStart c = false) (hq : isQuote c = false)
    (hi : isInline c = false) : Lump [c] r

/-- The second text has the lumps of the first one, and nothing after them. -/
inductive Alike : List Char → List Char → Prop
  | ended {s : List Char} (h : isOver s) : Alike s []
  | lump {s s' w r r' : List Char} (hs : s.dropWhile isInline = w ++ r)
    (hs' : s'.dropWhile isInline = w ++ r') (hw : Lump w r) (hw' : Lump w r') (h : Alike r r') :
    Alike s s'

variable {s s' p r r' w : List Char} {c x : Char}

theorem isInline_of_quote (h : isQuote c) : isInline c = false := by
  simp only [isQuote, Bool.or_eq_true, beq_iff_eq] at h
  obtain rfl | rfl := h <;> decide

theorem isNameStart_of_quote (h : isQuote c) : isNameStart c = false := by
  simp only [isQuote, Bool.or_eq_true, beq_iff_eq] at h
  obtain rfl | rfl := h <;> decide

theorem dropWhile_of_not_inline (h : isInline c = false) (s : List Char) :
    (c :: s).dropWhile isInline = c :: s := List.dropWhile_cons_of_neg (by simp [h])

theorem dropWhile_idem (s : List Char) :
    (s.dropWhile isInline).dropWhile isInline = s.dropWhile isInline := by
  have hn := List.head?_dropWhile_not isInline s
  cases h : s.dropWhile isInline with
  | nil => rfl
  | cons c t =>
    rw [h] at hn
    exact dropWhile_of_not_inline (by simpa using hn) t

/-- A lump starts with a character that is no blank. -/
theorem Lump.exists_cons (h : Lump w r) : ∃ c w', w = c :: w' ∧ isInline c = false := by
  cases h with
  | name hw hr =>
    obtain ⟨c, w', rfl, hc, -⟩ := hw.exists_cons
    exact ⟨c, w', rfl, isInline_of_start hc⟩
  | literal hq hb => exact ⟨_, _, rfl, isInline_of_quote hq⟩
  | sign hn hq hi => exact ⟨_, _, rfl, hi⟩

namespace Alike

theorem of_dropWhile (h : Alike (s.dropWhile isInline) s') : Alike s s' := by
  cases h with
  | ended h => exact .ended (by rwa [isOver, dropWhile_idem] at h)
  | lump hs hs' hw hw' h => exact .lump (by rwa [dropWhile_idem] at hs) hs' hw hw' h

theorem dropWhile (h : Alike s s') : Alike (s.dropWhile isInline) (s'.dropWhile isInline) := by
  cases h with
  | ended h => exact .ended (by rwa [isOver, dropWhile_idem])
  | lump hs hs' hw hw' h =>
    exact .lump (by rwa [dropWhile_idem]) (by rwa [dropWhile_idem]) hw hw' h

theorem space (h : Alike s s') (hne : s' ≠ []) : Alike s (' ' :: s') := by
  cases h with
  | ended h => exact absurd rfl hne
  | @lump _ _ w r r' hs hs' hw hw' h =>
    have hspace : (' ' :: s').dropWhile isInline = w ++ r' := hs'
    exact .lump hs hspace hw hw' h

/-- The same blank may be put before both texts, if the second one goes on. -/
theorem blank (hx : isInline x) (h : Alike s s') (hne : s' ≠ []) : Alike (x :: s) (x :: s') := by
  cases h with
  | ended h => exact absurd rfl hne
  | lump hs hs' hw hw' h =>
    have hdrop : ∀ t : List Char, (x :: t).dropWhile isInline = t.dropWhile isInline := fun t =>
      List.dropWhile_cons_of_pos hx
    exact .lump (by rwa [hdrop]) (by rwa [hdrop]) hw hw' h

/-- A lump before texts that are alike. -/
theorem cons (hw : Lump w r) (hw' : Lump w r') (h : Alike r r') : Alike (w ++ r) (w ++ r') := by
  obtain ⟨c, w', rfl, hc⟩ := hw.exists_cons
  have hs : ∀ t, (c :: w' ++ t).dropWhile isInline = c :: w' ++ t := fun t =>
    dropWhile_of_not_inline hc _
  exact .lump (hs r) (hs r') hw hw' h

/-- No character but a blank is in the second text alone. -/
theorem mem_or_inline (h : Alike s s') (hx : x ∈ s') : x ∈ s ∨ isInline x := by
  have hsplit : ∀ {t : List Char}, x ∈ t → isInline x ∨ x ∈ t.dropWhile isInline := by
    intro t ht
    rw [← List.takeWhile_append_dropWhile (p := isInline) (l := t)] at ht
    exact (List.mem_append.mp ht).imp_left List.mem_takeWhile_imp
  induction h with
  | ended h => cases hx
  | @lump s s' w r r' hs hs' hw hw' h ih =>
    have hmem : ∀ y ∈ w ++ r, y ∈ s := by
      intro y hy
      rw [← hs] at hy
      exact (List.dropWhile_suffix isInline).subset hy
    obtain hx | hx := hsplit hx
    · exact .inr hx
    · rw [hs'] at hx
      obtain hx | hx := List.mem_append.mp hx
      · exact .inl (hmem x (List.mem_append_left _ hx))
      · exact (ih hx).imp_left fun hr => hmem x (List.mem_append_right _ hr)

theorem Lump.isInline_last (h : Lump w r) (hx : w.getLast? = some x) : isInline x = false := by
  cases h with
  | name hw hr =>
    obtain ⟨c, w', rfl, -, hall⟩ := hw.exists_cons
    have hx := hall x (List.mem_of_getLast? hx)
    by_contra hi
    simp only [isInline, Bool.not_eq_false, Bool.or_eq_true, beq_iff_eq] at hi
    obtain ((rfl | rfl) | rfl) | rfl := hi <;> exact absurd hx (by decide)
  | literal hq hb =>
    rw [List.getLast?_cons, hb.last] at hx
    cases hx
    exact isInline_of_quote hq
  | sign hn hq hi =>
    cases hx
    exact hi

/-- The second text ends with no blank. -/
theorem isInline_last (h : Alike s s') (hx : s'.getLast? = some x) : isInline x = false := by
  induction h with
  | ended h => cases hx
  | @lump s s' w r r' hs hs' hw hw' h ih =>
    have hsplit : s' = s'.takeWhile isInline ++ (w ++ r') := by
      rw [← hs', List.takeWhile_append_dropWhile]
    rw [hsplit, ← List.append_assoc, List.getLast?_append] at hx
    cases hr : r'.getLast? with
    | some y =>
      rw [hr] at hx
      cases hx
      exact ih hr
    | none =>
      obtain ⟨c, w', rfl, hc⟩ := hw.exists_cons
      have hlast : (c :: w').getLast? = some x := by
        rw [hr, Option.none_or, List.getLast?_append] at hx
        simpa [List.getLast?_cons] using hx
      exact Lump.isInline_last hw hlast

end Alike

theorem Whole.of_append_name {n : List Char} (hn : ∀ x ∈ n, isNameChar x) (h : Whole (n ++ p)) :
    Whole p := by
  induction n with
  | nil => exact h
  | cons c n ih =>
    have hq := isQuote_of_name (hn c List.mem_cons_self)
    rw [List.cons_append] at h
    generalize ht : c :: (n ++ p) = t at h
    cases h with
    | nil => cases ht
    | char hc h =>
      obtain ⟨rfl, rfl⟩ := List.cons.inj ht
      exact ih (fun x hx => hn x (List.mem_cons_of_mem _ hx)) h
    | literal hq' hb h =>
      obtain ⟨rfl, -⟩ := List.cons.inj ht
      rw [hq] at hq'
      cases hq'

/-- No inline blank stands at the end of the text. -/
def Shut (p : List Char) : Prop := ∀ x, p.getLast? = some x → isInline x = false

theorem getLast?_append_of_some {n : List Char} (h : p.getLast? = some x) :
    (n ++ p).getLast? = some x := by
  rw [List.getLast?_append, h]
  rfl

theorem Apart.of_append {n : List Char} (h : Apart (n ++ p) r) : Apart p r :=
  fun x y hx hy hn => h x y (getLast?_append_of_some hx) hy hn

theorem Shut.of_append {n : List Char} (h : Shut (n ++ p)) : Shut p :=
  fun x hx => h x (getLast?_append_of_some hx)

/-- The same text before texts that are alike, if no name runs on after it. -/
theorem Whole.alike_append (hp : Whole p) (hs : Shut p) (h : Alike r r') (hr : Apart p r)
    (hr' : Apart p r') : Alike (p ++ r) (p ++ r') := by
  induction hn : p.length using Nat.strongRecOn generalizing p with
  | _ k ih =>
    cases hp with
    | nil => exact h
    | @char c cs hc hcs =>
      have hrest : Shut cs → Apart cs r → Apart cs r' → Alike (cs ++ r) (cs ++ r') := fun h₁ h₂ h₃ =>
        ih cs.length (by rw [← hn, List.length_cons]; omega) hcs h₁ h₂ h₃ rfl
      have hs' : Shut cs := Shut.of_append (n := [c]) hs
      have hr₁ : Apart cs r := Apart.of_append (n := [c]) hr
      have hr₂ : Apart cs r' := Apart.of_append (n := [c]) hr'
      by_cases hi : isInline c
      · -- The text does not end with a blank, so it goes on.
        refine (hrest hs' hr₁ hr₂).blank hi fun hnil => ?_
        rw [(List.append_eq_nil_iff.mp hnil).1] at hs
        rw [hs c rfl] at hi
        cases hi
      · by_cases hname : isNameStart c
        · obtain ⟨n, hfound⟩ : ∃ n, name? (c :: cs) = some n := ⟨_, by rw [name?_cons, if_pos hname]⟩
          obtain ⟨hn', p', hp', hend⟩ := split_of_name? hfound
          have hw : Whole (n ++ p') := hp' ▸ Whole.char hc hcs
          have hlen : p'.length < k := by
            have := congrArg List.length hp'
            have := List.length_pos_iff.mpr hn'.ne_nil
            rw [List.length_append] at *
            omega
          have hnext : ∀ {t}, Apart (n ++ p') t → ∀ x, (p' ++ t).head? = some x →
              isNameChar x = false := by
            intro t ht x hx
            cases p' with
            | cons y p' => exact hend x hx
            | nil =>
              rw [List.append_nil] at ht
              have hy := List.getLast?_eq_some_getLast hn'.ne_nil
              exact ht _ x hy hx (hn'.all_char _ (List.mem_of_getLast? hy))
          rw [hp'] at hs hr hr' ⊢
          rw [List.append_assoc, List.append_assoc]
          exact Alike.cons (.name hn' (hnext hr)) (.name hn' (hnext hr'))
            (ih p'.length hlen (hw.of_append_name hn'.all_char) hs.of_append hr.of_append
              hr'.of_append rfl)
        · exact Alike.cons (w := [c]) (.sign (by simpa using hname) hc (by simpa using hi))
            (.sign (by simpa using hname) hc (by simpa using hi)) (hrest hs' hr₁ hr₂)
    | @literal q b cs hq hb hcs =>
      have hrest := ih cs.length (by rw [← hn, List.length_cons, List.length_append]; omega) hcs
        (Shut.of_append (n := q :: b) hs) (Apart.of_append (n := q :: b) hr)
        (Apart.of_append (n := q :: b) hr') rfl
      have hcons : ∀ t, q :: (b ++ cs) ++ t = q :: b ++ (cs ++ t) := by simp
      rw [hcons, hcons]
      exact Alike.cons (.literal hq hb) (.literal hq hb) hrest

theorem Alike.isOver_eq (h : Alike s s') : isOver s = isOver s' := by
  cases h with
  | ended h => exact h
  | lump hs hs' hw hw' h =>
    obtain ⟨c, w', rfl, -⟩ := hw.exists_cons
    rw [isOver, isOver, hs, hs']
    rfl

namespace Lump

theorem name?_append (h : Lump w r) (hn : IsName w) : name? (w ++ r) = some w := by
  obtain ⟨c, w', rfl, hc, -⟩ := hn.exists_cons
  cases h with
  | name hw hr => exact hw.name?_append hr
  | literal hq hb =>
    rw [isNameStart_of_quote hq] at hc
    cases hc
  | sign hs hq hi =>
    rw [hs] at hc
    cases hc

theorem name?_eq_none (h : Lump w r) (hn : ¬IsName w) (t : List Char) : name? (w ++ t) = none := by
  cases h with
  | name hw hr => exact absurd hw hn
  | literal hq hb => rw [List.cons_append, name?_cons, if_neg (by simp [isNameStart_of_quote hq])]
  | sign hs hq hi => rw [List.cons_append, name?_cons, if_neg (by simp [hs])]

/-- A sign of the search is a lump of its own. -/
theorem eq_singleton (h : Lump w r) (hx : w.head? = some x) (hn : isNameStart x = false)
    (hq : isQuote x = false) : w = [x] := by
  cases h with
  | name hw hr =>
    obtain ⟨c, w', rfl, hc, -⟩ := hw.exists_cons
    cases hx
    rw [hn] at hc
    cases hc
  | literal hq' hb =>
    cases hx
    rw [hq] at hq'
    cases hq'
  | sign hs hq' hi =>
    cases hx
    rfl

end Lump

end Line

namespace Reader

variable {α β : Type} {c c' d d' : Cursor} {S : α → α → Prop} {T : β → β → Prop}

/-- The second result is no fault if the first one is none, and both are the same to `S`. -/
def Mirrored (S : α → α → Prop) :
    EStateM.Result Fault Cursor α → EStateM.Result Fault Cursor α → Prop
  | .ok a d, .ok a' d' => S a a' ∧ Alike d.rest d'.rest
  | .ok _ _, .error _ _ => False
  | .error _ _, _ => True

/-- Both parts were found, or neither. -/
def BothSome (o o' : Option α) : Prop := o.isSome = o'.isSome

theorem Mirrored.bind {r r' : Reader α} {f f' : α → Reader β} (h : Mirrored S (r c) (r' c'))
    (hf : ∀ a a' d d', r c = .ok a d → r' c' = .ok a' d' → S a a' → Alike d.rest d'.rest →
      Mirrored T (f a d) (f' a' d')) : Mirrored T ((r >>= f) c) ((r' >>= f') c') := by
  rw [run_bind, run_bind]
  cases hr : r c with
  | error e d => trivial
  | ok a d =>
    rw [hr] at h
    cases hr' : r' c' with
    | error e' d' =>
      rw [hr'] at h
      exact False.elim h
    | ok a' d' =>
      rw [hr'] at h
      exact hf a a' d d' hr hr' h.1 h.2

theorem Mirrored.elim {r r' : Reader α} (h : Mirrored S (r c) (r' c')) {a : α}
    (hr : r c = .ok a d) : ∃ a' d', r' c' = .ok a' d' ∧ S a a' ∧ Alike d.rest d'.rest := by
  rw [hr] at h
  cases hr' : r' c' with
  | error e' d' =>
    rw [hr'] at h
    exact False.elim h
  | ok a' d' =>
    rw [hr'] at h
    exact ⟨a', d', rfl, h⟩

theorem rest_take_of_append {w r : List Char} (h : c.skipBlanks.rest = w ++ r) (word : Word) :
    (c.skipBlanks.take w.length word).2.rest = r := by
  rw [Cursor.rest_take, h, List.drop_left]

/-- Either both texts are over, or the same lump comes next in both. -/
theorem alike_cases (h : Alike c.rest c'.rest) :
    (c'.skipBlanks.rest = [] ∧ (c.skipBlanks.rest = [] ∨ ∃ t, c.skipBlanks.rest = '#' :: t)) ∨
    ∃ w r r', c.skipBlanks.rest = w ++ r ∧ c'.skipBlanks.rest = w ++ r' ∧ Lump w r ∧ Lump w r' ∧
      Alike r r' := by
  rw [Cursor.rest_skipBlanks, Cursor.rest_skipBlanks]
  generalize c.rest = s at h
  generalize c'.rest = s' at h
  cases h with
  | ended h =>
    refine .inl ⟨rfl, ?_⟩
    rw [isOver] at h
    cases hs : s.dropWhile isInline with
    | nil => exact .inl rfl
    | cons x t =>
      rw [hs] at h
      have hx : x = '#' := by simpa using h
      exact .inr ⟨t, by rw [hx]⟩
  | lump hs hs' hw hw' h => exact .inr ⟨_, _, _, hs, hs', hw, hw', h⟩

theorem alike_skipBlanks (h : Alike c.rest c'.rest) :
    Alike c.skipBlanks.rest c'.skipBlanks.rest := by
  rw [Cursor.rest_skipBlanks, Cursor.rest_skipBlanks]
  exact h.dropWhile

theorem mirrored_name (h : Alike c.rest c'.rest) : Mirrored BothSome (name c) (name c') := by
  have hskip := alike_skipBlanks h
  rw [name_eq, name_eq]
  obtain ⟨hr', hr⟩ | ⟨w, r, r', hr, hr', hw, hw', h⟩ := alike_cases h
  · have hn : name? c.skipBlanks.rest = none := by
      obtain hr | ⟨t, hr⟩ := hr <;> rw [hr] <;> rfl
    have hn' : name? c'.skipBlanks.rest = none := by rw [hr']; rfl
    rw [hn, hn']
    exact ⟨rfl, hskip⟩
  · by_cases hn : IsName w
    · rw [hr, hr', hw.name?_append hn, hw'.name?_append hn]
      exact ⟨rfl, by rwa [rest_take_of_append hr, rest_take_of_append hr']⟩
    · rw [hr, hr', hw.name?_eq_none hn, hw.name?_eq_none hn]
      exact ⟨rfl, hskip⟩

theorem string_of_not_quote (h : ∀ q t, c.skipBlanks.rest = q :: t → isQuote q = false) :
    string c = .ok none c.skipBlanks := by
  rw [string_eq]
  cases hr : c.skipBlanks.rest with
  | nil => rfl
  | cons q t => simp only [h q t hr, Bool.false_eq_true, if_false]

theorem string_of_literal {q : Char} {b r v : List Char} (hr : c.skipBlanks.rest = q :: b ++ r)
    (hq : isQuote q) (hb : Literal.body? q (b ++ r) = some (v, b.length)) :
    ∃ l d, string c = .ok (some l) d ∧ l.word = .string v (q :: b) ∧ d.rest = r := by
  have htake : (q :: (b ++ r)).take (b.length + 1) = q :: b := by
    rw [List.take_succ_cons, List.take_left]
  have hs : string c = .ok (some (c.skipBlanks.take (q :: b).length (.string v (q :: b))).1)
      (c.skipBlanks.take (q :: b).length (.string v (q :: b))).2 := by
    rw [string_eq, hr, List.cons_append]
    simp only [hq, if_true, hb, htake]
    rfl
  exact ⟨_, _, hs, rfl, rest_take_of_append hr _⟩

theorem mirrored_string (h : Alike c.rest c'.rest) : Mirrored BothSome (string c) (string c') := by
  have hskip := alike_skipBlanks h
  obtain ⟨hr', hr⟩ | ⟨w, r, r', hr, hr', hw, hw', h⟩ := alike_cases h
  · have hn : string c = .ok none c.skipBlanks := by
      refine string_of_not_quote fun q t hq => ?_
      obtain hr | ⟨t', hr⟩ := hr <;> rw [hr] at hq <;> cases hq
      rfl
    have hn' : string c' = .ok none c'.skipBlanks := by
      refine string_of_not_quote fun q t hq => ?_
      rw [hr'] at hq
      cases hq
    rw [hn, hn']
    exact ⟨rfl, hskip⟩
  · have hnone : ∀ {c : Cursor} {r : List Char}, c.skipBlanks.rest = w ++ r →
        (∀ x, w.head? = some x → isQuote x = false) → string c = .ok none c.skipBlanks := by
      intro c r hr hq
      refine string_of_not_quote fun q t he => ?_
      obtain ⟨x, w', rfl, -⟩ := hw.exists_cons
      rw [hr] at he
      cases he
      exact hq q rfl
    cases hw with
    | literal hq hb =>
      obtain ⟨v, hv⟩ := hb r
      obtain ⟨v', hv'⟩ := hb r'
      obtain ⟨l, d, hl, -, hd⟩ := string_of_literal hr hq hv
      obtain ⟨l', d', hl', -, hd'⟩ := string_of_literal hr' hq hv'
      rw [hl, hl']
      exact ⟨rfl, by rwa [hd, hd']⟩
    | name hn hx =>
      have hq : ∀ x, w.head? = some x → isQuote x = false := fun x hx =>
        isQuote_of_name (hn.all_char x (List.mem_of_head? hx))
      rw [hnone hr hq, hnone hr' hq]
      exact ⟨rfl, hskip⟩
    | sign hn hq hi =>
      rw [hnone hr (by rintro x ⟨⟩; exact hq), hnone hr' (by rintro x ⟨⟩; exact hq)]
      exact ⟨rfl, hskip⟩

theorem startsWith_sign {x : Char} (hx : x ≠ '=') (cs : List Char) :
    startsWith [x] cs = decide (cs.head? = some x) := by
  have hne : ([x] == ['=']) = false := by simpa using hx
  rw [startsWith, hne]
  cases cs with
  | nil => rfl
  | cons y cs =>
    by_cases hxy : x = y
    · simp [hxy]
    · simp [List.isPrefixOf, hxy, Ne.symm hxy]

/-- The signs of a spoken line are lumps of their own. -/
theorem mirrored_punct {x : Char} (hx : x = '-' ∨ x = '@') (h : Alike c.rest c'.rest) :
    Mirrored BothSome (punct [x] c) (punct [x] c') := by
  have hskip := alike_skipBlanks h
  have hne : x ≠ '=' := by rintro rfl; simp at hx
  have hsign : isNameStart x = false ∧ isQuote x = false := by
    obtain rfl | rfl := hx <;> decide
  rw [punct_eq (by simp), punct_eq (by simp), startsWith_sign hne, startsWith_sign hne]
  obtain ⟨hr', hr⟩ | ⟨w, r, r', hr, hr', hw, hw', h⟩ := alike_cases h
  · have hn : c.skipBlanks.rest.head? ≠ some x := by
      obtain hr | ⟨t, hr⟩ := hr <;> rw [hr]
      · nofun
      · rintro ⟨⟩
        simp at hx
    have hn' : c'.skipBlanks.rest.head? ≠ some x := by rw [hr']; nofun
    simp only [hn, hn', decide_false, Bool.false_eq_true, if_false]
    exact ⟨rfl, hskip⟩
  · obtain ⟨y, w', hwy, -⟩ := hw.exists_cons
    have hhead : ∀ t, (w ++ t).head? = w.head? := by
      intro t
      rw [hwy]
      rfl
    rw [hr, hr', hhead, hhead]
    by_cases hy : w.head? = some x
    · obtain rfl := hw.eq_singleton hy hsign.1 hsign.2
      simp only [hy, decide_true, if_true]
      exact ⟨rfl, by rwa [rest_take_of_append hr, rest_take_of_append hr']⟩
    · simp only [hy, decide_false, Bool.false_eq_true, if_false]
      exact ⟨rfl, hskip⟩

theorem mirrored_atEnd (h : Alike c.rest c'.rest) : Mirrored (· = ·) (atEnd c) (atEnd c') := by
  rw [atEnd_eq, atEnd_eq]
  refine ⟨?_, alike_skipBlanks h⟩
  have ho := h.isOver_eq
  rw [isOver, isOver, ← Cursor.rest_skipBlanks, ← Cursor.rest_skipBlanks] at ho
  exact ho

/-- A part that returns to where it started finds the same texts ahead. -/
theorem mirrored_back {b b' : β} (h : Alike c.rest c'.rest) (hd : c.Leads d) (hd' : c'.Leads d')
    (hb : T b b') : Mirrored T
      ((do modify fun e => { e with pos := c.pos }; return b : Reader β) d)
      ((do modify fun e => { e with pos := c'.pos }; return b' : Reader β) d') := by
  refine ⟨hb, ?_⟩
  simpa only [Cursor.rest, hd.content, hd'.content] using h

theorem mirrored_sayAttribute? (h : Alike c.rest c'.rest) :
    Mirrored BothSome (sayAttribute? c) (sayAttribute? c') := by
  unfold sayAttribute?
  rw [run_bind_of_ok run_get, run_bind_of_ok run_get]
  refine (mirrored_punct (.inl rfl) h).bind fun minus minus' d d' hm hm' _ hd => ?_
  refine (mirrored_name hd).bind fun n n' e e' hn hn' hs he => ?_
  have hl : c.Leads e := ((Local.punct (by simp)).leads_of_ok hm).trans (Local.name.leads_of_ok hn)
  have hl' : c'.Leads e' :=
    ((Local.punct (by simp)).leads_of_ok hm').trans (Local.name.leads_of_ok hn')
  cases n with
  | none =>
    cases n' with
    | none => exact mirrored_back h hl hl' rfl
    | some n' => cases hs
  | some n =>
    cases n' with
    | none => cases hs
    | some n' => exact ⟨rfl, he⟩

/-- An attribute is a name, with a minus sign before it or without. -/
theorem sayAttribute?_eq_some {a : SayAttribute} : sayAttribute? c = .ok (some a) d ↔
    ∃ minus e n, punct ['-'] c = .ok minus e ∧ name e = .ok (some n) d ∧
      a = ⟨n.value, minus.isSome, (minus.getD n).span.cover n.span⟩ := by
  unfold sayAttribute?
  rw [run_bind_of_ok run_get]
  constructor
  · intro h
    obtain ⟨minus, e, hm, h⟩ := run_bind_eq_ok.mp h
    obtain ⟨n, e', hn, h⟩ := run_bind_eq_ok.mp h
    cases n with
    | none => cases h
    | some n =>
      cases h
      exact ⟨minus, e, n, hm, hn, rfl⟩
  · rintro ⟨minus, e, n, hm, hn, rfl⟩
    rw [run_bind_of_ok hm, run_bind_of_ok hn]
    rfl

/-- An attribute that is found takes at least one character. -/
theorem length_lt_of_sayAttribute? {a : SayAttribute} (h : sayAttribute? c = .ok (some a) d) :
    d.rest.length < c.rest.length := by
  obtain ⟨minus, e, n, hm, hn, -⟩ := sayAttribute?_eq_some.mp h
  have hle : e.skipBlanks.rest.length ≤ c.rest.length :=
    (((Local.punct (by simp)).leads_of_ok hm).trans (Cursor.leads_skipBlanks e)).length_le
  rw [name_eq] at hn
  cases hname : name? e.skipBlanks.rest with
  | none => simp [hname] at hn
  | some w =>
    simp only [hname] at hn
    cases hn
    obtain ⟨hw, r, hr, -⟩ := split_of_name? hname
    have hpos := List.length_pos_iff.mpr hw.ne_nil
    rw [rest_take_of_append hr]
    rw [hr, List.length_append] at hle
    omega

theorem mirrored_attributes (h : Alike c.rest c'.rest) :
    Mirrored (fun as as' : List SayAttribute => as.isEmpty = as'.isEmpty)
      (many sayAttribute? c) (many sayAttribute? c') := by
  cases hm : many sayAttribute? c with
  | error f d => trivial
  | ok as d =>
    have hr := rounds_of_many hm
    clear hm
    suffices hs : ∃ as' d', many sayAttribute? c' = .ok as' d' ∧ as.isEmpty = as'.isEmpty ∧
        Alike d.rest d'.rest by
      obtain ⟨as', d', hm', hs⟩ := hs
      rw [hm']
      exact hs
    induction hr generalizing c' with
    | nil hn =>
      obtain ⟨o', d', hn', ho, hd⟩ := (mirrored_sayAttribute? h).elim hn
      cases o' with
      | none => exact ⟨[], d', many_of_none hn', rfl, hd⟩
      | some a => cases ho
    | @cons c d e a as hs hlt hr ih =>
      obtain ⟨o', d', hs', ho, hd⟩ := (mirrored_sayAttribute? h).elim hs
      cases o' with
      | none => cases ho
      | some a' =>
        obtain ⟨as', e', hm', -, he⟩ := ih hd
        exact ⟨a' :: as', e', many_of_some hs' (length_lt_of_sayAttribute? hs') hm', rfl, he⟩
    | stall hs hlt => exact absurd (length_lt_of_sayAttribute? hs) hlt

theorem mirrored_temporaryAttributes (h : Alike c.rest c'.rest) :
    Mirrored (fun as as' : List SayAttribute => as.isEmpty = as'.isEmpty)
      (temporaryAttributes c) (temporaryAttributes c') := by
  unfold temporaryAttributes
  rw [run_bind_of_ok run_get, run_bind_of_ok run_get]
  refine (mirrored_punct (.inr rfl) h).bind fun at? at?' d d' hm hm' hs hd => ?_
  cases at? with
  | none =>
    cases at?' with
    | none => exact ⟨rfl, hd⟩
    | some _ => cases hs
  | some _ =>
    cases at?' with
    | none => cases hs
    | some _ =>
      refine (mirrored_attributes hd).bind fun as as' e e' ha ha' he hr => ?_
      have hl : c.Leads e := ((Local.punct (by simp)).leads_of_ok hm).trans
        ((Local.many Local.sayAttribute?).leads_of_ok ha)
      have hl' : c'.Leads e' := ((Local.punct (by simp)).leads_of_ok hm').trans
        ((Local.many Local.sayAttribute?).leads_of_ok ha')
      rw [← he]
      by_cases hempty : as.isEmpty
      · simp only [hempty, if_true]
        exact mirrored_back h hl hl' he
      · simp only [hempty]
        exact ⟨he, hr⟩

/-- The search comes to the same on texts that are alike. -/
theorem mirrored_say? (h : Alike c.rest c'.rest) : Mirrored BothSome (say? c) (say? c') := by
  unfold say?
  rw [run_bind_of_ok run_get, run_bind_of_ok run_get]
  refine (mirrored_string h).bind fun what what' d d' hw hw' hs hd => ?_
  have hl := Local.string.leads_of_ok hw
  have hl' := Local.string.leads_of_ok hw'
  cases what with
  | some what =>
    cases what' with
    | none => cases hs
    | some what' =>
      refine (mirrored_atEnd hd).bind fun ended ended' e e' he he' hs' hr => ?_
      subst hs'
      cases ended with
      | true => exact ⟨rfl, hr⟩
      | false =>
        exact mirrored_back h (hl.trans (Local.atEnd.leads_of_ok he))
          (hl'.trans (Local.atEnd.leads_of_ok he')) rfl
  | none =>
    cases what' with
    | some _ => cases hs
    | none =>
      refine (mirrored_name hd).bind fun who who' d₁ d₁' hn hn' hs hd₁ => ?_
      cases who with
      | none =>
        cases who' with
        | some _ => cases hs
        | none => exact ⟨rfl, hd₁⟩
      | some who =>
        cases who' with
        | none => cases hs
        | some who' =>
          refine (mirrored_attributes hd₁).bind fun as as' d₂ d₂' ha ha' _ hd₂ => ?_
          refine (mirrored_temporaryAttributes hd₂).bind fun ts ts' d₃ d₃' ht ht' _ hd₃ => ?_
          refine (mirrored_string hd₃).bind fun what what' d₄ d₄' hw₄ hw₄' hs₄ hd₄ => ?_
          have hl₄ : c.Leads d₄ := (((hl.trans (Local.name.leads_of_ok hn)).trans
            ((Local.many Local.sayAttribute?).leads_of_ok ha)).trans
            (Local.temporaryAttributes.leads_of_ok ht)).trans (Local.string.leads_of_ok hw₄)
          have hl₄' : c'.Leads d₄' := (((hl'.trans (Local.name.leads_of_ok hn')).trans
            ((Local.many Local.sayAttribute?).leads_of_ok ha')).trans
            (Local.temporaryAttributes.leads_of_ok ht')).trans (Local.string.leads_of_ok hw₄')
          cases what with
          | none =>
            cases what' with
            | some _ => cases hs₄
            | none => exact mirrored_back h hl₄ hl₄' rfl
          | some what =>
            cases what' with
            | none => cases hs₄
            | some what' =>
              refine (mirrored_atEnd hd₄).bind fun ended ended' e e' he he' hs' hr => ?_
              subst hs'
              cases ended with
              | true => exact ⟨rfl, hr⟩
              | false =>
                exact mirrored_back h (hl₄.trans (Local.atEnd.leads_of_ok he))
                  (hl₄'.trans (Local.atEnd.leads_of_ok he')) rfl

end Reader

end NovelScript
