import NovelScript.Proofs.Enclosure

/-!
# Fragments that stand for themselves

A fragment is found by a scan that counts the open brackets. `Scan` is such a scan over a text that
it passes completely, so what the scan does after that text depends on the number of open brackets
alone. Blanks at the end do not change that number, so a fragment is found again without them.
-/

namespace NovelScript.Line

open Text

/-- How many brackets are open after a character outside literals. -/
def depthAfter (d : Nat) (c : Char) : Nat :=
  if (closer? c).isSome then d + 1 else if isCloser c then d - 1 else d

/-- A scan that starts with `d` open brackets passes the text and leaves `d'` open. -/
inductive Scan : Nat → List Char → Nat → Prop
  | nil (d : Nat) : Scan d [] d
  | char {d d' : Nat} {c : Char} {cs : List Char} (hq : isQuote c = false) (hh : c ≠ '#')
    (hc : ¬(c = ':' ∧ d = 0)) (h : Scan (depthAfter d c) cs d') : Scan d (c :: cs) d'
  | literal {d d' : Nat} {q : Char} {b cs : List Char} (hq : isQuote q) (hb : IsBody q b)
    (h : Scan d cs d') : Scan d (q :: (b ++ cs)) d'

/-- Where a scan stops: at the end, at a comment or at a colon outside all brackets. -/
def Halts (d : Nat) (r : List Char) : Prop :=
  r = [] ∨ r.head? = some '#' ∨ (r.head? = some ':' ∧ d = 0)

variable {d d' n m : Nat} {p r s t cs : List Char} {c x : Char}

theorem Scan.whole (h : Scan d p d') : Whole p := by
  induction h with
  | nil => exact .nil
  | char hq _ _ _ ih => exact .char hq ih
  | literal hq hb _ ih => exact .literal hq hb ih

theorem fragmentEnd_cons (hq : isQuote c = false) (hh : c ≠ '#') (hc : ¬(c = ':' ∧ d = 0)) :
    fragmentEnd d n (c :: cs) = fragmentEnd (depthAfter d c) (n + 1) cs := by
  rw [fragmentEnd.eq_def]
  simp only [hq, Bool.false_eq_true, if_false, hh, depthAfter]
  by_cases ho : (closer? c).isSome
  · simp only [ho, if_true]
  · by_cases hcl : isCloser c
    · simp only [ho, hcl, if_true, Bool.false_eq_true, if_false]
    · have hc' : ¬((c = ':' && decide (d = 0)) = true) := by simpa using hc
      simp only [ho, hcl, hc', Bool.false_eq_true, if_false]

/-- After a text that it passes a scan goes on as from the number of brackets that are open then. -/
theorem Scan.fragmentEnd_append (h : Scan d p d') (n : Nat) (t : List Char) :
    fragmentEnd d n (p ++ t) = fragmentEnd d' (n + p.length) t := by
  induction h generalizing n with
  | nil => rfl
  | @char d d' c cs hq hh hc h ih =>
    have hn : n + 1 + cs.length = n + (c :: cs).length := by
      rw [List.length_cons]
      omega
    rw [List.cons_append, fragmentEnd_cons hq hh hc, ih, hn]
  | @literal d d' q b cs hq hb h ih =>
    have hn : n + 1 + b.length + cs.length = n + (q :: (b ++ cs)).length := by
      rw [List.length_cons, List.length_append]
      omega
    rw [List.cons_append, List.append_assoc, fragmentEnd.eq_def]
    simp only [hq, if_true, hb.length? hq, List.drop_left]
    rw [ih, hn]

theorem fragmentEnd_of_halts (h : Halts d t) : fragmentEnd d n t = .ok n := by
  obtain rfl | h | ⟨h, rfl⟩ := h
  · rw [fragmentEnd]
  · cases t with
    | nil => cases h
    | cons c t =>
      cases h
      rw [fragmentEnd.eq_def]
      simp [isQuote]
  · cases t with
    | nil => cases h
    | cons c t =>
      cases h
      rw [fragmentEnd.eq_def]
      simp [isQuote, closer?, isCloser]

/-- A scan that comes to an end passes a text and stops after it. -/
theorem split_of_fragmentEnd (h : fragmentEnd d n cs = .ok m) :
    ∃ p r d', cs = p ++ r ∧ m = n + p.length ∧ Scan d p d' ∧ Halts d' r := by
  -- Behind any character that neither opens a literal nor ends the fragment the scan goes on.
  have hchar : ∀ {d n c cs}, isQuote c = false → c ≠ '#' → ¬(c = ':' ∧ d = 0) →
      (∃ p r d', cs = p ++ r ∧ m = n + 1 + p.length ∧ Scan (depthAfter d c) p d' ∧ Halts d' r) →
      ∃ p r d', c :: cs = p ++ r ∧ m = n + p.length ∧ Scan d p d' ∧ Halts d' r := by
    rintro d n c cs hq hh hc ⟨p, r, d', rfl, rfl, hs, hr⟩
    exact ⟨c :: p, r, d', rfl, by rw [List.length_cons]; omega, .char hq hh hc hs, hr⟩
  fun_induction fragmentEnd d n cs with
  | case1 d n =>
    cases h
    exact ⟨[], [], d, rfl, rfl, .nil d, .inl rfl⟩
  | case2 => cases h
  | case3 d n c cs hq k hb ih =>
    obtain ⟨b, r, rfl, rfl, hbody⟩ := isBody_of_length? hq hb
    rw [List.drop_left] at ih h
    obtain ⟨p, r', d', rfl, rfl, hs, hr⟩ := ih h
    refine ⟨c :: (b ++ p), r', d', by simp, ?_, .literal hq hbody hs, hr⟩
    rw [List.length_cons, List.length_append]
    omega
  | case4 d n cs hq =>
    cases h
    exact ⟨[], '#' :: cs, d, rfl, rfl, .nil d, .inr (.inl rfl)⟩
  | case5 d n c cs hq hh ho ih =>
    have hd : depthAfter d c = d + 1 := by rw [depthAfter, if_pos ho]
    refine hchar (by simpa using hq) hh ?_ (hd ▸ ih h)
    rintro ⟨rfl, -⟩
    exact absurd ho (by decide)
  | case6 d n c cs hq hh ho hcl ih =>
    have hd : depthAfter d c = d - 1 := by rw [depthAfter, if_neg ho, if_pos hcl]
    refine hchar (by simpa using hq) hh ?_ (hd ▸ ih h)
    rintro ⟨rfl, -⟩
    exact absurd hcl (by decide)
  | case7 d n c cs hq hh ho hcl hc =>
    cases h
    simp only [Bool.and_eq_true, decide_eq_true_eq] at hc
    obtain ⟨rfl, rfl⟩ := hc
    exact ⟨[], ':' :: cs, 0, rfl, rfl, .nil 0, .inr (.inr ⟨rfl, rfl⟩)⟩
  | case8 d n c cs hq hh ho hcl hc ih =>
    have hd : depthAfter d c = d := by rw [depthAfter, if_neg ho, if_neg hcl]
    refine hchar (by simpa using hq) hh (by simpa using hc) ?_
    rw [hd]
    exact ih h

/-! The blanks at the end of a fragment. -/

theorem isQuote_of_isBlank (h : isBlank x) : isQuote x = false := by
  by_contra hq
  simp only [isQuote, Bool.not_eq_false, Bool.or_eq_true, beq_iff_eq] at hq
  obtain rfl | rfl := hq <;> exact absurd h (by decide)

theorem isBare_of_isBlank (h : isBlank x) : isBare x := by
  apply isBare_of (isQuote_of_isBlank h)
  · unfold closer?
    split <;> first | rfl | exact absurd h (by decide)
  · by_contra hc
    simp only [isCloser, Bool.not_eq_false, Bool.or_eq_true, beq_iff_eq] at hc
    obtain (rfl | rfl) | rfl := hc <;> exact absurd h (by decide)

theorem depthAfter_of_isBare (h : isBare x) : depthAfter d x = d := by
  rw [depthAfter, closer?_of_isBare h, isCloser_of_isBare h]
  rfl

/-- A text without blanks at its end. -/
def Tight (s : List Char) : Prop := ∀ y, s.getLast? = some y → isBlank y = false

theorem tight_concat (h : isBlank x = false) (s : List Char) : Tight (s ++ [x]) := by
  intro y hy
  rw [List.getLast?_concat] at hy
  cases hy
  exact h

theorem tight_of_isLiteral (h : IsLiteral s) : Tight s := by
  obtain ⟨q, ls, hq, -, rfl⟩ := h
  apply tight_concat (s := q :: ls.flatMap Literal.Letter.text)
  by_contra hb
  rw [isQuote_of_isBlank (by simpa using hb)] at hq
  cases hq

/-- A blank at the end comes after a text that ends with none. -/
theorem Tight.split_concat (h : Tight p) (he : p ++ t = s ++ [x]) (hx : isBlank x) :
    ∃ t', t = t' ++ [x] ∧ s = p ++ t' := by
  rcases List.eq_nil_or_concat t with rfl | ⟨t', y, rfl⟩
  · rw [List.append_nil] at he
    have hlast := h x (by rw [he, List.getLast?_concat])
    rw [hlast] at hx
    cases hx
  · rw [List.concat_eq_append, ← List.append_assoc] at he
    obtain ⟨rfl, hxy⟩ := List.append_inj' he rfl
    cases hxy
    exact ⟨t', List.concat_eq_append .., rfl⟩

/-- A blank at the end of the text does not matter to a scan. -/
theorem Scan.trim (h : Scan d (s ++ [x]) d') (hx : isBlank x) : Scan d s d' := by
  generalize hp : s ++ [x] = p at h
  induction h generalizing s with
  | nil => simp at hp
  | @char d d' c cs hq hh hc h ih =>
    cases s with
    | nil =>
      obtain ⟨rfl, rfl⟩ := List.cons.inj hp
      rw [depthAfter_of_isBare (isBare_of_isBlank hx)] at h
      exact h
    | cons y s =>
      obtain ⟨rfl, rfl⟩ := List.cons.inj hp
      exact .char hq hh hc (ih rfl)
  | @literal d d' q b cs hq hb h ih =>
    -- The literal ends with its mark, which is no blank, so the blank comes after it.
    have hliteral : IsLiteral (q :: b) := isLiteral_iff.mpr ⟨q, b, hq, hb, rfl⟩
    obtain ⟨t, rfl, rfl⟩ := (tight_of_isLiteral hliteral).split_concat hp.symm hx
    exact .literal hq hb (ih rfl)

theorem Scan.trim_all {b : List Char} (h : Scan d (s ++ b) d') (hb : ∀ y ∈ b, isBlank y) :
    Scan d s d' := by
  induction b generalizing s with
  | nil => rwa [List.append_nil] at h
  | cons y b ih =>
    rw [List.append_cons] at h
    exact (ih h fun z hz => hb z (List.mem_cons_of_mem _ hz)).trim (hb y List.mem_cons_self)

theorem trimEnd_split (cs : List Char) : ∃ b, cs = trimEnd cs ++ b ∧ (∀ y ∈ b, isBlank y) ∧
    Tight (trimEnd cs) := by
  refine ⟨(cs.reverse.takeWhile isBlank).reverse, ?_, fun y hy => ?_, fun y hy => ?_⟩
  · rw [trimEnd, ← List.reverse_append, List.takeWhile_append_dropWhile, List.reverse_reverse]
  · exact List.mem_takeWhile_imp (List.mem_reverse.mp hy)
  · rw [trimEnd, List.getLast?_reverse] at hy
    exact not_of_head?_dropWhile hy

theorem Tight.trimEnd_eq (h : Tight s) : trimEnd s = s := by
  rcases List.eq_nil_or_concat s with rfl | ⟨s', y, rfl⟩
  · rfl
  · rw [List.concat_eq_append] at h ⊢
    have hy := h y (by simp)
    simp [trimEnd, hy]

/-- A text that is one fragment, with the number of brackets that it leaves open. -/
structure IsFragment (s : List Char) (d : Nat) : Prop where
  scan : Scan 0 s d
  tight : Tight s
  ne_nil : s ≠ []

/-- What is found as a fragment is one. Blanks follow it, and then something that ends it. -/
theorem split_of_fragment? (h : fragment? cs = .ok (some s)) :
    ∃ d b r, IsFragment s d ∧ cs = s ++ (b ++ r) ∧ (∀ y ∈ b, isBlank y) ∧ Halts d r := by
  unfold fragment? at h
  cases he : fragmentEnd 0 0 cs with
  | error f => simp [he, Except.map] at h
  | ok m =>
    obtain ⟨p, r, d, rfl, rfl, hs, hr⟩ := split_of_fragmentEnd he
    rw [he] at h
    simp only [Except.map, Nat.zero_add, List.take_left] at h
    obtain ⟨b, hp, hb, ht⟩ := trimEnd_split p
    by_cases hnil : (trimEnd p).isEmpty
    · simp [hnil] at h
    · have hsp : trimEnd p = s := by simpa [hnil] using h
      rw [hsp] at hp ht hnil
      subst hp
      exact ⟨d, b, r, ⟨hs.trim_all hb, ht, by simpa using hnil⟩, List.append_assoc .., hb, hr⟩

/-- A fragment is found before what ends it. -/
theorem IsFragment.fragment?_append (h : IsFragment s d) (ht : Halts d t) :
    fragment? (s ++ t) = .ok (some s) := by
  have he : fragmentEnd 0 0 (s ++ t) = .ok s.length := by
    rw [h.scan.fragmentEnd_append, fragmentEnd_of_halts ht, Nat.zero_add]
  have hne : s.isEmpty = false := by simpa using h.ne_nil
  rw [fragment?, he]
  simp only [Except.map, List.take_left, h.tight.trimEnd_eq, hne, Bool.false_eq_true, if_false]

end NovelScript.Line
