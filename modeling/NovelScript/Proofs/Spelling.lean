import Mathlib.Data.List.TakeWhile
import NovelScript.Line.Number
import NovelScript.Line.Bracket
import NovelScript.Proofs.Letters

/-!
# Pieces of a line that stand for themselves

A name, a literal, a number, a bracket group or a fragment that was found in a text is found again
where it stands alone or before something else. `Whole` texts consist of characters outside
literals and of complete literals; every piece of an expression is one.
-/

namespace NovelScript.Line

open Text

/-- What follows a piece of a retold line: nothing, a space or a colon. -/
def Parted (t : List Char) : Prop := ∀ x, t.head? = some x → x = ' ' ∨ x = ':'

/-- No name runs across the border between the texts. -/
def Apart (p t : List Char) : Prop :=
  ∀ x y, p.getLast? = some x → t.head? = some y → isNameChar x → isNameChar y = false

theorem parted_nil : Parted [] := nofun

theorem parted_space (t : List Char) : Parted (' ' :: t) := by
  rintro x ⟨⟩
  exact .inl rfl

theorem parted_colon (t : List Char) : Parted (':' :: t) := by
  rintro x ⟨⟩
  exact .inr rfl

theorem Parted.not_name {t : List Char} (h : Parted t) {x : Char} (hx : t.head? = some x) :
    isNameChar x = false := by
  obtain rfl | rfl := h x hx <;> decide

theorem Parted.apart {t : List Char} (h : Parted t) (p : List Char) : Apart p t :=
  fun _ _ _ hy _ => h.not_name hy

/-! Names. -/

/-- A text that is one name. -/
def IsName (n : List Char) : Prop := name? n = some n

variable {cs n p t : List Char} {c q x : Char}

theorem isNameChar_of_start (h : isNameStart c) : isNameChar c := by
  simp only [isNameStart, isNameChar, Bool.or_eq_true, Char.isAlphanum] at h ⊢
  obtain h | h := h
  · exact .inl (.inl h)
  · exact .inr h

theorem name?_cons : name? (c :: cs) = if isNameStart c then some ((c :: cs).takeWhile isNameChar)
    else none := rfl

/-- What is found as a name is one, and no name goes on after it. -/
theorem split_of_name? (h : name? cs = some n) : IsName n ∧ ∃ r, cs = n ++ r ∧
    ∀ x, r.head? = some x → isNameChar x = false := by
  cases cs with
  | nil => cases h
  | cons c cs =>
    rw [name?_cons] at h
    by_cases hc : isNameStart c
    · rw [if_pos hc] at h
      cases h
      refine ⟨?_, (c :: cs).dropWhile isNameChar, (List.takeWhile_append_dropWhile).symm,
        fun _ hx => not_of_head?_dropWhile hx⟩
      have hcc := isNameChar_of_start hc
      rw [IsName, List.takeWhile_cons_of_pos hcc, name?_cons, if_pos hc,
        List.takeWhile_cons_of_pos hcc, List.takeWhile_idem]
    · rw [if_neg hc] at h
      cases h

theorem IsName.exists_cons (h : IsName n) : ∃ c cs, n = c :: cs ∧ isNameStart c ∧
    ∀ x ∈ n, isNameChar x := by
  cases n with
  | nil => cases h
  | cons c cs =>
    rw [IsName, name?_cons] at h
    by_cases hc : isNameStart c
    · rw [if_pos hc] at h
      refine ⟨c, cs, rfl, hc, fun x hx => ?_⟩
      rw [← Option.some.inj h] at hx
      exact List.mem_takeWhile_imp hx
    · rw [if_neg hc] at h
      cases h

theorem IsName.all_char (h : IsName n) : ∀ x ∈ n, isNameChar x := by
  obtain ⟨c, cs, -, -, hall⟩ := h.exists_cons
  exact hall

/-- A name is found where no name goes on after it. -/
theorem IsName.name?_append (h : IsName n) (ht : ∀ x, t.head? = some x → isNameChar x = false) :
    name? (n ++ t) = some n := by
  obtain ⟨c, cs, rfl, hc, hall⟩ := h.exists_cons
  rw [List.cons_append, name?_cons, if_pos hc, ← List.cons_append,
    List.takeWhile_append_of_pos hall, takeWhile_eq_nil_of_head? ht, List.append_nil]

theorem IsName.ne_nil (h : IsName n) : n ≠ [] := by
  obtain ⟨c, cs, rfl, -, -⟩ := h.exists_cons
  simp

theorem isInline_of_start (h : isNameStart c) : isInline c = false := by
  by_contra hi
  simp only [isInline, Bool.not_eq_false, Bool.or_eq_true, beq_iff_eq] at hi
  obtain ((rfl | rfl) | rfl) | rfl := hi <;> exact absurd h (by decide)

theorem isQuote_of_name (h : isNameChar c) : isQuote c = false := by
  by_contra hi
  simp only [isQuote, Bool.not_eq_false, Bool.or_eq_true, beq_iff_eq] at hi
  obtain rfl | rfl := hi <;> exact absurd h (by decide)

/-! Literals. -/

theorem ne_backslash_of_quote (h : isQuote q) : q ≠ '\\' := by
  rintro rfl
  exact absurd h (by decide)

namespace Literal

/-- The value of a literal and its length depend on the literal alone. -/
theorem split_of_body? {v : List Char} {k : Nat} (h : body? q cs = some (v, k)) :
    ∃ b r, cs = b ++ r ∧ k = b.length ∧ ∀ t, body? q (b ++ t) = some (v, k) := by
  obtain ⟨ls, rest, hls, rfl, rfl, rfl⟩ := exists_letters_of_body? h
  refine ⟨ls.flatMap Letter.text ++ [q], rest, ?_, ?_, fun t => ?_⟩
  · rw [List.append_assoc, List.singleton_append]
  · rw [List.length_append, List.length_singleton]
  · rw [List.append_assoc, List.singleton_append, body?_flatMap_text hls]

theorem bodyLength?_eq (h : isQuote q) (cs : List Char) :
    bodyLength? q cs = (body? q cs).map Prod.snd := by
  have hq := ne_backslash_of_quote h
  fun_induction body? q cs with
  | case1 => rfl
  | case2 => simp [bodyLength?, hq]
  | case3 c hc =>
    by_cases hb : c = '\\'
    · subst hb
      rfl
    · simp [bodyLength?, hb, hc]
  | case4 e rest => simp [bodyLength?, hq]
  | case5 e rest hc ih =>
    rw [bodyLength?, ih]
    cases body? q rest <;> rfl
  | case6 c e rest hc hb ih =>
    have hlen : bodyLength? q (c :: e :: rest) = (bodyLength? q (e :: rest)).map (· + 1) := by
      simp [bodyLength?, hb, hc]
    rw [hlen, ih]
    cases body? q (e :: rest) <;> rfl

end Literal

/-- A literal as written, without its opening mark. -/
def IsBody (q : Char) (b : List Char) : Prop := ∀ t, ∃ v, Literal.body? q (b ++ t) = some (v, b.length)

theorem isBody_of_length? (hq : isQuote q) {k : Nat} (h : Literal.bodyLength? q cs = some k) :
    ∃ b r, cs = b ++ r ∧ k = b.length ∧ IsBody q b := by
  rw [Literal.bodyLength?_eq hq] at h
  obtain ⟨⟨v, m⟩, hm, rfl⟩ := Option.map_eq_some_iff.1 h
  obtain ⟨b, r, rfl, rfl, hb⟩ := Literal.split_of_body? hm
  exact ⟨b, r, rfl, rfl, fun t => ⟨v, hb t⟩⟩

theorem IsBody.length? (hq : isQuote q) {b : List Char} (h : IsBody q b) (t : List Char) :
    Literal.bodyLength? q (b ++ t) = some b.length := by
  obtain ⟨v, hv⟩ := h t
  rw [Literal.bodyLength?_eq hq, hv]
  rfl

theorem IsBody.exists_letters {b : List Char} (h : IsBody q b) :
    ∃ ls : List Literal.Letter, (∀ l ∈ ls, l.Fits q) ∧
      b = ls.flatMap Literal.Letter.text ++ [q] := by
  obtain ⟨v, hv⟩ := h []
  obtain ⟨ls, rest, hls, he, -, hlen⟩ := Literal.exists_letters_of_body? hv
  rw [List.append_nil] at he
  have hrest : rest = [] := by
    have hl := congrArg List.length he
    rw [List.length_append, List.length_cons, hlen] at hl
    exact List.eq_nil_of_length_eq_zero (by omega)
  exact ⟨ls, hls, by rw [he, hrest]⟩

theorem IsBody.last {b : List Char} (h : IsBody q b) : b.getLast? = some q := by
  obtain ⟨ls, -, rfl⟩ := h.exists_letters
  exact List.getLast?_concat ..

/-- A text of characters outside literals and of complete literals. -/
inductive Whole : List Char → Prop
  | nil : Whole []
  | char {c : Char} {cs : List Char} (hc : isQuote c = false) (h : Whole cs) : Whole (c :: cs)
  | literal {q : Char} {b cs : List Char} (hq : isQuote q) (hb : IsBody q b) (h : Whole cs) :
    Whole (q :: (b ++ cs))

theorem whole_of_forall (h : ∀ c ∈ p, isQuote c = false) : Whole p := by
  induction p with
  | nil => exact .nil
  | cons c p ih =>
    exact .char (h c List.mem_cons_self) (ih fun d hd => h d (List.mem_cons_of_mem _ hd))

theorem IsName.whole (h : IsName n) : Whole n :=
  whole_of_forall fun c hc => isQuote_of_name (h.all_char c hc)

theorem whole_append (hp : Whole p) (ht : Whole t) : Whole (p ++ t) := by
  induction hp with
  | nil => exact ht
  | char hc h ih => exact .char hc ih
  | literal hq hb h ih =>
    rw [List.cons_append, List.append_assoc]
    exact .literal hq hb ih

/-! Bracket groups. -/

theorem isNameChar_of_isCloser (h : isCloser c) : isNameChar c = false := by
  simp only [isCloser, Bool.or_eq_true, beq_iff_eq] at h
  obtain (rfl | rfl) | rfl := h <;> decide

/-- A text that is one bracket group. -/
structure IsGroup (g : List Char) : Prop where
  whole : Whole g
  head : ∃ c cs q, g = c :: cs ∧ closer? c = some q
  last : ∃ f x, g = f ++ [x] ∧ isCloser x
  found : ∀ t, group? (g ++ t) = .ok (some g)

/-! Numbers. -/

def IsSign (s : List Char) : Prop := s = [] ∨ s = ['+'] ∨ s = ['-']

/-- The texts that are numbers. -/
inductive Numeric : List Char → Prop
  | whole {s w : List Char} (hs : IsSign s) (hw : ∀ c ∈ w, isDigit c) (hne : w ≠ []) :
    Numeric (s ++ w)
  | decimal {s w f : List Char} (hs : IsSign s) (hw : ∀ c ∈ w, isDigit c) (hf : ∀ c ∈ f, isDigit c)
    (hne : w ≠ [] ∨ f ≠ []) : Numeric (s ++ (w ++ '.' :: f))

/-- Every text starts with a sign that may be missing, and then digits. -/
theorem exists_sign_digits (cs : List Char) : ∃ s w r, cs = s ++ (w ++ r) ∧ IsSign s ∧
    (s = [] → ∀ x, (w ++ r).head? = some x → x ≠ '+' ∧ x ≠ '-') ∧ (∀ c ∈ w, isDigit c) ∧
    ∀ x, r.head? = some x → isDigit x = false := by
  have hdigits : ∀ cs : List Char, cs = cs.takeWhile isDigit ++ cs.dropWhile isDigit ∧
      (∀ c ∈ cs.takeWhile isDigit, isDigit c) ∧
      ∀ x, (cs.dropWhile isDigit).head? = some x → isDigit x = false := by
    intro cs
    exact ⟨List.takeWhile_append_dropWhile.symm, fun c => List.mem_takeWhile_imp,
      fun x => not_of_head?_dropWhile⟩
  by_cases hc : cs.head? = some '+' ∨ cs.head? = some '-'
  · obtain ⟨c, rest, rfl, hs⟩ : ∃ c rest, cs = c :: rest ∧ IsSign [c] := by
      cases cs with
      | nil => simp at hc
      | cons c rest =>
        obtain hc | hc := hc <;> cases hc
        · exact ⟨_, rest, rfl, .inr (.inl rfl)⟩
        · exact ⟨_, rest, rfl, .inr (.inr rfl)⟩
    obtain ⟨he, hw, hr⟩ := hdigits rest
    exact ⟨[c], _, _, congrArg (List.cons c) he, hs, by simp, hw, hr⟩
  · obtain ⟨he, hw, hr⟩ := hdigits cs
    refine ⟨[], _, _, he, .inl rfl, fun _ x hx => ?_, hw, hr⟩
    rw [← he] at hx
    constructor <;> rintro rfl <;> simp [hx] at hc

/-- The bounds of a number after a sign and digits of the given lengths. -/
def boundsBefore (sign whole : Nat) : List Char → Nat × Nat
  | '.' :: rest => (if whole = 0 then sign + 1 else sign,
      sign + whole + 1 + (rest.takeWhile isDigit).length)
  | _ => (sign, sign + whole)

theorem boundsBefore_of_ne {sign whole : Nat} {r : List Char} (h : ∀ rest, r ≠ '.' :: rest) :
    boundsBefore sign whole r = (sign, sign + whole) := by
  unfold boundsBefore
  split
  · exact absurd rfl (h _)
  · rfl

theorem boundsBefore_of_pos (sign : Nat) {whole : Nat} (h : 0 < whole) (r : List Char) :
    (boundsBefore sign whole r).1 = sign ∧ sign + whole ≤ (boundsBefore sign whole r).2 := by
  unfold boundsBefore
  split
  · exact ⟨if_neg (by omega), by simp only; omega⟩
  · exact ⟨rfl, Nat.le_refl _⟩

theorem numberBounds_append {s w r : List Char} (hs : IsSign s)
    (hsign : s = [] → ∀ x, (w ++ r).head? = some x → x ≠ '+' ∧ x ≠ '-')
    (hw : ∀ c ∈ w, isDigit c) (hr : ∀ x, r.head? = some x → isDigit x = false) :
    numberBounds (s ++ (w ++ r)) = boundsBefore s.length w.length r := by
  have hlen : (if (s ++ (w ++ r)).head? = some '+' || (s ++ (w ++ r)).head? = some '-' then 1 else 0) =
      s.length := by
    obtain rfl | rfl | rfl := hs
    · rw [List.nil_append, if_neg, List.length_nil]
      intro h
      simp only [Bool.or_eq_true, decide_eq_true_eq] at h
      obtain h | h := h
      · exact (hsign rfl _ h).1 rfl
      · exact (hsign rfl _ h).2 rfl
    · rfl
    · rfl
  have htake : (w ++ r).takeWhile isDigit = w := by
    rw [List.takeWhile_append_of_pos hw, takeWhile_eq_nil_of_head? hr, List.append_nil]
  rw [numberBounds]
  simp only [hlen, List.drop_left, htake]
  rw [← List.append_assoc, ← List.length_append, List.drop_left, List.length_append]
  rfl

theorem number?_of_bounds {low high : Nat} (h : numberBounds cs = (low, high)) :
    number? cs = (freeLength? cs low (high - low)).map cs.take := by
  rw [number?, h]

theorem freeLength?_spec {low k m : Nat} (h : freeLength? cs low k = some m) :
    low < m ∧ m ≤ low + k ∧ (cs.drop m).head?.any isNameChar = false := by
  induction k with
  | zero => cases h
  | succ k ih =>
    rw [freeLength?] at h
    split at h
    · obtain ⟨h₁, h₂, h₃⟩ := ih h
      exact ⟨h₁, by omega, h₃⟩
    · next hn =>
      cases h
      exact ⟨by omega, by omega, by simpa using hn⟩

theorem freeLength?_of_free {low high : Nat} (h : low < high)
    (hf : (cs.drop high).head?.any isNameChar = false) :
    freeLength? cs low (high - low) = some high := by
  obtain ⟨k, hk⟩ : ∃ k, high - low = k + 1 := ⟨high - low - 1, by omega⟩
  have he : low + (k + 1) = high := by omega
  rw [hk, freeLength?, he, hf]
  rfl

theorem mem_take_of_le {f : Char → Bool} {k : Nat} (h : k ≤ (cs.takeWhile f).length) :
    ∀ c ∈ cs.take k, f c := by
  intro c hc
  rw [← List.takeWhile_append_dropWhile (p := f) (l := cs), List.take_append_of_le_length h] at hc
  exact List.mem_takeWhile_imp (List.mem_of_mem_take hc)

/-- A number that stops within the digits before a point, or where there is no point. -/
theorem numeric_take {s w r : List Char} (hs : IsSign s) (hw : ∀ c ∈ w, isDigit c) {m : Nat}
    (hlow : s.length < m) (hhigh : m ≤ s.length + w.length) :
    Numeric ((s ++ (w ++ r)).take m) := by
  obtain ⟨k, rfl⟩ : ∃ k, m = s.length + k := ⟨m - s.length, by omega⟩
  have he : (s ++ (w ++ r)).take (s.length + k) = s ++ w.take k := by
    rw [List.take_length_add_append, List.take_append_of_le_length (by omega)]
  rw [he]
  refine .whole hs (fun c hc => hw c (List.mem_of_mem_take hc)) ?_
  intro hnil
  have hlen := congrArg List.length hnil
  rw [List.length_take, List.length_nil] at hlen
  omega

/-- What is found as a number is one, and no name goes on after it. -/
theorem split_of_number? (h : number? cs = some n) : Numeric n ∧ ∃ r, cs = n ++ r ∧
    ∀ x, r.head? = some x → isNameChar x = false := by
  obtain ⟨s, w, r, rfl, hs, hsign, hw, hr⟩ := exists_sign_digits cs
  have hb := numberBounds_append hs hsign hw hr
  obtain ⟨⟨low, high⟩, hlh⟩ : ∃ b, numberBounds (s ++ (w ++ r)) = b := ⟨_, rfl⟩
  rw [number?_of_bounds hlh] at h
  obtain ⟨m, hm, rfl⟩ := Option.map_eq_some_iff.1 h
  obtain ⟨hlow, hhigh, hfree⟩ := freeLength?_spec hm
  refine ⟨?_, _, (List.take_append_drop m _).symm, fun x hx => by simpa [hx] using hfree⟩
  rw [hlh] at hb
  by_cases hdot : ∃ rest, r = '.' :: rest
  · obtain ⟨rest, rfl⟩ := hdot
    simp only [boundsBefore, Prod.mk.injEq] at hb
    obtain ⟨rfl, rfl⟩ := hb
    by_cases hle : m ≤ s.length + w.length
    · refine numeric_take hs hw ?_ hle
      split at hlow <;> omega
    · -- The point is part of the number.
      obtain ⟨k, rfl⟩ : ∃ k, m = s.length + (w.length + (k + 1)) :=
        ⟨m - s.length - w.length - 1, by omega⟩
      have he : (s ++ (w ++ '.' :: rest)).take (s.length + (w.length + (k + 1))) =
          s ++ (w ++ '.' :: rest.take k) := by
        rw [List.take_length_add_append, List.take_length_add_append, List.take_succ_cons]
      have hk : k ≤ (rest.takeWhile isDigit).length := by
        split at hhigh <;> omega
      rw [he]
      refine .decimal hs hw (mem_take_of_le hk) ?_
      by_cases hnil : w = []
      · refine .inr fun hf => ?_
        subst hnil
        have hlen := congrArg List.length hf
        have hlt := (List.takeWhile_prefix isDigit (l := rest)).length_le
        simp only [List.length_take, List.length_nil, if_true] at hlen hlow
        omega
      · exact .inl hnil
  · rw [boundsBefore_of_ne fun rest he => hdot ⟨rest, he⟩] at hb
    cases hb
    exact numeric_take hs hw hlow (by omega)

theorem Parted.isDigit_head (ht : Parted t) : ∀ x, t.head? = some x → isDigit x = false := by
  intro x hx
  obtain rfl | rfl := ht x hx <;> decide

theorem Parted.any_name (ht : Parted t) : t.head?.any isNameChar = false := by
  cases t with
  | nil => rfl
  | cons x t => simpa using ht.not_name (x := x) rfl

theorem ne_sign_of_isDigit {c : Char} (h : isDigit c) : c ≠ '+' ∧ c ≠ '-' := by
  constructor <;> rintro rfl <;> exact absurd h (by decide)

/-- The bounds after a sign and digits, with whatever digits go on after them. -/
theorem numberBounds_whole {s w : List Char} (hs : IsSign s) (hw : ∀ c ∈ w, isDigit c) (hne : w ≠ [])
    (r : List Char) : numberBounds (s ++ w ++ r) =
      boundsBefore s.length (w ++ r.takeWhile isDigit).length (r.dropWhile isDigit) := by
  have hall : ∀ c ∈ w ++ r.takeWhile isDigit, isDigit c :=
    List.forall_mem_append.mpr ⟨hw, fun c hc => List.mem_takeWhile_imp hc⟩
  have hsign : s = [] → ∀ x, (w ++ r.takeWhile isDigit ++ r.dropWhile isDigit).head? = some x →
      x ≠ '+' ∧ x ≠ '-' := by
    intro _ x hx
    obtain ⟨c, w, rfl⟩ := List.exists_cons_of_ne_nil hne
    cases hx
    exact ne_sign_of_isDigit (hw _ List.mem_cons_self)
  rw [← numberBounds_append hs hsign hall fun _ => not_of_head?_dropWhile, List.append_assoc w,
    List.takeWhile_append_dropWhile, List.append_assoc]

/-- The bounds after a sign, digits, a point and digits, with whatever digits go on after them. -/
theorem numberBounds_decimal {s w f : List Char} (hs : IsSign s) (hw : ∀ c ∈ w, isDigit c)
    (hf : ∀ c ∈ f, isDigit c) (r : List Char) : numberBounds (s ++ (w ++ '.' :: f) ++ r) =
      (if w.length = 0 then s.length + 1 else s.length,
        s.length + w.length + 1 + (f ++ r.takeWhile isDigit).length) := by
  have hsign : s = [] → ∀ x, (w ++ '.' :: (f ++ r)).head? = some x → x ≠ '+' ∧ x ≠ '-' := by
    intro _ x hx
    cases w with
    | nil =>
      cases hx
      decide
    | cons c w =>
      cases hx
      exact ne_sign_of_isDigit (hw _ List.mem_cons_self)
  have hb := numberBounds_append (r := '.' :: (f ++ r)) hs hsign hw (by rintro x ⟨⟩; decide)
  rw [boundsBefore, List.takeWhile_append_of_pos hf] at hb
  rw [← hb, List.append_assoc, List.append_assoc, List.cons_append]

/-- A number at the start of a text lies within the bounds, whatever follows it. -/
theorem Numeric.bounds (hn : Numeric n) (r : List Char) :
    (numberBounds (n ++ r)).1 < n.length ∧ n.length ≤ (numberBounds (n ++ r)).2 := by
  cases hn with
  | @whole s w hs hw hne =>
    have hpos : 0 < w.length := List.length_pos_iff.mpr hne
    have hdigits : w.length ≤ (w ++ r.takeWhile isDigit).length := by
      rw [List.length_append]
      omega
    obtain ⟨hlow, hhigh⟩ := boundsBefore_of_pos s.length (Nat.lt_of_lt_of_le hpos hdigits)
      (r.dropWhile isDigit)
    rw [numberBounds_whole hs hw hne, hlow, List.length_append]
    omega
  | @decimal s w f hs hw hf hne =>
    have hpos : w.length = 0 → 0 < f.length := fun hz =>
      List.length_pos_iff.mpr (hne.resolve_left fun h => h (List.eq_nil_of_length_eq_zero hz))
    rw [numberBounds_decimal hs hw hf]
    simp only [List.length_append, List.length_cons]
    split <;> omega

/-- Where neither digits nor a point follow, the number reaches up to the second bound. -/
theorem Numeric.bounds_snd (hn : Numeric n) (hd : ∀ x, t.head? = some x → isDigit x = false)
    (hp : ∀ rest, t ≠ '.' :: rest) : (numberBounds (n ++ t)).2 = n.length := by
  have htake : t.takeWhile isDigit = [] := takeWhile_eq_nil_of_head? hd
  cases hn with
  | @whole s w hs hw hne =>
    rw [numberBounds_whole hs hw hne, htake, dropWhile_eq_self_of_head? hd, boundsBefore_of_ne hp,
      List.append_nil, List.length_append]
  | @decimal s w f hs hw hf hne =>
    rw [numberBounds_decimal hs hw hf, htake, List.append_nil]
    simp only [List.length_append, List.length_cons]
    omega

/-- A number is found before the end, a space or a colon. -/
theorem Numeric.number?_append (hn : Numeric n) (ht : Parted t) : number? (n ++ t) = some n := by
  have hpoint : ∀ rest, t ≠ '.' :: rest := by
    rintro rest rfl
    obtain h | h := ht '.' rfl <;> cases h
  have hlow := (hn.bounds t).1
  have hbounds : numberBounds (n ++ t) = ((numberBounds (n ++ t)).1, n.length) :=
    Prod.ext rfl (hn.bounds_snd ht.isDigit_head hpoint)
  have hfree : ((n ++ t).drop n.length).head?.any isNameChar = false := by
    rw [List.drop_left]
    exact ht.any_name
  rw [number?_of_bounds hbounds, freeLength?_of_free hlow hfree, Option.map_some, List.take_left]

theorem isQuote_of_isDigit {c : Char} (h : isDigit c) : isQuote c = false := by
  by_contra hq
  simp only [isQuote, Bool.not_eq_false, Bool.or_eq_true, beq_iff_eq] at hq
  obtain rfl | rfl := hq <;> exact absurd h (by decide)

theorem IsSign.isQuote {s : List Char} (h : IsSign s) : ∀ c ∈ s, isQuote c = false := by
  obtain rfl | rfl | rfl := h <;> simp [Line.isQuote]

theorem Numeric.whole_text (h : Numeric n) : Whole n := by
  refine whole_of_forall ?_
  cases h with
  | whole hs hw hne =>
    intro c hc
    obtain hc | hc := List.mem_append.mp hc
    · exact hs.isQuote c hc
    · exact isQuote_of_isDigit (hw c hc)
  | decimal hs hw hf hne =>
    intro c hc
    simp only [List.mem_append, List.mem_cons] at hc
    obtain hc | hc | rfl | hc := hc
    · exact hs.isQuote c hc
    · exact isQuote_of_isDigit (hw c hc)
    · decide
    · exact isQuote_of_isDigit (hf c hc)

end NovelScript.Line
