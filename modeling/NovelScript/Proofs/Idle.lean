import NovelScript.Proofs.Alike

/-!
# Idle tails

An idle tail is what may stand at the end of a line without being read: blanks and a comment after
them. What is found in a text without the tail is also found in the text with it.
-/

namespace NovelScript.Line

open Text

variable {s q w : List Char} {c x : Char} {d n m : Nat}

theorem isOver_cons (c : Char) (s : List Char) :
    isOver (c :: s) = if isInline c then isOver s else c == '#' := by
  by_cases hc : isInline c
  · simp only [isOver, List.dropWhile_cons_of_pos hc, hc, if_true]
  · simp only [isOver, List.dropWhile_cons_of_neg hc, hc]
    rfl

theorem split_of_isOver (h : isOver q) : ∃ b t, q = b ++ t ∧ (∀ y ∈ b, isInline y) ∧
    (t = [] ∨ t.head? = some '#') := by
  induction q with
  | nil => exact ⟨[], [], rfl, nofun, .inl rfl⟩
  | cons c q ih =>
    rw [isOver_cons] at h
    by_cases hc : isInline c
    · rw [if_pos hc] at h
      obtain ⟨b, t, rfl, hb, ht⟩ := ih h
      exact ⟨c :: b, t, rfl, List.forall_mem_cons.mpr ⟨hc, hb⟩, ht⟩
    · rw [if_neg hc, beq_iff_eq] at h
      exact ⟨[], c :: q, rfl, nofun, .inr (congrArg some h)⟩

theorem head_of_isOver (h : isOver q) (hx : q.head? = some x) : isInline x ∨ x = '#' := by
  cases q with
  | nil => cases hx
  | cons c q =>
    cases hx
    rw [isOver_cons] at h
    by_cases hi : isInline x
    · exact .inl hi
    · rw [if_neg hi, beq_iff_eq] at h
      exact .inr h

theorem isOver_dropWhile (h : isOver q) : isOver (q.dropWhile isInline) := by
  rwa [isOver, dropWhile_idem]

/-- Whether a line is over does not depend on an idle tail. -/
theorem isOver_append (h : isOver q) (s : List Char) : isOver (s ++ q) = isOver s := by
  induction s with
  | nil => exact h
  | cons c s ih => rw [List.cons_append, isOver_cons, isOver_cons, ih]

theorem takeWhile_append_idle {p : Char → Bool} (h : isOver q)
    (hp : ∀ x, isInline x ∨ x = '#' → p x = false) (s : List Char) :
    (s ++ q).takeWhile p = s.takeWhile p := by
  induction s with
  | nil => exact takeWhile_eq_nil_of_head? fun x hx => hp x (head_of_isOver h hx)
  | cons c s ih =>
    rw [List.cons_append, List.takeWhile_cons, List.takeWhile_cons, ih]

/-- The characters that start an idle tail neither start nor continue anything else. -/
structure Inert (x : Char) : Prop where
  nameChar : isNameChar x = false
  nameStart : isNameStart x = false
  digit : isDigit x = false
  quote : isQuote x = false
  opener : closer? x = none
  plus : x ≠ '+'
  minus : x ≠ '-'
  point : x ≠ '.'
  equals : x ≠ '='

theorem inert_of_idle (h : isInline x ∨ x = '#') : Inert x := by
  simp only [isInline, Bool.or_eq_true, beq_iff_eq] at h
  obtain (((rfl | rfl) | rfl) | rfl) | rfl := h <;> constructor <;> decide

theorem inert_of_isOver (h : isOver q) (hx : q.head? = some x) : Inert x :=
  inert_of_idle (head_of_isOver h hx)

theorem forall_head_append_idle {P : Char → Prop} (h : isOver q) (hP : ∀ x, Inert x → P x)
    (hs : ∀ x, s.head? = some x → P x) : ∀ x, (s ++ q).head? = some x → P x := by
  intro x hx
  cases s with
  | nil => exact hP x (inert_of_isOver h hx)
  | cons c s => exact hs x hx

theorem name?_append_idle (h : isOver q) (s : List Char) : name? (s ++ q) = name? s := by
  cases s with
  | nil =>
    cases q with
    | nil => rfl
    | cons x q => rw [List.nil_append, name?_cons, (inert_of_isOver h rfl).nameStart]; rfl
  | cons c s =>
    rw [List.cons_append, name?_cons, name?_cons, ← List.cons_append,
      takeWhile_append_idle h fun x hx => (inert_of_idle hx).nameChar]

theorem startsWith_append_idle (h : isOver q) (hi : isInline c = false) (hc : c ≠ '#')
    (s : List Char) : Reader.startsWith [c] (s ++ q) = Reader.startsWith [c] s := by
  match s, q with
  | s, [] => rw [List.append_nil]
  | [], x :: q =>
    have hx : (c == x) = false := by
      refine beq_false_of_ne ?_
      rintro rfl
      obtain hx | hx := head_of_isOver h rfl
      · rw [hi] at hx
        cases hx
      · exact hc hx
    simp only [Reader.startsWith, List.nil_append, List.isPrefixOf, hx, Bool.false_and]
  | [y], x :: q =>
    have hx : ('=' == x) = false := beq_false_of_ne (inert_of_isOver h rfl).equals.symm
    simp only [Reader.startsWith, List.singleton_append, List.isPrefixOf, hx, Bool.false_and]
  | y :: z :: s, x :: q => simp only [Reader.startsWith, List.cons_append, List.isPrefixOf]

/-! Numbers. -/

theorem boundsBefore_le (sign whole : Nat) (r : List Char) :
    (boundsBefore sign whole r).1 ≤ (boundsBefore sign whole r).2 ∧
      (boundsBefore sign whole r).2 ≤ sign + whole + r.length := by
  unfold boundsBefore
  split
  · next rest =>
    have hfraction := (List.takeWhile_sublist isDigit (l := rest)).length_le
    rw [List.length_cons]
    simp only
    split <;> omega
  · simp only
    omega

theorem numberBounds_le (s : List Char) :
    (numberBounds s).1 ≤ (numberBounds s).2 ∧ (numberBounds s).2 ≤ s.length := by
  obtain ⟨u, w, r, rfl, hu, hsign, hw, hr⟩ := exists_sign_digits s
  have hle := boundsBefore_le u.length w.length r
  rw [numberBounds_append hu hsign hw hr, List.length_append, List.length_append]
  omega

theorem numberBounds_append_idle (h : isOver q) (s : List Char) :
    numberBounds (s ++ q) = numberBounds s := by
  obtain ⟨u, w, r, rfl, hu, hsign, hw, hr⟩ := exists_sign_digits s
  have hsign' : u = [] → ∀ x, (w ++ (r ++ q)).head? = some x → x ≠ '+' ∧ x ≠ '-' := by
    intro hnil
    rw [← List.append_assoc]
    exact forall_head_append_idle h (fun x hx => ⟨hx.plus, hx.minus⟩) (hsign hnil)
  have hr' : ∀ x, (r ++ q).head? = some x → isDigit x = false :=
    forall_head_append_idle h (fun x hx => hx.digit) hr
  rw [List.append_assoc, List.append_assoc, numberBounds_append hu hsign' hw hr',
    numberBounds_append hu hsign hw hr]
  by_cases hpoint : ∃ rest, r = '.' :: rest
  · obtain ⟨rest, rfl⟩ := hpoint
    rw [List.cons_append, boundsBefore, boundsBefore,
      takeWhile_append_idle h fun x hx => (inert_of_idle hx).digit]
  · have hne : ∀ rest, r ≠ '.' :: rest := fun rest hrest => hpoint ⟨rest, hrest⟩
    have hhead : ∀ x, (r ++ q).head? = some x → x ≠ '.' := by
      refine forall_head_append_idle h (fun x hx => hx.point) ?_
      rintro x hx rfl
      cases r with
      | nil => cases hx
      | cons y r =>
        cases hx
        exact hne r rfl
    rw [boundsBefore_of_ne hne, boundsBefore_of_ne]
    intro rest hrest
    exact hhead '.' (by rw [hrest]; rfl) rfl

theorem freeLength?_append_idle (h : isOver q) {low k : Nat} (hk : low + k ≤ s.length) :
    freeLength? (s ++ q) low k = freeLength? s low k := by
  induction k with
  | zero => rfl
  | succ k ih =>
    have hhead : ((s ++ q).drop (low + (k + 1))).head?.any isNameChar =
        (s.drop (low + (k + 1))).head?.any isNameChar := by
      rw [List.drop_append_of_le_length hk]
      cases s.drop (low + (k + 1)) with
      | nil =>
        cases q with
        | nil => rfl
        | cons x q => exact (inert_of_isOver h rfl).nameChar
      | cons c t => rfl
    rw [freeLength?, freeLength?, hhead, ih (by omega)]

theorem number?_append_idle (h : isOver q) (s : List Char) : number? (s ++ q) = number? s := by
  obtain ⟨hlow, hhigh⟩ := numberBounds_le s
  rw [number?, number?, numberBounds_append_idle h]
  generalize numberBounds s = bounds at hlow hhigh
  obtain ⟨low, high⟩ := bounds
  simp only at hlow hhigh ⊢
  rw [freeLength?_append_idle h (by omega)]
  cases hf : freeLength? s low (high - low) with
  | none => rfl
  | some m =>
    obtain ⟨-, hm, -⟩ := freeLength?_spec hf
    rw [Option.map_some, Option.map_some, List.take_append_of_le_length (by omega)]

/-! Literals, bracket groups and fragments. Here a failure is not kept: what runs to the end of the
line may come to an end in its tail. -/

theorem body?_append_idle {q' : Char} {v : List Char × Nat} (h : Literal.body? q' s = some v)
    (t : List Char) : Literal.body? q' (s ++ t) = some v := by
  obtain ⟨v, n⟩ := v
  obtain ⟨b, r, rfl, rfl, hb⟩ := Literal.split_of_body? h
  rw [List.append_assoc]
  exact hb _

theorem group?_append_idle (h : isOver q) {o : Option (List Char)} (ho : group? s = .ok o) :
    group? (s ++ q) = .ok o := by
  cases o with
  | some g =>
    obtain ⟨hg, r, rfl⟩ := split_of_group? ho
    rw [List.append_assoc]
    exact hg.found _
  | none =>
    cases s with
    | nil =>
      cases q with
      | nil => rfl
      | cons x q =>
        rw [List.nil_append, group?, (inert_of_isOver h rfl).opener]
    | cons c s =>
      rw [group?] at ho
      rw [List.cons_append, group?]
      cases hc : closer? c with
      | none => rfl
      | some p =>
        simp only [hc] at ho
        cases he : groupEnd p [] 1 s <;> simp [he, Except.map] at ho

/-- A scan passes the blanks of an idle tail and stops at its comment. -/
theorem scan_of_isInline {b : List Char} (hb : ∀ y ∈ b, isInline y) (d : Nat) : Scan d b d := by
  induction b with
  | nil => exact .nil d
  | cons y b ih =>
    have hy := hb y List.mem_cons_self
    have hblank := isBlank_of_isInline hy
    refine .char (isQuote_of_isBlank hblank) ?_ ?_ ?_
    · rintro rfl
      exact absurd hy (by decide)
    · rintro ⟨rfl, -⟩
      exact absurd hy (by decide)
    · rw [depthAfter_of_isBare (isBare_of_isBlank hblank)]
      exact ih fun z hz => hb z (List.mem_cons_of_mem _ hz)

theorem trimEnd_append_blank {b : List Char} (hb : ∀ y ∈ b, isBlank y) (s : List Char) :
    trimEnd (s ++ b) = trimEnd s := by
  rw [trimEnd, trimEnd, List.reverse_append,
    List.dropWhile_append_of_pos fun y hy => hb y (List.mem_reverse.mp hy)]

theorem fragment?_append_idle (h : isOver q) {o : Option (List Char)} (ho : fragment? s = .ok o) :
    fragment? (s ++ q) = .ok o := by
  unfold fragment? at ho ⊢
  cases he : fragmentEnd 0 0 s with
  | error f => simp [he, Except.map] at ho
  | ok m =>
    obtain ⟨p, r, d, rfl, rfl, hp, hr⟩ := split_of_fragmentEnd he
    suffices hend : ∃ b, (∀ y ∈ b, isBlank y) ∧
        fragmentEnd 0 0 (p ++ r ++ q) = .ok (p.length + b.length) ∧
        (p ++ r ++ q).take (p.length + b.length) = p ++ b by
      obtain ⟨b, hb, hend, htake⟩ := hend
      rw [he] at ho
      simp only [Except.map, Nat.zero_add, List.take_left] at ho
      simp only [hend, Except.map, htake, trimEnd_append_blank hb, ho]
    cases r with
    | cons c r =>
      -- The fragment ends before the tail.
      refine ⟨[], nofun, ?_, by simp⟩
      have hhalts : Halts d (c :: r ++ q) := by
        obtain hr | hr := hr
        · cases hr
        · exact .inr hr
      rw [List.append_assoc, hp.fragmentEnd_append, fragmentEnd_of_halts hhalts]
      simp
    | nil =>
      obtain ⟨b, t, rfl, hb, ht⟩ := split_of_isOver h
      refine ⟨b, fun y hy => isBlank_of_isInline (hb y hy), ?_, ?_⟩
      · have hhalts : Halts d t := ht.imp_right .inl
        rw [List.append_nil, hp.fragmentEnd_append, (scan_of_isInline hb d).fragmentEnd_append,
          fragmentEnd_of_halts hhalts, Nat.zero_add]
      · rw [List.append_nil, ← List.append_assoc, ← List.length_append, List.take_left]

end NovelScript.Line
