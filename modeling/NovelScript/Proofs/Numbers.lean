import NovelScript.Proofs.Idle
import NovelScript.Proofs.Taking

/-!
# The longest number

A text may start with several numbers, and behind some of them a name goes on. Of the others
`Reader.number` takes the longest one. It looks for its end from the longest number of all backwards,
through the digits after the point, the point and the digits before it.
-/

namespace NovelScript

open Line Text

namespace Line

/-- The text starts with the number `n`, and no name goes on behind it. -/
structure NumberAhead (n cs : List Char) : Prop where
  numeric : Numeric n
  free : ∃ r, cs = n ++ r ∧ ∀ x, r.head? = some x → isNameChar x = false

/-- The text starts with no longer number than `n` behind which no name goes on. -/
structure LongestNumber (n cs : List Char) : Prop extends NumberAhead n cs where
  longest : ∀ m, NumberAhead m cs → m.length ≤ n.length

variable {cs m n : List Char}

/-- The search for an end passes over no length at which no name goes on. -/
theorem exists_freeLength? {low k j : Nat} (hlow : low < j) (hhigh : j ≤ low + k)
    (hfree : (cs.drop j).head?.any isNameChar = false) :
    ∃ l, freeLength? cs low k = some l ∧ j ≤ l := by
  induction k with
  | zero => omega
  | succ k ih =>
    rw [freeLength?]
    by_cases hname : (cs.drop (low + (k + 1))).head?.any isNameChar
    · have hne : j ≠ low + (k + 1) := by
        rintro rfl
        rw [hfree] at hname
        cases hname
      rw [if_pos hname]
      exact ih (by omega)
    · rw [if_neg hname]
      exact ⟨_, rfl, hhigh⟩

theorem numberAhead_of_number? (h : number? cs = some n) : NumberAhead n cs := by
  obtain ⟨hnumeric, hfree⟩ := split_of_number? h
  exact ⟨hnumeric, hfree⟩

/-- Where a number is ahead, one is found, and it is no shorter. -/
theorem NumberAhead.exists_number? (h : NumberAhead m cs) :
    ∃ n, number? cs = some n ∧ m.length ≤ n.length := by
  obtain ⟨hnumeric, r, rfl, hr⟩ := h
  have hfree : ((m ++ r).drop m.length).head?.any isNameChar = false := by
    rw [List.drop_left]
    cases r with
    | nil => rfl
    | cons x r => exact hr x rfl
  obtain ⟨hlow, hhigh⟩ := hnumeric.bounds r
  have hlength := (numberBounds_le (m ++ r)).2
  cases hb : numberBounds (m ++ r) with
  | mk low high =>
    simp only [hb] at hlow hhigh hlength
    obtain ⟨l, hl, hle⟩ := exists_freeLength? (k := high - low) hlow (by omega) hfree
    obtain ⟨-, hbound, -⟩ := freeLength?_spec hl
    refine ⟨(m ++ r).take l, ?_, ?_⟩
    · rw [number?_of_bounds hb, hl, Option.map_some]
    · rw [List.length_take_of_le (by omega)]
      exact hle

theorem number?_eq_some_iff : number? cs = some n ↔ LongestNumber n cs := by
  constructor
  · intro h
    refine ⟨numberAhead_of_number? h, fun m hm => ?_⟩
    obtain ⟨k, hk, hle⟩ := hm.exists_number?
    rw [h] at hk
    cases hk
    exact hle
  · intro h
    obtain ⟨k, hk, hle⟩ := h.exists_number?
    have hahead := numberAhead_of_number? hk
    obtain ⟨r, hr, -⟩ := h.free
    obtain ⟨r', hr', -⟩ := hahead.free
    have hprefix : n <+: k := List.prefix_of_prefix_length_le ⟨r, hr.symm⟩ ⟨r', hr'.symm⟩ hle
    rw [hk, hprefix.eq_of_length (Nat.le_antisymm hle (h.longest k hahead))]

theorem number?_eq_none_iff : number? cs = none ↔ ∀ n, ¬NumberAhead n cs := by
  constructor
  · intro h n hn
    obtain ⟨k, hk, -⟩ := hn.exists_number?
    rw [h] at hk
    cases hk
  · intro h
    cases hk : number? cs with
    | none => rfl
    | some k => exact absurd (numberAhead_of_number? hk) (h k)

/-- The name takes the fraction away, and a point may end a number before a digit that is none of
ASCII. -/
example : number? "1.5x".toList = some ['1'] ∧ number? "-1.٣x".toList = some ['-', '1', '.'] := by
  decide

end Line

namespace Reader

variable {c e : Cursor} {l : Lexeme}

theorem number_eq_ok_some_iff : number c = .ok (some l) e ↔
    ∃ n, number? c.skipBlanks.rest = some n ∧ (l, e) = c.skipBlanks.take n.length (.fragment n) := by
  rw [number_eq]
  cases number? c.skipBlanks.rest with
  | none => simp
  | some n =>
    simp only [EStateM.Result.ok.injEq, Option.some.injEq, exists_eq_left', Prod.ext_iff]
    exact ⟨fun h => ⟨h.1.symm, h.2.symm⟩, fun h => ⟨h.1.symm, h.2.symm⟩⟩

theorem number_eq_ok_none_iff : number c = .ok none e ↔
    e = c.skipBlanks ∧ number? c.skipBlanks.rest = none := by
  rw [number_eq]
  cases number? c.skipBlanks.rest with
  | none => simp [eq_comm]
  | some n => simp

theorem number_ne_error (c : Cursor) (f : Fault) (e : Cursor) : number c ≠ .error f e := by
  rw [number_eq]
  cases number? c.skipBlanks.rest <;> exact nofun

/-- Reading a number takes the longest number behind the blanks after which no name goes on. It finds
none if and only if there is no such number, and it never fails. -/
theorem number_eq_longest (c : Cursor) : ∃ d : Cursor, d = { c with pos := d.pos } ∧
    BlanksEnd c.content c.pos d.pos ∧
    (∀ l e, number c = .ok (some l) e ↔
      ∃ n, LongestNumber n d.rest ∧ (l, e) = d.take n.length (.fragment n)) ∧
    (∀ e, number c = .ok none e ↔ e = d ∧ ∀ n, ¬NumberAhead n d.rest) ∧
    ∀ f e, number c ≠ .error f e := by
  refine ⟨c.skipBlanks, rfl, c.blanksEnd_skipBlanks, fun l e => ?_, fun e => ?_, number_ne_error c⟩
  · rw [number_eq_ok_some_iff]
    simp only [number?_eq_some_iff]
  · rw [number_eq_ok_none_iff, number?_eq_none_iff]

end Reader

end NovelScript
