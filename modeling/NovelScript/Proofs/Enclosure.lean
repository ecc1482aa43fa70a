import NovelScript.Proofs.Computation
import NovelScript.Proofs.Spelling

/-!
# The grammar of bracket groups

A bracket group is an opening bracket, items and the bracket that closes it. An item is a group, a
literal, or a character that is neither a bracket nor a mark. The scan for the end of a group knows
no grammar, only the brackets that are open. `Closes` says what these still demand of the text, and
the scan stops exactly where a text has met it. So a group is found where the text starts with one,
and no text starts with two.
-/

namespace NovelScript.Line

open Literal

/-- Whether the character is neither a bracket nor a mark. -/
def isBare (c : Char) : Bool := !isQuote c && (closer? c).isNone && !isCloser c

/-- A text that is one literal: letters between two marks of one kind. -/
def IsLiteral (w : List Char) : Prop :=
  ∃ (q : Char) (ls : List Letter), isQuote q ∧ (∀ l ∈ ls, l.Fits q) ∧
    w = q :: (ls.flatMap Letter.text ++ [q])

/-- What may stand between brackets: any number of items. -/
inductive Items : List Char → Prop
  | nil : Items []
  | char {c : Char} {w : List Char} (hc : isBare c) (h : Items w) : Items (c :: w)
  | literal {l w : List Char} (hl : IsLiteral l) (h : Items w) : Items (l ++ w)
  | group {o q : Char} {v w : List Char} (ho : closer? o = some q) (hv : Items v) (hw : Items w) :
    Items (o :: (v ++ q :: w))

/-- A text that is one bracket group. -/
def Bracketed (g : List Char) : Prop :=
  ∃ (o q : Char) (w : List Char), closer? o = some q ∧ Items w ∧ g = o :: (w ++ [q])

/-- The text closes the open brackets, of which the innermost one is closed by the first of the
characters, and has items before each of them. -/
inductive Closes : List Char → List Char → Prop
  | done : Closes [] []
  | close {q : Char} {qs w t : List Char} (hw : Items w) (h : Closes qs t) :
    Closes (q :: qs) (w ++ q :: t)

variable {c o q x : Char} {qs outer b cs g l r t w : List Char} {k m n : Nat} {s : Stray}

theorem isQuote_of_isBare (h : isBare c) : isQuote c = false := by
  simp only [isBare, Bool.and_eq_true] at h
  simpa using h.1.1

theorem closer?_of_isBare (h : isBare c) : closer? c = none := by
  simp only [isBare, Bool.and_eq_true] at h
  simpa using h.1.2

theorem isCloser_of_isBare (h : isBare c) : isCloser c = false := by
  simp only [isBare, Bool.and_eq_true] at h
  simpa using h.2

theorem isBare_of (hq : isQuote c = false) (ho : closer? c = none) (hc : isCloser c = false) :
    isBare c := by
  rw [isBare, hq, ho, hc]
  rfl

/-- The bracket that closes another one opens none and is no mark. -/
theorem closer_of_closer? (h : closer? o = some q) :
    isCloser q ∧ closer? q = none ∧ isQuote q = false := by
  unfold closer? at h
  split at h
  all_goals first | cases h; decide | cases h

/-- A literal is a mark and a body that it closes. -/
theorem isLiteral_iff : IsLiteral w ↔ ∃ q b, isQuote q ∧ IsBody q b ∧ w = q :: b := by
  constructor
  · rintro ⟨q, ls, hq, hls, rfl⟩
    refine ⟨q, _, hq, fun t => ⟨ls.map Letter.value, ?_⟩, rfl⟩
    rw [List.append_assoc, List.singleton_append, body?_flatMap_text hls, List.length_append,
      List.length_singleton]
  · rintro ⟨q, b, hq, hb, rfl⟩
    obtain ⟨ls, hls, rfl⟩ := hb.exists_letters
    exact ⟨q, ls, hq, hls, rfl⟩

/-! One step of a scan for the end of a group. -/

theorem groupEnd_bare (h : isBare c) (t : List Char) :
    groupEnd q outer n (c :: t) = groupEnd q outer (n + 1) t := by
  rw [groupEnd.eq_def]
  simp only [isQuote_of_isBare h, closer?_of_isBare h, isCloser_of_isBare h, Bool.false_eq_true,
    if_false]

theorem groupEnd_literal (h : IsLiteral l) (t : List Char) :
    groupEnd q outer n (l ++ t) = groupEnd q outer (n + l.length) t := by
  obtain ⟨x, b, hx, hb, rfl⟩ := isLiteral_iff.mp h
  have hn : n + 1 + b.length = n + (x :: b).length := by
    rw [List.length_cons]
    omega
  rw [List.cons_append, groupEnd.eq_def]
  simp only [hx, if_true, hb.length? hx, List.drop_left, hn]

theorem groupEnd_open (h : closer? o = some x) (t : List Char) :
    groupEnd q outer n (o :: t) = groupEnd x (q :: outer) (n + 1) t := by
  rw [groupEnd.eq_def]
  simp only [isQuote_of_closer? h, Bool.false_eq_true, if_false, h]

theorem groupEnd_close (h : closer? o = some q) (t : List Char) :
    groupEnd q (x :: outer) n (q :: t) = groupEnd x outer (n + 1) t := by
  obtain ⟨hcl, hno, hq⟩ := closer_of_closer? h
  rw [groupEnd.eq_def]
  simp only [hq, Bool.false_eq_true, if_false, hno, hcl, if_true, ne_eq, not_true_eq_false]

theorem groupEnd_last (h : closer? o = some q) (t : List Char) :
    groupEnd q [] n (q :: t) = .ok (n + 1) := by
  obtain ⟨hcl, hno, hq⟩ := closer_of_closer? h
  rw [groupEnd.eq_def]
  simp only [hq, Bool.false_eq_true, if_false, hno, hcl, if_true, ne_eq, not_true_eq_false]

/-! What a scan passes is items, and it passes all items. -/

namespace Closes

theorem char (hc : isBare c) (h : Closes (q :: qs) t) : Closes (q :: qs) (c :: t) := by
  cases h with
  | close hw h => exact .close (.char hc hw) h

theorem literal (hl : IsLiteral l) (h : Closes (q :: qs) t) : Closes (q :: qs) (l ++ t) := by
  cases h with
  | close hw h =>
    rw [← List.append_assoc]
    exact .close (.literal hl hw) h

/-- A bracket that opens is closed first. -/
theorem opening (ho : closer? o = some x) (h : Closes (x :: q :: qs) t) :
    Closes (q :: qs) (o :: t) := by
  cases h with
  | @close _ _ v _ hv h =>
    cases h with
    | @close _ _ w t hw h =>
      have he : o :: (v ++ x :: (w ++ q :: t)) = o :: (v ++ x :: w) ++ q :: t := by simp
      rw [he]
      exact .close (.group ho hv hw) h

theorem closing (h : Closes qs t) : Closes (q :: qs) (q :: t) := .close .nil h

end Closes

/-- A scan that comes to an end has met the demands of all open brackets. -/
theorem closes_of_groupEnd (h : groupEnd q outer n cs = .ok m) :
    ∃ p r, cs = p ++ r ∧ m = n + p.length ∧ Closes (q :: outer) p := by
  fun_induction groupEnd q outer n cs with
  | case1 | case2 | case5 => cases h
  | case3 q outer n c cs hq k hb ih =>
    obtain ⟨b, r, rfl, rfl, hbody⟩ := isBody_of_length? hq hb
    rw [List.drop_left] at ih h
    obtain ⟨p, r', rfl, rfl, hp⟩ := ih h
    refine ⟨c :: b ++ p, r', by simp, ?_, hp.literal (isLiteral_iff.mpr ⟨c, b, hq, hbody, rfl⟩)⟩
    rw [List.length_append, List.length_cons]
    omega
  | case4 q outer n c cs hq x hc ih =>
    obtain ⟨p, r, rfl, rfl, hp⟩ := ih h
    exact ⟨c :: p, r, rfl, by rw [List.length_cons]; omega, hp.opening hc⟩
  | case6 q n c cs hq hc hcl hne =>
    cases h
    obtain rfl : c = q := not_not.mp hne
    exact ⟨[c], cs, rfl, rfl, .closing .done⟩
  | case7 q n c cs hq hc hcl hne x outer ih =>
    obtain rfl : c = q := not_not.mp hne
    obtain ⟨p, r, rfl, rfl, hp⟩ := ih h
    exact ⟨c :: p, r, rfl, by rw [List.length_cons]; omega, hp.closing⟩
  | case8 q outer n c cs hq hc hcl ih =>
    obtain ⟨p, r, rfl, rfl, hp⟩ := ih h
    have hbare : isBare c := isBare_of (by simpa using hq) hc (by simpa using hcl)
    exact ⟨c :: p, r, rfl, by rw [List.length_cons]; omega, hp.char hbare⟩

/-- Items leave the open brackets of a scan as they are. -/
theorem groupEnd_items (h : Items w) (q : Char) (outer : List Char) (n : Nat) (t : List Char) :
    groupEnd q outer n (w ++ t) = groupEnd q outer (n + w.length) t := by
  induction h generalizing q outer n t with
  | nil => rfl
  | @char c w hc h ih =>
    have hn : n + 1 + w.length = n + (c :: w).length := by
      rw [List.length_cons]
      omega
    rw [List.cons_append, groupEnd_bare hc, ih, hn]
  | @literal l w hl h ih =>
    rw [List.append_assoc, groupEnd_literal hl, ih, List.length_append, Nat.add_assoc]
  | @group o x v w ho hv hw ihv ihw =>
    have hn : n + 1 + v.length + 1 + w.length = n + (o :: (v ++ x :: w)).length := by
      rw [List.length_cons, List.length_append, List.length_cons]
      omega
    rw [List.cons_append, List.append_assoc, List.cons_append, groupEnd_open ho, ihv,
      groupEnd_close ho, ihw, hn]

/-- A scan fails because of a literal or a bracket. -/
theorem reason_of_groupEnd (h : groupEnd q outer n cs = .error s) :
    s.cause.faultClass = .lexical ∧
      (s.cause.reason = .unterminatedFragment ∨ s.cause.reason = .unterminatedString) := by
  fun_induction groupEnd q outer n cs with
  | case1 | case5 =>
    cases h
    exact ⟨rfl, .inl rfl⟩
  | case2 =>
    cases h
    exact ⟨rfl, .inr rfl⟩
  | case6 => cases h
  | case3 _ _ _ _ _ _ _ _ ih | case4 _ _ _ _ _ _ _ _ ih | case7 _ _ _ _ _ _ _ _ _ _ ih
  | case8 _ _ _ _ _ _ _ _ ih => exact ih h

/-! Groups. -/

theorem group?_cons (ho : closer? o = some q) (cs : List Char) :
    group? (o :: cs) = (groupEnd q [] 1 cs).map fun n => some ((o :: cs).take n) := by
  rw [group?, ho]

/-- A group is found whatever follows it. -/
theorem Bracketed.group?_append (h : Bracketed g) (t : List Char) :
    group? (g ++ t) = .ok (some g) := by
  obtain ⟨o, q, w, ho, hw, rfl⟩ := h
  have hend : groupEnd q [] 1 (w ++ [q] ++ t) = .ok (o :: (w ++ [q])).length := by
    have hn : 1 + w.length + 1 = (o :: (w ++ [q])).length := by
      rw [List.length_cons, List.length_append, List.length_singleton]
      omega
    rw [List.append_assoc, groupEnd_items hw, List.singleton_append, groupEnd_last ho, hn]
  rw [List.cons_append, group?_cons ho, hend, ← List.cons_append]
  simp only [Except.map, List.take_left]

/-- What is found as a group is one. -/
theorem bracketed_of_group? (h : group? cs = .ok (some g)) : Bracketed g ∧ g <+: cs := by
  cases cs with
  | nil => cases h
  | cons o cs =>
    cases ho : closer? o with
    | none =>
      rw [group?, ho] at h
      cases h
    | some q =>
      rw [group?_cons ho] at h
      cases he : groupEnd q [] 1 cs with
      | error s =>
        rw [he] at h
        cases h
      | ok m =>
        obtain ⟨p, r, rfl, rfl, hp⟩ := closes_of_groupEnd he
        have htake : (o :: (p ++ r)).take (1 + p.length) = o :: p := by
          rw [Nat.add_comm, List.take_succ_cons, List.take_left]
        rw [he] at h
        simp only [Except.map, htake] at h
        cases h
        refine ⟨?_, r, rfl⟩
        cases hp with
        | close hw hdone =>
          cases hdone
          exact ⟨o, q, _, ho, hw, rfl⟩

theorem Items.whole (h : Items w) : Whole w := by
  induction h with
  | nil => exact .nil
  | char hc _ ih => exact .char (isQuote_of_isBare hc) ih
  | literal hl _ ih =>
    obtain ⟨q, b, hq, hb, rfl⟩ := isLiteral_iff.mp hl
    exact .literal hq hb ih
  | group ho _ _ ihv ihw =>
    obtain ⟨-, -, hmark⟩ := closer_of_closer? ho
    exact .char (isQuote_of_closer? ho) (whole_append ihv (.char hmark ihw))

theorem Bracketed.isGroup (h : Bracketed g) : IsGroup g := by
  obtain ⟨o, q, w, ho, hw, hg⟩ := id h
  obtain ⟨hcl, -, hmark⟩ := closer_of_closer? ho
  refine ⟨?_, ⟨o, w ++ [q], q, hg, ho⟩, ⟨o :: w, q, hg, hcl⟩, h.group?_append⟩
  rw [hg]
  exact .char (isQuote_of_closer? ho) (whole_append hw.whole (.char hmark .nil))

theorem split_of_group? (h : group? cs = .ok (some g)) : IsGroup g ∧ ∃ r, cs = g ++ r := by
  obtain ⟨hg, r, hr⟩ := bracketed_of_group? h
  exact ⟨hg.isGroup, r, hr.symm⟩

/-- No text starts with two groups. -/
theorem Bracketed.eq_of_prefix {g' : List Char} (h : Bracketed g) (h' : Bracketed g')
    (hp : g <+: cs) (hp' : g' <+: cs) : g = g' := by
  obtain ⟨t, rfl⟩ := hp
  obtain ⟨t', ht⟩ := hp'
  have hg := h'.group?_append t'
  rw [ht, h.group?_append t] at hg
  cases hg
  rfl

end NovelScript.Line

namespace NovelScript.Reader

open Line

variable {c d : Cursor} {l : Lexeme} {x : Char}

/-- At an opening bracket a group is found exactly if the text starts with one. No other one does,
and it is the lexeme and what the cursor passes. If the text starts with none, the search fails
because of a bracket or a literal, and only blanks are skipped. -/
theorem group_iff_bracketed (hx : c.skipBlanks.rest.head? = some x) (ho : (closer? x).isSome) :
    ((∃ l d, group c = .ok (some l) d) ↔ ∃ g, Bracketed g ∧ g <+: c.skipBlanks.rest) ∧
    (∀ g g', Bracketed g → Bracketed g' → g <+: c.skipBlanks.rest → g' <+: c.skipBlanks.rest →
      g = g') ∧
    (∀ l d, group c = .ok (some l) d → Bracketed l.value ∧ l.value <+: c.skipBlanks.rest ∧
      l = ⟨.fragment l.value, c.skipBlanks.ahead l.value.length⟩ ∧
      d = { c.skipBlanks with pos := c.skipBlanks.pos + l.value.length, last := some l }) ∧
    ((∀ g, Bracketed g → ¬g <+: c.skipBlanks.rest) →
      ∃ f, group c = .error f c.skipBlanks ∧ f.cause.faultClass = .lexical ∧
        (f.cause.reason = .unterminatedFragment ∨ f.cause.reason = .unterminatedString)) := by
  have hread : ∀ l d, group c = .ok (some l) d → ∃ g, group? c.skipBlanks.rest = .ok (some g) ∧
      l = ⟨.fragment g, c.skipBlanks.ahead g.length⟩ ∧
        d = { c.skipBlanks with pos := c.skipBlanks.pos + g.length, last := some l } := by
    intro l d h
    rw [group_eq, takeFragment_eq] at h
    split at h
    · next g hg =>
      cases h
      exact ⟨g, hg, rfl, rfl⟩
    · cases h
    · cases h
  have hfound : ∀ g, Bracketed g → g <+: c.skipBlanks.rest → ∃ l d, group c = .ok (some l) d := by
    rintro g hg ⟨t, ht⟩
    rw [group_eq, ← ht, hg.group?_append, takeFragment_eq]
    exact ⟨_, _, rfl⟩
  refine ⟨⟨?_, ?_⟩, fun g g' hg hg' => hg.eq_of_prefix hg', ?_, ?_⟩
  · rintro ⟨l, d, h⟩
    obtain ⟨g, hg, -, -⟩ := hread l d h
    exact ⟨g, bracketed_of_group? hg⟩
  · rintro ⟨g, hg, hp⟩
    exact hfound g hg hp
  · intro l d h
    obtain ⟨g, hg, rfl, hd⟩ := hread l d h
    obtain ⟨hb, hp⟩ := bracketed_of_group? hg
    exact ⟨hb, hp, rfl, hd⟩
  · intro hnone
    obtain ⟨cs, hcs⟩ := List.head?_eq_some_iff.mp hx
    obtain ⟨q, hq⟩ := Option.isSome_iff_exists.mp ho
    rw [group_eq, takeFragment_eq]
    cases he : groupEnd q [] 1 cs with
    | ok m =>
      have hg : group? c.skipBlanks.rest = .ok (some ((x :: cs).take m)) := by
        rw [hcs, group?_cons hq, he]
        rfl
      obtain ⟨hb, hp⟩ := bracketed_of_group? hg
      exact absurd hp (hnone _ hb)
    | error s =>
      have hg : group? c.skipBlanks.rest = .error s := by
        rw [hcs, group?_cons hq, he]
        rfl
      rw [hg]
      exact ⟨_, rfl, reason_of_groupEnd he⟩

/-- A group within a group, and a literal that holds a bracket and an escaped mark. -/
def nested : List Char := "  (a, [')\\'']) + 1".toList

theorem group_iff_bracketed_nested : ∃ l d,
    group (.ofContent nested ⟨1, 1, 0, 18⟩) = .ok (some l) d ∧
      l.value = "(a, [')\\''])".toList ∧ d.pos = 14 := by
  have hliteral : IsLiteral "')\\''".toList :=
    ⟨'\'', [.plain ')', .escaped '\''], by decide, by simp [Literal.Letter.Fits], rfl⟩
  have hinner : Items "[')\\'']".toList :=
    .group (v := "')\\''".toList) (w := []) rfl (.literal (w := []) hliteral .nil) .nil
  have hgroup : Bracketed "(a, [')\\''])".toList :=
    ⟨'(', ')', _, rfl, .char rfl (.char rfl (.char rfl hinner)), rfl⟩
  have hprefix : "(a, [')\\''])".toList <+: "(a, [')\\'']) + 1".toList := ⟨" + 1".toList, rfl⟩
  obtain ⟨hfound, hunique, hread, -⟩ :=
    group_iff_bracketed (c := .ofContent nested ⟨1, 1, 0, 18⟩) (x := '(') rfl rfl
  obtain ⟨l, d, hl⟩ := hfound.mpr ⟨_, hgroup, hprefix⟩
  obtain ⟨hb, hp, -, hd⟩ := hread l d hl
  have hvalue : l.value = "(a, [')\\''])".toList := hunique _ _ hb hgroup hp hprefix
  refine ⟨l, d, hl, hvalue, ?_⟩
  rw [hd, hvalue]
  rfl

end NovelScript.Reader
