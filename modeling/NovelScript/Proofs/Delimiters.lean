import NovelScript.Proofs.Enclosure
import NovelScript.Proofs.Phrases

/-!
# What ends a fragment

A fragment goes on over literals and bracket groups and stops at a colon, a comment or the end of
the line. The scan for its end counts the open brackets without telling their kinds apart; a group
leaves the count as it was, so nothing inside one stops the scan. The white space at the end of a
fragment is not part of it. It is white space in the sense of Unicode, of which the words of a line
are divided by four characters only. So a delimiter follows a fragment exactly if no other white
space was left out.
-/

namespace NovelScript.Line

open Text

/-- No character outside the literals of the text, which are complete, starts a comment. -/
inductive Uncommented : List Char → Prop
  | nil : Uncommented []
  | char {c : Char} {w : List Char} (hq : isQuote c = false) (hc : c ≠ '#') (h : Uncommented w) :
    Uncommented (c :: w)
  | literal {l w : List Char} (hl : IsLiteral l) (h : Uncommented w) : Uncommented (l ++ w)

/-- Literals, bracket groups that are found and hold no comment, and characters that are neither
brackets nor marks and end no fragment. -/
inductive IsCode : List Char → Prop
  | nil : IsCode []
  | char {c : Char} {w : List Char} (hb : isBare c) (hc : c ≠ ':') (hh : c ≠ '#') (h : IsCode w) :
    IsCode (c :: w)
  | literal {l w : List Char} (hl : IsLiteral l) (h : IsCode w) : IsCode (l ++ w)
  | group {g w : List Char} (hg : group? g = .ok (some g)) (hu : Uncommented g) (h : IsCode w) :
    IsCode (g ++ w)

variable {b g l r s t u v w : List Char} {c x : Char} {d d' e : Nat}

theorem IsLiteral.exists_cons (h : IsLiteral l) : ∃ q b, l = q :: b ∧ isQuote q := by
  obtain ⟨q, b, hq, -, rfl⟩ := isLiteral_iff.mp h
  exact ⟨q, b, rfl, hq⟩

/-- A text starts with one literal at most. -/
theorem IsLiteral.eq_of_append {l' : List Char} (h : IsLiteral l) (h' : IsLiteral l')
    (he : l ++ t = l' ++ w) : l = l' ∧ t = w := by
  obtain ⟨q, b, hq, hb, rfl⟩ := isLiteral_iff.mp h
  obtain ⟨q', b', hq', hb', rfl⟩ := isLiteral_iff.mp h'
  have hbody : b ++ t = b' ++ w := (List.cons.inj he).2
  obtain rfl : q = q' := (List.cons.inj he).1
  obtain ⟨y, hy⟩ := hb t
  obtain ⟨y', hy'⟩ := hb' w
  have hlen : b'.length = b.length := by
    rw [hbody, hy'] at hy
    exact (Prod.mk.inj (Option.some.inj hy)).2
  obtain ⟨rfl, rfl⟩ := List.append_inj hbody hlen.symm
  exact ⟨rfl, rfl⟩

namespace Uncommented

theorem tail (h : Uncommented (c :: t)) (hq : isQuote c = false) : c ≠ '#' ∧ Uncommented t := by
  generalize hs : c :: t = s at h
  cases h with
  | nil => cases hs
  | char _ hc h =>
    cases hs
    exact ⟨hc, h⟩
  | literal hl h =>
    obtain ⟨q, b, rfl, hmark⟩ := hl.exists_cons
    cases hs
    rw [hmark] at hq
    cases hq

theorem after_literal (h : Uncommented (l ++ t)) (hl : IsLiteral l) : Uncommented t := by
  generalize hs : l ++ t = s at h
  obtain ⟨q, b, hcons, hmark⟩ := hl.exists_cons
  cases h with
  | nil =>
    rw [hcons] at hs
    cases hs
  | char hq _ _ =>
    rw [hcons] at hs
    cases hs
    rw [hmark] at hq
    cases hq
  | literal hl' h =>
    obtain ⟨-, rfl⟩ := hl.eq_of_append hl' hs
    exact h

end Uncommented

/-! A scan passes code and comes out with the brackets open that it went in with. -/

theorem Scan.append (h : Scan d t d') (h' : Scan d' w e) : Scan d (t ++ w) e := by
  induction h with
  | nil => exact h'
  | char hq hh hc _ ih => exact .char hq hh hc (ih h')
  | literal hq hb _ ih =>
    rw [List.cons_append, List.append_assoc]
    exact .literal hq hb (ih h')

theorem Scan.of_literal (hl : IsLiteral l) (h : Scan d w e) : Scan d (l ++ w) e := by
  obtain ⟨q, b, hq, hb, rfl⟩ := isLiteral_iff.mp hl
  exact .literal hq hb h

theorem depthAfter_open {q : Char} (h : closer? c = some q) : depthAfter d c = d + 1 := by
  rw [depthAfter, h]
  rfl

theorem depthAfter_close {q : Char} (h : closer? c = some q) : depthAfter d q = d - 1 := by
  obtain ⟨hcl, hno, -⟩ := closer_of_closer? h
  rw [depthAfter, hno, hcl]
  rfl

theorem ne_colon_of_closer? {q : Char} (h : closer? c = some q) : c ≠ ':' ∧ q ≠ ':' := by
  unfold closer? at h
  split at h
  all_goals first | cases h; decide | cases h

/-- Where a bracket is open, a scan passes items without a comment. -/
theorem scan_of_items (hw : Items w) (hu : Uncommented (w ++ t)) (d : Nat) :
    Scan (d + 1) w (d + 1) ∧ Uncommented t := by
  induction hw generalizing t d with
  | nil => exact ⟨.nil _, hu⟩
  | char hc _ ih =>
    obtain ⟨hh, hu⟩ := hu.tail (isQuote_of_isBare hc)
    obtain ⟨hs, ht⟩ := ih hu d
    refine ⟨.char (isQuote_of_isBare hc) hh (by simp) ?_, ht⟩
    rwa [depthAfter_of_isBare hc]
  | literal hl _ ih =>
    rw [List.append_assoc] at hu
    obtain ⟨hs, ht⟩ := ih (hu.after_literal hl) d
    exact ⟨hs.of_literal hl, ht⟩
  | @group o q v w ho _ _ ihv ihw =>
    obtain ⟨-, -, hmark⟩ := closer_of_closer? ho
    rw [List.cons_append, List.append_assoc, List.cons_append] at hu
    obtain ⟨hh, hu⟩ := hu.tail (isQuote_of_closer? ho)
    obtain ⟨hv, hu⟩ := ihv hu (d + 1)
    obtain ⟨hh', hu⟩ := hu.tail hmark
    obtain ⟨hs, ht⟩ := ihw hu d
    have hclose : Scan (d + 2) (q :: w) (d + 1) := by
      refine .char hmark hh' (by simp) ?_
      rwa [depthAfter_close ho]
    refine ⟨.char (isQuote_of_closer? ho) hh (by simp) ?_, ht⟩
    rw [depthAfter_open ho]
    exact hv.append hclose

theorem scan_of_bracketed (hg : Bracketed g) (hu : Uncommented g) (d : Nat) : Scan d g d := by
  obtain ⟨o, q, w, ho, hw, rfl⟩ := hg
  obtain ⟨hno, -⟩ := ne_colon_of_closer? ho
  obtain ⟨-, -, hmark⟩ := closer_of_closer? ho
  obtain ⟨hh, hu⟩ := hu.tail (isQuote_of_closer? ho)
  obtain ⟨hs, hu⟩ := scan_of_items hw hu d
  obtain ⟨hh', -⟩ := hu.tail hmark
  have hclose : Scan (d + 1) [q] d := by
    refine .char hmark hh' (by simp) ?_
    rw [depthAfter_close ho]
    exact .nil d
  refine .char (isQuote_of_closer? ho) hh (fun h => hno h.1) ?_
  rw [depthAfter_open ho]
  exact hs.append hclose

theorem scan_of_isCode (h : IsCode w) : Scan 0 w 0 := by
  induction h with
  | nil => exact .nil 0
  | char hb hc hh _ ih =>
    refine .char (isQuote_of_isBare hb) hh (fun h => hc h.1) ?_
    rwa [depthAfter_of_isBare hb]
  | literal hl _ ih => exact ih.of_literal hl
  | group hg hu _ ih => exact (scan_of_bracketed (bracketed_of_group? hg).1 hu 0).append ih

/-! The white space at the end of code is outside its literals and groups. -/

theorem isBlank_of_isCloser (h : isCloser x) : isBlank x = false := by
  by_contra hb
  rw [isCloser_of_isBare (isBare_of_isBlank (by simpa using hb))] at h
  cases h

theorem tight_of_bracketed (h : Bracketed g) : Tight g := by
  obtain ⟨o, q, w, ho, -, rfl⟩ := h
  exact tight_concat (isBlank_of_isCloser (closer_of_closer? ho).1) (o :: w)

theorem IsCode.of_concat (h : IsCode (s ++ [x])) (hx : isBlank x) : IsCode s := by
  generalize ht : s ++ [x] = t at h
  induction h generalizing s with
  | nil => exact absurd ht (by simp)
  | char hb hc hh h ih =>
    cases s with
    | nil => exact .nil
    | cons y s =>
      obtain ⟨rfl, hs⟩ := List.cons.inj ht
      exact .char hb hc hh (ih hs)
  | literal hl h ih =>
    obtain ⟨w', rfl, rfl⟩ := (tight_of_isLiteral hl).split_concat ht.symm hx
    exact .literal hl (ih rfl)
  | group hg hu h ih =>
    obtain ⟨w', rfl, rfl⟩ := (tight_of_bracketed (bracketed_of_group? hg).1).split_concat ht.symm hx
    exact .group hg hu (ih rfl)

theorem IsCode.of_append (h : IsCode (s ++ b)) (hb : ∀ y ∈ b, isBlank y) : IsCode s := by
  induction b generalizing s with
  | nil => rwa [List.append_nil] at h
  | cons y b ih =>
    rw [List.append_cons] at h
    exact (ih h fun z hz => hb z (List.mem_cons_of_mem _ hz)).of_concat (hb y List.mem_cons_self)

theorem IsCode.trimEnd (h : IsCode u) : IsCode (trimEnd u) := by
  obtain ⟨b, hu, hb, -⟩ := trimEnd_split u
  rw [hu] at h
  exact h.of_append hb

theorem fragment?_of_isCode (hu : IsCode u) (hv : Halts 0 v) :
    fragment? (u ++ v) = .ok (if trimEnd u = [] then none else some (trimEnd u)) := by
  have hend : fragmentEnd 0 0 (u ++ v) = .ok u.length := by
    rw [(scan_of_isCode hu).fragmentEnd_append, fragmentEnd_of_halts hv, Nat.zero_add]
  rw [fragment?, hend]
  simp only [Except.map, List.take_left, List.isEmpty_iff]

/-! What a line goes on with after a fragment. -/

/-- The text is over after blanks, or goes on with a colon. -/
def Delimited (s : List Char) : Prop := isOver s ∨ (s.dropWhile isInline).head? = some ':'

theorem delimited_of_halts (h : Halts d r) : Delimited r := by
  have hkeep : ∀ c t, isInline c = false → ((c :: t).dropWhile isInline).head? = some c := by
    intro c t hc
    rw [dropWhile_of_not_inline hc]
    rfl
  obtain rfl | h | ⟨h, -⟩ := h
  · exact .inl rfl
  · obtain ⟨t, rfl⟩ := List.head?_eq_some_iff.mp h
    exact .inl (by rw [isOver, hkeep _ _ (by decide)]; rfl)
  · obtain ⟨t, rfl⟩ := List.head?_eq_some_iff.mp h
    exact .inr (hkeep _ _ (by decide))

/-- A delimiter may come after blanks of a line, but not after other white space. -/
theorem delimited_append_iff (hb : ∀ y ∈ b, isBlank y) (hr : Halts d r) :
    Delimited (b ++ r) ↔ ∀ y ∈ b, isInline y := by
  induction b with
  | nil => simp [delimited_of_halts hr]
  | cons y b ih =>
    obtain ⟨hy, hb⟩ := List.forall_mem_cons.mp hb
    rw [List.forall_mem_cons]
    by_cases hi : isInline y
    · rw [← ih hb, Delimited, Delimited, isOver, isOver, List.cons_append,
        List.dropWhile_cons_of_pos hi]
      simp [hi]
    · have hover : y ≠ '#' := by
        rintro rfl
        exact absurd hy (by decide)
      have hcolon : y ≠ ':' := by
        rintro rfl
        exact absurd hy (by decide)
      simp [Delimited, isOver, hi, hover, hcolon]

end NovelScript.Line

namespace NovelScript.Reader

open Line Text

variable {c d : Cursor} {l : Lexeme} {u v : List Char}

/-- Code before a delimiter is found as one fragment, without the white space at its end, which
leaves its literals and groups whole. If there is nothing but white space, no fragment is found and
only blanks are skipped. -/
theorem fragment_of_isCode (hu : IsCode u) (hr : c.skipBlanks.rest = u ++ v)
    (hv : v = [] ∨ v.head? = some ':' ∨ v.head? = some '#') :
    IsCode (trimEnd u) ∧ (trimEnd u = [] → fragment c = .ok none c.skipBlanks) ∧
      (trimEnd u ≠ [] → ∃ l d, fragment c = .ok (some l) d ∧
        l = ⟨.fragment (trimEnd u), c.skipBlanks.ahead (trimEnd u).length⟩ ∧
        d = { c.skipBlanks with
          pos := c.skipBlanks.pos + (trimEnd u).length, last := some l }) := by
  have hhalts : Halts 0 v := by
    obtain hv | hv | hv := hv
    · exact .inl hv
    · exact .inr (.inr ⟨hv, rfl⟩)
    · exact .inr (.inl hv)
  have hfound := fragment?_of_isCode hu hhalts
  refine ⟨hu.trimEnd, fun hnil => ?_, fun hne => ?_⟩
  · rw [if_pos hnil] at hfound
    rw [fragment_eq, hr, hfound, takeFragment_eq]
  · rw [if_neg hne] at hfound
    refine ⟨_, _, ?_, rfl, rfl⟩
    rw [fragment_eq, hr, hfound, takeFragment_eq]
    rfl

/-- A colon in a literal, a colon and a comment sign in a group, and a colon that ends it. -/
def sliced : List Char := " \"a:\" in d[1:f('#')]\u00a0 : # c".toList

theorem fragment_of_isCode_sliced : ∃ l d,
    fragment (.ofContent sliced ⟨1, 1, 0, 28⟩) = .ok (some l) d ∧
      l.value = "\"a:\" in d[1:f('#')]".toList ∧ d.pos = 20 := by
  have hkey : IsLiteral "\"a:\"".toList :=
    ⟨'"', [.plain 'a', .plain ':'], by decide, by simp [Literal.Letter.Fits], rfl⟩
  have hhash : IsLiteral "'#'".toList :=
    ⟨'\'', [.plain '#'], by decide, by simp [Literal.Letter.Fits], rfl⟩
  have hcall : Items "f('#')".toList :=
    .char rfl (.group (v := "'#'".toList) (w := []) rfl (.literal (w := []) hhash .nil) .nil)
  have hslice : Bracketed "[1:f('#')]".toList :=
    ⟨'[', ']', _, rfl, .char rfl (.char rfl hcall), rfl⟩
  have hgroup : group? "[1:f('#')]".toList = .ok (some "[1:f('#')]".toList) := by
    simpa using hslice.group?_append []
  have huncommented : Uncommented "[1:f('#')]".toList :=
    .char rfl (by decide) <| .char rfl (by decide) <| .char rfl (by decide) <|
      .char rfl (by decide) <| .char rfl (by decide) <| .literal (w := ")]".toList) hhash <|
        .char rfl (by decide) <| .char rfl (by decide) .nil
  have htail : IsCode "\u00a0 ".toList :=
    .char rfl (by decide) (by decide) <| .char rfl (by decide) (by decide) .nil
  have hcode : IsCode "\"a:\" in d[1:f('#')]\u00a0 ".toList :=
    .literal (w := " in d[1:f('#')]\u00a0 ".toList) hkey <|
      .char rfl (by decide) (by decide) <| .char rfl (by decide) (by decide) <|
        .char rfl (by decide) (by decide) <| .char rfl (by decide) (by decide) <|
          .char rfl (by decide) (by decide) <|
            .group (w := "\u00a0 ".toList) hgroup huncommented htail
  obtain ⟨-, -, hfound⟩ := fragment_of_isCode (c := .ofContent sliced ⟨1, 1, 0, 28⟩)
    (v := ": # c".toList) hcode rfl (.inr (.inl rfl))
  obtain ⟨l, d, hl, rfl, rfl⟩ := hfound (by decide)
  exact ⟨_, _, hl, rfl, rfl⟩

theorem atEnd_iff : (∃ e, atEnd d = .ok true e) ↔ isOver d.rest := by
  simp [atEnd_eq_isOver]

theorem peekColon_iff :
    (∃ e, peekPunct [':'] d = .ok true e) ↔ (d.rest.dropWhile isInline).head? = some ':' := by
  have hstarts : startsWith [':'] d.skipBlanks.rest ↔ d.skipBlanks.rest.head? = some ':' := by
    rw [startsWith_singleton, List.head?_eq_some_iff]
    simp
  rw [peekPunct_eq (by simp), ← Cursor.rest_skipBlanks, ← hstarts]
  simp

theorem endOfLine_iff {construct : String} :
    (∃ u e, endOfLine construct d = .ok u e) ↔ isOver d.rest := by
  refine ⟨fun ⟨_, _, h⟩ => endOfLine_eq_ok h, fun h => ⟨(), d.skipBlanks, ?_⟩⟩
  unfold endOfLine
  rw [run_bind_of_ok (atEnd_eq_isOver.trans (by rw [h]))]
  rfl

theorem expectColon_iff :
    (∃ s e, expectPunct ":" d = .ok s e) ↔ (d.rest.dropWhile isInline).head? = some ':' := by
  rw [← peekColon_iff]
  have hpunct : ∀ {s e}, expectPunct ":" d = .ok s e ↔ punct [':'] d = .ok (some s) e :=
    required_eq_ok
  simp only [hpunct, punct_eq (p := [':']) (by simp), peekPunct_eq (p := [':']) (by simp)]
  by_cases hs : startsWith [':'] d.skipBlanks.rest <;> simp [hs]

/-- What a line goes on with after a fragment: white space that was left out of it, and then the
end, a comment or a colon. The end of the line or a colon is found there exactly if all of that
white space is blanks of a line. -/
theorem delimited_of_fragment (h : fragment c = .ok (some l) d) :
    ∃ b r, d.rest = b ++ r ∧ (∀ y ∈ b, isBlank y) ∧
      (r = [] ∨ r.head? = some '#' ∨ r.head? = some ':') ∧
      (((∃ e, atEnd d = .ok true e) ∨ ∃ e, peekPunct [':'] d = .ok true e) ↔
        ∀ y ∈ b, isInline y) ∧
      ∀ construct, ((∃ u e, endOfLine construct d = .ok u e) ∨
        ∃ s e, expectPunct ":" d = .ok s e) ↔ ∀ y ∈ b, isInline y := by
  rw [fragment_eq, takeFragment_eq] at h
  split at h
  · next g hg =>
    cases h
    obtain ⟨k, b, r, -, hr, hb, hhalts⟩ := split_of_fragment? hg
    have hd := rest_take_of_append hr (.fragment g)
    have hiff := delimited_append_iff hb hhalts
    rw [← hd] at hiff
    refine ⟨b, r, hd, hb, hhalts.imp_right (Or.imp_right And.left), ?_, fun construct => ?_⟩
    · rw [atEnd_iff, peekColon_iff]
      exact hiff
    · rw [endOfLine_iff, expectColon_iff]
      exact hiff
  · cases h
  · cases h

/-- A name and a space that does not divide the words of a line. -/
def unbroken : List Char := "x\u00a0".toList

theorem delimited_of_fragment_unbroken : ∃ l d,
    fragment (.ofContent unbroken ⟨1, 1, 0, 2⟩) = .ok (some l) d ∧ l.value = ['x'] ∧
      ¬((∃ e, atEnd d = .ok true e) ∨ ∃ e, peekPunct [':'] d = .ok true e) ∧
      ¬∃ u e, endOfLine "return statement" d = .ok u e := by
  have hcode : IsCode unbroken :=
    .char rfl (by decide) (by decide) <| .char rfl (by decide) (by decide) .nil
  have hfound : fragment? (unbroken ++ []) = .ok (some ['x']) :=
    fragment?_of_isCode hcode (.inl rfl)
  have hread : fragment (.ofContent unbroken ⟨1, 1, 0, 2⟩) =
      takeFragment (fragment? (unbroken ++ [])) (.ofContent unbroken ⟨1, 1, 0, 2⟩) := fragment_eq
  rw [hfound, takeFragment_eq] at hread
  obtain ⟨b, r, hd, -, hr, hword, hstop⟩ := delimited_of_fragment hread
  have hspace : ¬∀ y ∈ b, isInline y := by
    intro hb
    cases b with
    | nil =>
      rw [List.nil_append] at hd
      subst hd
      exact absurd hr (by decide)
    | cons y b =>
      obtain ⟨rfl, -⟩ := List.cons.inj hd
      exact absurd (hb _ List.mem_cons_self) (by decide)
  exact ⟨_, _, hread, rfl, fun h => hspace (hword.mp h), fun h => hspace ((hstop _).mp (.inl h))⟩

end NovelScript.Reader
