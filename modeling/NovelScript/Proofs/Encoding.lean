import NovelScript.Proofs.Positions
import NovelScript.Script

/-!
# Scripts in UTF-8

`Text.encode` writes a text in UTF-8. `Text.decode` reads exactly what it writes, and where bytes
are no such text it stops after the longest text that they start with. So a script that is read
from bytes is the script that is read from their text, and bytes that are refused are refused right
after that longest text.
-/

namespace NovelScript

namespace Text

/-- The bytes of a text in UTF-8. -/
def encode (text : List Char) : List UInt8 := text.flatMap String.utf8EncodeChar

/-- The text is the longest one whose bytes stand at the start of the given bytes. -/
structure Longest (bytes : List UInt8) (text : List Char) : Prop where
  starts : encode text <+: bytes
  longest : ∀ other, encode other <+: bytes → other <+: text

@[simp] theorem encode_nil : encode [] = [] := rfl

@[simp] theorem encode_cons (c : Char) (text : List Char) :
    encode (c :: text) = String.utf8EncodeChar c ++ encode text := List.flatMap_cons

/-- The numbers of the bytes of a character. -/
theorem toNat_utf8EncodeChar (c : Char) : (String.utf8EncodeChar c).map UInt8.toNat =
    if c.toNat < 0x80 then [c.toNat]
    else if c.toNat < 0x800 then [0xC0 + c.toNat / 64, 0x80 + c.toNat % 64]
    else if c.toNat < 0x10000 then
      [0xE0 + c.toNat / 4096, 0x80 + c.toNat / 64 % 64, 0x80 + c.toNat % 64]
    else [0xF0 + c.toNat / 262144, 0x80 + c.toNat / 4096 % 64, 0x80 + c.toNat / 64 % 64,
      0x80 + c.toNat % 64] := by
  have hc : c.toNat < 0xD800 ∨ 0xDFFF < c.toNat ∧ c.toNat < 0x110000 := c.valid
  have hv : c.val.toNat = c.toNat := rfl
  simp only [String.utf8EncodeChar, hv]
  generalize c.toNat = v at hc
  split_ifs <;>
    simp only [List.map_cons, List.map_nil, UInt8.toNat_ofNat', List.cons.injEq, and_true] <;>
    omega

/-- Bytes are those of a character if their numbers are. -/
theorem eq_utf8EncodeChar {bytes : List UInt8} {c : Char}
    (h : bytes.map UInt8.toNat = (String.utf8EncodeChar c).map UInt8.toNat) :
    bytes = String.utf8EncodeChar c :=
  List.map_injective_iff.mpr (fun _ _ => UInt8.toNat_inj.mp) h

theorem toNat_ofNat {n : Nat} (h : n < 0xD800 ∨ 0xDFFF < n ∧ n < 0x110000) :
    (Char.ofNat n).toNat = n := by
  rw [Char.ofNat, dif_pos h]
  rfl

/-- What a first byte announces, by the number of bytes that follow it. -/
inductive Announces (b : UInt8) : Utf8Lead → Prop
  | one (h : b.toNat < 0x80) : Announces b { bits := b.toNat, tails := 0 }
  | two {bits : Nat} (h : b.toNat = 0xC0 + bits) (hlow : 2 ≤ bits) (hhigh : bits < 0x20) :
    Announces b { bits := bits, tails := 1 }
  | three {bits : Nat} (h : b.toNat = 0xE0 + bits) (hhigh : bits < 0x10) :
    Announces b ⟨bits, 2, if bits = 0 then 0xA0 else 0x80, if bits = 0xD then 0x9F else 0xBF⟩
  | four {bits : Nat} (h : b.toNat = 0xF0 + bits) (hhigh : bits < 5) :
    Announces b ⟨bits, 3, if bits = 0 then 0x90 else 0x80, if bits = 4 then 0x8F else 0xBF⟩

theorem announces_of_lead {b : UInt8} {lead : Utf8Lead} (h : utf8Lead? b = some lead) :
    Announces b lead := by
  unfold utf8Lead? at h
  simp only [UInt8.lt_iff_toNat_lt, ← UInt8.toNat_inj, UInt8.reduceToNat] at h
  by_cases h1 : b.toNat < 0x80
  · rw [if_pos h1] at h
    obtain rfl := Option.some.inj h
    exact .one h1
  rw [if_neg h1] at h
  by_cases h2 : b.toNat < 0xC2
  · rw [if_pos h2] at h
    cases h
  rw [if_neg h2] at h
  by_cases h3 : b.toNat < 0xE0
  · rw [if_pos h3] at h
    obtain rfl := Option.some.inj h
    exact .two (by omega) (by omega) (by omega)
  rw [if_neg h3] at h
  by_cases h4 : b.toNat = 0xE0
  · rw [if_pos h4] at h
    obtain rfl := Option.some.inj h
    exact .three h4 (by decide)
  rw [if_neg h4] at h
  by_cases h5 : b.toNat = 0xED
  · rw [if_pos h5] at h
    obtain rfl := Option.some.inj h
    exact .three h5 (by decide)
  rw [if_neg h5] at h
  by_cases h6 : b.toNat < 0xF0
  · rw [if_pos h6] at h
    obtain rfl := Option.some.inj h
    have hlead := Announces.three (show b.toNat = 0xE0 + (b.toNat - 0xE0) by omega) (by omega)
    rwa [if_neg (by omega), if_neg (by omega)] at hlead
  rw [if_neg h6] at h
  by_cases h7 : b.toNat = 0xF0
  · rw [if_pos h7] at h
    obtain rfl := Option.some.inj h
    exact .four h7 (by decide)
  rw [if_neg h7] at h
  by_cases h8 : b.toNat < 0xF4
  · rw [if_pos h8] at h
    obtain rfl := Option.some.inj h
    have hlead := Announces.four (show b.toNat = 0xF0 + (b.toNat - 0xF0) by omega) (by omega)
    rwa [if_neg (by omega), if_neg (by omega)] at hlead
  rw [if_neg h8] at h
  by_cases h9 : b.toNat = 0xF4
  · rw [if_pos h9] at h
    obtain rfl := Option.some.inj h
    exact .four h9 (by decide)
  · rw [if_neg h9] at h
    cases h

theorem Announces.lead {b : UInt8} {lead : Utf8Lead} (h : Announces b lead) :
    utf8Lead? b = some lead := by
  unfold utf8Lead?
  simp only [UInt8.lt_iff_toNat_lt, ← UInt8.toNat_inj, UInt8.reduceToNat]
  cases h with
  | one h => rw [if_pos h]
  | two h hlow hhigh =>
    rw [if_neg (by omega), if_neg (by omega), if_pos (by omega), h, Nat.add_sub_cancel_left]
  | @three bits h hhigh =>
    rw [if_neg (by omega), if_neg (by omega), if_neg (by omega)]
    by_cases h0 : bits = 0
    · subst h0
      rw [if_pos h]
      rfl
    rw [if_neg (by omega)]
    by_cases hD : bits = 0xD
    · subst hD
      rw [if_pos h]
      rfl
    rw [if_neg (by omega), if_pos (by omega), if_neg h0, if_neg hD, h, Nat.add_sub_cancel_left]
  | @four bits h hhigh =>
    rw [if_neg (by omega), if_neg (by omega), if_neg (by omega), if_neg (by omega),
      if_neg (by omega), if_neg (by omega)]
    by_cases h0 : bits = 0
    · subst h0
      rw [if_pos h]
      rfl
    rw [if_neg (by omega)]
    by_cases h4 : bits = 4
    · subst h4
      rw [if_neg (by omega), if_pos h]
      rfl
    rw [if_pos (by omega), if_neg h0, if_neg h4, h, Nat.add_sub_cancel_left]

/-- The bounds after the first of three bytes leave out overlong forms and surrogates. -/
theorem bounds_three {bits : Nat} {b : UInt8} (h : bits < 0x10) :
    ((if bits = 0 then 0xA0 else 0x80 : UInt8).toNat ≤ b.toNat ∧
      b.toNat ≤ (if bits = 0xD then 0x9F else 0xBF : UInt8).toNat) ↔
    0x80 ≤ b.toNat ∧ b.toNat ≤ 0xBF ∧ 0x20 ≤ bits * 64 + (b.toNat - 0x80) ∧
      (bits * 64 + (b.toNat - 0x80) < 0x360 ∨ 0x380 ≤ bits * 64 + (b.toNat - 0x80)) := by
  split_ifs <;> simp only [UInt8.reduceToNat] <;> omega

/-- The bounds after the first of four bytes leave out overlong forms and what no character is. -/
theorem bounds_four {bits : Nat} {b : UInt8} (h : bits < 5) :
    ((if bits = 0 then 0x90 else 0x80 : UInt8).toNat ≤ b.toNat ∧
      b.toNat ≤ (if bits = 4 then 0x8F else 0xBF : UInt8).toNat) ↔
    0x80 ≤ b.toNat ∧ b.toNat ≤ 0xBF ∧ 0x10 ≤ bits * 64 + (b.toNat - 0x80) ∧
      bits * 64 + (b.toNat - 0x80) < 0x110 := by
  split_ifs <;> simp only [UInt8.reduceToNat] <;> omega

theorem utf8Tails_eq_ok {bits n r : Nat} {low high : UInt8} {bytes : List UInt8} :
    utf8Tails bits low high (n + 1) bytes = .ok r ↔
      ∃ b rest, bytes = b :: rest ∧ (low.toNat ≤ b.toNat ∧ b.toNat ≤ high.toNat) ∧
        utf8Tails (bits * 64 + (b.toNat - 0x80)) 0x80 0xBF n rest = .ok r := by
  cases bytes with
  | nil => simp [utf8Tails]
  | cons b rest =>
    rw [utf8Tails]
    simp only [Bool.and_eq_true, decide_eq_true_eq, UInt8.le_iff_toNat_le, List.cons.injEq]
    split
    · next h =>
      cases ht : utf8Tails (bits * 64 + (b.toNat - 0x80)) 0x80 0xBF n rest <;> simp_all
    · next h =>
      constructor
      · nofun
      · rintro ⟨b', rest', ⟨rfl, rfl⟩, hb, -⟩
        exact absurd hb h

/-- The bytes of a character are its first byte and the bytes that this announces. -/
theorem utf8Tails_of_char (c : Char) (rest : List UInt8) : ∃ b tail lead,
    String.utf8EncodeChar c ++ rest = b :: tail ∧ utf8Lead? b = some lead ∧
      utf8Tails lead.bits lead.low lead.high lead.tails tail = .ok c.toNat ∧
      tail.drop lead.tails = rest ∧ (String.utf8EncodeChar c).length = 1 + lead.tails := by
  have hc : c.toNat < 0xD800 ∨ 0xDFFF < c.toNat ∧ c.toNat < 0x110000 := c.valid
  have hplain : (0x80 : UInt8).toNat = 0x80 ∧ (0xBF : UInt8).toNat = 0xBF := ⟨rfl, rfl⟩
  have hbytes := toNat_utf8EncodeChar c
  generalize String.utf8EncodeChar c = bytes at hbytes
  generalize c.toNat = v at hc hbytes
  by_cases h1 : v < 0x80
  · rw [if_pos h1] at hbytes
    obtain ⟨b, _, rfl, hb, hbytes⟩ := List.map_eq_cons_iff.mp hbytes
    obtain rfl := List.map_eq_nil_iff.mp hbytes
    exact ⟨b, rest, _, rfl, (Announces.one (by omega)).lead, congrArg Except.ok hb, rfl, rfl⟩
  rw [if_neg h1] at hbytes
  by_cases h2 : v < 0x800
  · rw [if_pos h2] at hbytes
    obtain ⟨b, _, rfl, hb, hbytes⟩ := List.map_eq_cons_iff.mp hbytes
    obtain ⟨b1, _, rfl, hb1, hbytes⟩ := List.map_eq_cons_iff.mp hbytes
    obtain rfl := List.map_eq_nil_iff.mp hbytes
    refine ⟨b, b1 :: rest, _, rfl, (Announces.two hb (by omega) (by omega)).lead, ?_, rfl, rfl⟩
    refine utf8Tails_eq_ok.mpr ⟨b1, rest, rfl, by dsimp only; omega, ?_⟩
    exact congrArg Except.ok (by dsimp only; omega)
  rw [if_neg h2] at hbytes
  by_cases h3 : v < 0x10000
  · rw [if_pos h3] at hbytes
    obtain ⟨b, _, rfl, hb, hbytes⟩ := List.map_eq_cons_iff.mp hbytes
    obtain ⟨b1, _, rfl, hb1, hbytes⟩ := List.map_eq_cons_iff.mp hbytes
    obtain ⟨b2, _, rfl, hb2, hbytes⟩ := List.map_eq_cons_iff.mp hbytes
    obtain rfl := List.map_eq_nil_iff.mp hbytes
    have hbits : v / 4096 < 0x10 := by omega
    have hbounds := (bounds_three (b := b1) hbits).mpr (by omega)
    refine ⟨b, b1 :: b2 :: rest, _, rfl, (Announces.three hb hbits).lead, ?_, rfl, rfl⟩
    refine utf8Tails_eq_ok.mpr ⟨b1, _, rfl, hbounds,
      utf8Tails_eq_ok.mpr ⟨b2, _, rfl, by omega, ?_⟩⟩
    exact congrArg Except.ok (by dsimp only; omega)
  · rw [if_neg h3] at hbytes
    obtain ⟨b, _, rfl, hb, hbytes⟩ := List.map_eq_cons_iff.mp hbytes
    obtain ⟨b1, _, rfl, hb1, hbytes⟩ := List.map_eq_cons_iff.mp hbytes
    obtain ⟨b2, _, rfl, hb2, hbytes⟩ := List.map_eq_cons_iff.mp hbytes
    obtain ⟨b3, _, rfl, hb3, hbytes⟩ := List.map_eq_cons_iff.mp hbytes
    obtain rfl := List.map_eq_nil_iff.mp hbytes
    have hbits : v / 262144 < 5 := by omega
    have hbounds := (bounds_four (b := b1) hbits).mpr (by omega)
    refine ⟨b, b1 :: b2 :: b3 :: rest, _, rfl, (Announces.four hb hbits).lead, ?_, rfl, rfl⟩
    refine utf8Tails_eq_ok.mpr ⟨b1, _, rfl, hbounds, utf8Tails_eq_ok.mpr ⟨b2, _, rfl, by omega,
      utf8Tails_eq_ok.mpr ⟨b3, _, rfl, by omega, ?_⟩⟩⟩
    exact congrArg Except.ok (by dsimp only; omega)

/-- What a first byte and the bytes that it announces come to are the bytes of a character. -/
theorem char_of_utf8Tails {b : UInt8} {tail : List UInt8} {lead : Utf8Lead} {n : Nat}
    (hl : utf8Lead? b = some lead)
    (ht : utf8Tails lead.bits lead.low lead.high lead.tails tail = .ok n) :
    b :: tail = String.utf8EncodeChar (Char.ofNat n) ++ tail.drop lead.tails := by
  have hplain : (0x80 : UInt8).toNat = 0x80 ∧ (0xBF : UInt8).toNat = 0xBF := ⟨rfl, rfl⟩
  cases announces_of_lead hl with
  | one h =>
    have hn : b.toNat = n := Except.ok.inj ht
    have hbytes : [b] = String.utf8EncodeChar (Char.ofNat n) := eq_utf8EncodeChar (by
      rw [toNat_utf8EncodeChar, toNat_ofNat (by omega), if_pos (by omega), ← hn]
      rfl)
    rw [← hbytes]
    rfl
  | two h hlow hhigh =>
    obtain ⟨b1, rest, rfl, hb1, ht⟩ := utf8Tails_eq_ok.mp ht
    have hn : _ = n := Except.ok.inj ht
    dsimp only at hb1
    have hbytes : [b, b1] = String.utf8EncodeChar (Char.ofNat n) := eq_utf8EncodeChar (by
      dsimp only at hn
      rw [toNat_utf8EncodeChar, toNat_ofNat (by omega), if_neg (by omega), if_pos (by omega)]
      simp only [List.map_cons, List.map_nil, List.cons.injEq, and_true]
      omega)
    rw [← hbytes]
    rfl
  | three h hhigh =>
    obtain ⟨b1, rest, rfl, hb1, ht⟩ := utf8Tails_eq_ok.mp ht
    obtain ⟨b2, rest, rfl, hb2, ht⟩ := utf8Tails_eq_ok.mp ht
    have hn : _ = n := Except.ok.inj ht
    have hbounds := (bounds_three hhigh).mp hb1
    have hbytes : [b, b1, b2] = String.utf8EncodeChar (Char.ofNat n) := eq_utf8EncodeChar (by
      dsimp only at hn
      rw [toNat_utf8EncodeChar, toNat_ofNat (by omega), if_neg (by omega), if_neg (by omega),
        if_pos (by omega)]
      simp only [List.map_cons, List.map_nil, List.cons.injEq, and_true]
      omega)
    rw [← hbytes]
    rfl
  | four h hhigh =>
    obtain ⟨b1, rest, rfl, hb1, ht⟩ := utf8Tails_eq_ok.mp ht
    obtain ⟨b2, rest, rfl, hb2, ht⟩ := utf8Tails_eq_ok.mp ht
    obtain ⟨b3, rest, rfl, hb3, ht⟩ := utf8Tails_eq_ok.mp ht
    have hn : _ = n := Except.ok.inj ht
    have hbounds := (bounds_four hhigh).mp hb1
    have hbytes : [b, b1, b2, b3] = String.utf8EncodeChar (Char.ofNat n) := eq_utf8EncodeChar (by
      dsimp only at hn
      rw [toNat_utf8EncodeChar, toNat_ofNat (by omega), if_neg (by omega), if_neg (by omega),
        if_neg (by omega)]
      simp only [List.map_cons, List.map_nil, List.cons.injEq, and_true]
      omega)
    rw [← hbytes]
    rfl

/-- Bytes start with one character at most. -/
theorem eq_of_utf8EncodeChar_append {c d : Char} {rest rest' : List UInt8}
    (h : String.utf8EncodeChar c ++ rest = String.utf8EncodeChar d ++ rest') :
    c = d ∧ rest = rest' := by
  obtain ⟨b, tail, lead, hc, hl, ht, rfl, -⟩ := utf8Tails_of_char c rest
  obtain ⟨b', tail', lead', hd, hl', ht', rfl, -⟩ := utf8Tails_of_char d rest'
  rw [hc, hd] at h
  obtain ⟨rfl, rfl⟩ := List.cons.inj h
  obtain rfl := Option.some.inj (hl.symm.trans hl')
  refine ⟨?_, rfl⟩
  rw [← Char.ofNat_toNat c, ← Char.ofNat_toNat d, Except.ok.inj (ht.symm.trans ht')]

/-- No character starts here. -/
def Stops (bytes : List UInt8) : Prop := ∀ c rest, bytes ≠ String.utf8EncodeChar c ++ rest

/-- All bytes are those of a text and then some that start with no character. -/
theorem exists_split (bytes : List UInt8) :
    ∃ text tail, bytes = encode text ++ tail ∧ Stops tail := by
  by_cases hchar : ∃ c rest, bytes = String.utf8EncodeChar c ++ rest
  · obtain ⟨c, rest, rfl⟩ := hchar
    obtain ⟨text, tail, rfl, hstop⟩ := exists_split rest
    exact ⟨c :: text, tail, by rw [encode_cons, List.append_assoc], hstop⟩
  · exact ⟨[], bytes, rfl, fun c rest he => hchar ⟨c, rest, he⟩⟩
termination_by bytes.length
decreasing_by
  have hpos := c.utf8Size_pos
  simp_all

/-- No longer text stands at the start than the one before such a stop. -/
theorem Stops.longest {text : List Char} {tail : List UInt8} (h : Stops tail) :
    Longest (encode text ++ tail) text := by
  refine ⟨List.prefix_append _ _, fun other hother => ?_⟩
  induction text generalizing other with
  | nil =>
    cases other with
    | nil => exact List.prefix_rfl
    | cons c other =>
      obtain ⟨rest, hrest⟩ := hother
      rw [encode_cons, List.append_assoc] at hrest
      exact absurd hrest.symm (h c _)
  | cons d text ih =>
    cases other with
    | nil => exact List.nil_prefix
    | cons c other =>
      obtain ⟨rest, hrest⟩ := hother
      rw [encode_cons, encode_cons, List.append_assoc, List.append_assoc] at hrest
      obtain ⟨rfl, hlater⟩ := eq_of_utf8EncodeChar_append hrest
      exact (List.prefix_cons_inj _).mpr (ih other ⟨rest, hlater⟩)

/-- A character at the start is read, and then what follows it. -/
theorem decode_char (c : Char) (rest : List UInt8) :
    decode (String.utf8EncodeChar c ++ rest) = match decode rest with
      | .ok cs => .ok (c :: cs)
      | .error f => .error { f with
          before := c :: f.before
          position := f.position + (String.utf8EncodeChar c).length } := by
  obtain ⟨b, tail, lead, hc, hl, ht, rfl, hlength⟩ := utf8Tails_of_char c rest
  rw [hc, decode]
  cases hrest : decode (tail.drop lead.tails) <;> simp [hl, ht, hrest, hlength, Nat.add_assoc]

/-- Bytes that start with no character are refused at the first of them. -/
theorem Stops.decode_eq {b : UInt8} {tail : List UInt8} (h : Stops (b :: tail)) :
    ∃ length reason, decode (b :: tail) = .error ⟨[], 0, length, b, reason⟩ := by
  rw [decode]
  cases hl : utf8Lead? b with
  | none => exact ⟨_, _, rfl⟩
  | some lead =>
    cases ht : utf8Tails lead.bits lead.low lead.high lead.tails tail with
    | error e =>
      simp only [ht]
      exact ⟨_, _, rfl⟩
    | ok n => exact absurd (char_of_utf8Tails hl ht) (h _ _)

theorem decode_encode (text : List Char) : decode (encode text) = .ok text := by
  induction text with
  | nil => rw [encode_nil, decode]
  | cons c text ih => rw [encode_cons, decode_char, ih]

/-- The bytes after a text are refused where the text ends. -/
theorem Stops.decode_append {b : UInt8} {tail : List UInt8} (h : Stops (b :: tail))
    (text : List Char) : ∃ length reason, decode (encode text ++ b :: tail) =
      .error ⟨text, (encode text).length, length, b, reason⟩ := by
  induction text with
  | nil => exact h.decode_eq
  | cons c text ih =>
    obtain ⟨length, reason, he⟩ := ih
    refine ⟨length, reason, ?_⟩
    rw [encode_cons, List.append_assoc, decode_char, he, List.length_append, Nat.add_comm]

theorem eq_encode_of_decode {bytes : List UInt8} {text : List Char} (h : decode bytes = .ok text) :
    bytes = encode text := by
  obtain ⟨before, tail, rfl, hstop⟩ := exists_split bytes
  cases tail with
  | nil =>
    rw [List.append_nil, decode_encode] at h
    rw [List.append_nil, Except.ok.inj h]
  | cons b tail =>
    obtain ⟨length, reason, hdecode⟩ := hstop.decode_append before
    rw [hdecode] at h
    cases h

/-- The text without the byte order mark at its start, if there is one. -/
def dropMark : List Char → List Char
  | [] => []
  | c :: text => if c = '\uFEFF' then text else c :: text

theorem utf8EncodeChar_mark : String.utf8EncodeChar '\uFEFF' = byteOrderMark := rfl

theorem dropByteOrderMark_append (rest : List UInt8) :
    dropByteOrderMark (byteOrderMark ++ rest) = rest := by
  rw [dropByteOrderMark, if_pos (List.isPrefixOf_iff_prefix.mpr (List.prefix_append _ _))]
  exact List.drop_left

theorem dropByteOrderMark_of_not {bytes : List UInt8} (h : ¬byteOrderMark <+: bytes) :
    dropByteOrderMark bytes = bytes :=
  if_neg fun hmark => h (List.isPrefixOf_iff_prefix.mp hmark)

/-- The mark is a character, so bytes of a text start with it only if the text does. -/
theorem dropByteOrderMark_encode (text : List Char) :
    dropByteOrderMark (encode text) = encode (dropMark text) := by
  cases text with
  | nil => rfl
  | cons c text =>
    rw [dropMark, encode_cons]
    by_cases hc : c = '\uFEFF'
    · rw [if_pos hc, hc, utf8EncodeChar_mark, dropByteOrderMark_append]
    · rw [if_neg hc, encode_cons]
      refine dropByteOrderMark_of_not ?_
      rintro ⟨rest, hrest⟩
      refine hc ?_
      rw [← utf8EncodeChar_mark] at hrest
      exact (eq_of_utf8EncodeChar_append hrest).1.symm

end Text

namespace Script

open Text

/-- Bytes are read as the text that they encode. Bytes that encode no text are refused right after
the longest text that they start with; one mark in front of all this makes no difference. -/
theorem parseBytes_agrees (rules : LayoutRules) (file : Option Path) :
    (∀ text, parseBytes rules (encode text) file = parse rules (dropMark text) file) ∧
    (∀ text, parseBytes rules (byteOrderMark ++ encode text) file = parse rules text file) ∧
    ∀ mark bytes, mark = byteOrderMark ∨ mark = [] ∧ ¬byteOrderMark <+: bytes →
      (∀ text, bytes ≠ encode text) → ∃ before report context, Longest bytes before ∧
        parseBytes rules (mark ++ bytes) file = .error (.refused report) ∧
        report.faultClass = .lexical ∧ report.reason = .invalidEncoding ∧
        report.context = some context ∧ context.spot.offset = some ↑before.length ∧
        Stands before before.length context.spot.line context.spot.column := by
  refine ⟨fun text => ?_, fun text => ?_, fun mark bytes hmark hno => ?_⟩
  · rw [parseBytes, dropByteOrderMark_encode, decode_encode]
  · rw [parseBytes, dropByteOrderMark_append, decode_encode]
  · have hdrop : dropByteOrderMark (mark ++ bytes) = bytes := by
      obtain rfl | ⟨rfl, hnot⟩ := hmark
      · exact dropByteOrderMark_append bytes
      · exact dropByteOrderMark_of_not hnot
    obtain ⟨before, tail, rfl, hstop⟩ := exists_split bytes
    cases tail with
    | nil => exact absurd (List.append_nil _) (hno before)
    | cons b tail =>
      obtain ⟨length, reason, hdecode⟩ := hstop.decode_append before
      let fault : Fault := encodingFault ⟨before, (encode before).length, length, b, reason⟩
      refine ⟨before, fault.report file none, ⟨file, fault.spot, none⟩, hstop.longest, ?_, rfl,
        rfl, rfl, rfl, stands_length before⟩
      rw [parseBytes, hdrop, hdecode]

/-- A surrogate after a mark and one line. -/
theorem parseBytes_agrees_surrogate :
    (∀ text, [0x61, 0x0A, 0xED, 0xA0, 0x80] ≠ encode text) ∧ ∃ before report context,
      Longest [0x61, 0x0A, 0xED, 0xA0, 0x80] before ∧
      parseBytes {} (byteOrderMark ++ [0x61, 0x0A, 0xED, 0xA0, 0x80]) = .error (.refused report) ∧
      report.faultClass = .lexical ∧ report.reason = .invalidEncoding ∧
      report.context = some context ∧ context.spot.offset = some ↑before.length ∧
      Stands before before.length context.spot.line context.spot.column := by
  have hno : ∀ text, [0x61, 0x0A, 0xED, 0xA0, 0x80] ≠ encode text := by
    intro text he
    have hdecode : decode [0x61, 0x0A, 0xED, 0xA0, 0x80] =
        .error ⟨['a', '\n'], 2, 1, 0xED, .invalidContinuation⟩ := by cbv
    rw [he, decode_encode] at hdecode
    cases hdecode
  exact ⟨hno, (parseBytes_agrees {} none).2.2 byteOrderMark _ (.inl rfl) hno⟩

end Script

end NovelScript
