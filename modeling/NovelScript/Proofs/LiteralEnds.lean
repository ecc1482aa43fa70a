import NovelScript.Proofs.Expressions

/-!
# Where a literal ends

A literal is read in two ways. `Reader.string` takes its letters for what they stand for, while the
searches for the end of a bracket group and of a fragment only pass over it. `pastLiteral` is what
both searches do at a mark. It stops where the literal stops that is read there, and where there is no
second mark it fails like the reader.
-/

namespace NovelScript

open Line Text

namespace Line

/-- Where the literal ends that a mark at index `i` of the text opens, if it is only passed over. -/
def pastLiteral (t : List Char) (i : Nat) : Except Stray Nat :=
  match t.drop i with
  | [] => .error ⟨i, .unterminatedString⟩
  | q :: cs =>
    match Literal.bodyLength? q cs with
    | none => .error ⟨i, .unterminatedString⟩
    | some k => .ok (i + 1 + k)

/-- The cursor `i` characters further on. -/
def Cursor.forward (c : Cursor) (i : Nat) : Cursor := { c with pos := c.pos + i }

/-- What becomes of the literal that a mark `q` opens at index `i` from the cursor on: both the reader
there and a search that started at the cursor find its end, which is behind another mark `q`, or both
fail because of the literal. -/
inductive Cursor.EndsAlike (c : Cursor) (i : Nat) (q : Char) : Prop
  | closed {j : Nat} {l : Lexeme}
    (read : Reader.string (c.forward i) = .ok (some l) { c.forward j with last := some l })
    (passed : pastLiteral c.rest i = .ok j)
    (after : i + 2 ≤ j) (within : j ≤ c.rest.length) (mark : c.rest[j - 1]? = some q)
  | unclosed {s : Stray} {f : Fault}
    (read : Reader.string (c.forward i) = .error f (c.forward i))
    (passed : pastLiteral c.rest i = .error s)
    (fails : (Reader.failAt s : Reader (Option Lexeme)) c = .error f c)
    (lexical : f.cause.faultClass = .lexical) (reason : f.cause.reason = .unterminatedString)
    (spot : f.spot = c.spotAt i)

variable {t cs : List Char} {i k : Nat} {q : Char}

theorem drop_of_drop_eq_cons (h : t.drop i = q :: cs) (k : Nat) : t.drop (i + 1 + k) = cs.drop k := by
  rw [Nat.add_assoc, ← List.drop_drop, h, Nat.add_comm, List.drop_succ_cons]

theorem pastLiteral_of_some (h : t.drop i = q :: cs) (hk : Literal.bodyLength? q cs = some k) :
    pastLiteral t i = .ok (i + 1 + k) := by
  rw [pastLiteral, h]
  simp only [hk]

theorem pastLiteral_of_none (h : t.drop i = q :: cs) (hk : Literal.bodyLength? q cs = none) :
    pastLiteral t i = .error ⟨i, .unterminatedString⟩ := by
  rw [pastLiteral, h]
  simp only [hk]

/-- At a mark, the search for the end of a group goes on where the literal ends. -/
theorem groupEnd_eq_pastLiteral (h : t.drop i = q :: cs) (hq : isQuote q) (inner : Char)
    (outer : List Char) : groupEnd inner outer i (t.drop i) =
      pastLiteral t i >>= fun j => groupEnd inner outer j (t.drop j) := by
  cases hk : Literal.bodyLength? q cs with
  | none =>
    rw [pastLiteral_of_none h hk, h, groupEnd.eq_def]
    simp only [hq, if_true, hk]
    rfl
  | some k =>
    rw [pastLiteral_of_some h hk, h, groupEnd.eq_def]
    simp only [hq, if_true, hk]
    rw [← drop_of_drop_eq_cons h]
    rfl

/-- At a mark, the search for the end of a fragment goes on where the literal ends. -/
theorem fragmentEnd_eq_pastLiteral (h : t.drop i = q :: cs) (hq : isQuote q) (depth : Nat) :
    fragmentEnd depth i (t.drop i) =
      pastLiteral t i >>= fun j => fragmentEnd depth j (t.drop j) := by
  cases hk : Literal.bodyLength? q cs with
  | none =>
    rw [pastLiteral_of_none h hk, h, fragmentEnd.eq_def]
    simp only [hq, if_true, hk]
    rfl
  | some k =>
    rw [pastLiteral_of_some h hk, h, fragmentEnd.eq_def]
    simp only [hq, if_true, hk]
    rw [← drop_of_drop_eq_cons h]
    rfl

namespace Cursor

variable {c : Cursor}

theorem rest_forward (c : Cursor) (i : Nat) : (c.forward i).rest = c.rest.drop i := by
  rw [rest, rest, List.drop_drop]
  rfl

theorem spotAt_forward (c : Cursor) (i : Nat) : (c.forward i).spotAt 0 = c.spotAt i := by
  simp only [spotAt, forward, Int.natCast_add, Int.natCast_zero, Int.add_zero, Int.add_assoc]

theorem skipBlanks_forward (h : c.rest.drop i = q :: cs) (hq : isQuote q) :
    (c.forward i).skipBlanks = c.forward i :=
  skipBlanks_eq_self (by rw [rest_forward, h]; rfl) (isInline_of_quote hq)

theorem endsAlike_of_some {v : List Char} (h : c.rest.drop i = q :: cs) (hq : isQuote q)
    (hb : Literal.body? q cs = some (v, k)) : c.EndsAlike i q := by
  have hlength : Literal.bodyLength? q cs = some k := by
    rw [Literal.bodyLength?_eq hq, hb]
    rfl
  have hread : ∃ l, Reader.string (c.forward i) =
      .ok (some l) { c.forward (i + 1 + k) with last := some l } := by
    have hpos : c.pos + i + (k + 1) = c.pos + (i + 1 + k) := by omega
    rw [Reader.string_eq, skipBlanks_forward h hq, rest_forward, h]
    simp only [hq, if_true, hb, take, forward, hpos]
    exact ⟨_, rfl⟩
  obtain ⟨l, hl⟩ := hread
  -- The letters before the second mark say where it stands.
  obtain ⟨ls, tail, -, hcs, -, hk⟩ := Literal.exists_letters_of_body? hb
  generalize ls.flatMap Literal.Letter.text = front at hcs hk
  have hend : c.rest.length = i + 1 + k + tail.length := by
    have hlen := congrArg List.length h
    rw [hcs, List.length_drop, List.length_cons, List.length_append, List.length_cons] at hlen
    omega
  have hmark : c.rest[i + 1 + k - 1]? = some q := by
    have hindex : i + 1 + k - 1 = i + 1 + front.length := by omega
    rw [hindex, ← List.head?_drop, drop_of_drop_eq_cons h, hcs, List.drop_left]
    rfl
  exact .closed hl (pastLiteral_of_some h hlength) (by omega) (by omega) hmark

theorem endsAlike_of_none (h : c.rest.drop i = q :: cs) (hq : isQuote q)
    (hb : Literal.body? q cs = none) : c.EndsAlike i q := by
  have hlength : Literal.bodyLength? q cs = none := by
    rw [Literal.bodyLength?_eq hq, hb]
    rfl
  have hread : Reader.string (c.forward i) =
      .error ⟨.unterminatedString, c.spotAt i⟩ (c.forward i) := by
    rw [Reader.string_eq, skipBlanks_forward h hq, rest_forward, h]
    simp only [hq, if_true, hb, spotAt_forward]
  exact .unclosed hread (pastLiteral_of_none h hlength) rfl rfl rfl rfl

/-- Wherever a mark opens a literal, both searches pass over it as `pastLiteral` does, and this ends
or fails like reading the literal. -/
theorem literals_end_alike (h : c.rest[i]? = some q) (hq : isQuote q) :
    (∀ inner outer, groupEnd inner outer i (c.rest.drop i) =
      pastLiteral c.rest i >>= fun j => groupEnd inner outer j (c.rest.drop j)) ∧
    (∀ depth, fragmentEnd depth i (c.rest.drop i) =
      pastLiteral c.rest i >>= fun j => fragmentEnd depth j (c.rest.drop j)) ∧ c.EndsAlike i q := by
  obtain ⟨cs, hcs⟩ : ∃ cs, c.rest.drop i = q :: cs := by
    obtain ⟨hi, rfl⟩ := List.getElem?_eq_some_iff.mp h
    exact ⟨_, List.drop_eq_getElem_cons hi⟩
  refine ⟨groupEnd_eq_pastLiteral hcs hq, fragmentEnd_eq_pastLiteral hcs hq, ?_⟩
  cases hb : Literal.body? q cs with
  | none => exact endsAlike_of_none hcs hq hb
  | some v => exact endsAlike_of_some hcs hq hb

/-- A literal that the end of its line cuts off behind a backslash, after one that holds a mark. -/
def cutLine : Cursor :=
  ofContent "f('a\\'b', \"c\\".toList ⟨1, 1, 0, 0⟩

theorem literals_end_alike_cutLine :
    (cutLine.rest[2]? = some '\'' ∧ cutLine.EndsAlike 2 '\'') ∧
      cutLine.rest[10]? = some '"' ∧ cutLine.EndsAlike 10 '"' :=
  ⟨⟨rfl, (literals_end_alike rfl rfl).2.2⟩, rfl, (literals_end_alike rfl rfl).2.2⟩

end Cursor

end Line

end NovelScript
