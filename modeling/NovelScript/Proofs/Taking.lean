import NovelScript.Proofs.Expressions
import NovelScript.Proofs.Fragments
import NovelScript.Proofs.Origin

/-!
# What a call does to the cursor

Every call on a line skips the blanks at the cursor. Then it takes a piece of the line, which is not
empty and is what its lexeme shows, or it stays where the blanks end and leaves the lexeme read last
as it was, also when it fails. So the lexemes that calls find without going back lie apart and in the
order of the calls.
-/

namespace NovelScript

open Line Text

/-- What a word was read from: the literal of a string, the spelling of anything else. -/
def Word.source (w : Word) : List Char := w.raw?.getD w.value

namespace Line

/-- What can be asked for on a line without going back. The looks at what is ahead find no lexeme. -/
inductive Call where
  | name
  | keyword (k : List Char)
  | punct (p : List Char) (hp : p ≠ [])
  | string
  | number
  | group
  | fragment
  | atEnd
  | peekName
  | peekPunct (p : List Char) (hp : p ≠ [])

def Call.reader : Call → Reader (Option Lexeme)
  | name => Reader.name
  | keyword k => Reader.keyword k
  | punct p _ => Reader.punct p
  | string => Reader.string
  | number => Reader.number
  | group => Reader.group
  | fragment => Reader.fragment
  | atEnd => (fun _ => none) <$> Reader.atEnd
  | peekName => (fun _ => none) <$> Reader.peekName
  | peekPunct p _ => (fun _ => none) <$> Reader.peekPunct p

/-- The lexemes that calls find one after the other. A call that fails finds none, and the next one
goes on where it left the cursor. -/
def lexemesOf : List Call → Cursor → List Lexeme
  | [], _ => []
  | call :: calls, c =>
    match call.reader c with
    | .ok (some l) d => l :: lexemesOf calls d
    | .ok none d | .error _ d => lexemesOf calls d

/-- The blanks from `n` on end at `p`. -/
structure BlanksEnd (content : List Char) (n p : Nat) : Prop where
  le : n ≤ p
  blank : ∀ i, n ≤ i → i < p → ∃ x, content[i]? = some x ∧ isInline x
  stop : ∀ x, content[p]? = some x → isInline x = false

namespace Cursor

/-- The lexeme is the piece of the line from `c` to `d`, and the one read last. -/
structure Consumes (c : Cursor) (l : Lexeme) (d : Cursor) : Prop where
  eq : d = { c with pos := d.pos, last := some l }
  lt : c.pos < d.pos
  le : d.pos ≤ c.content.length
  place : l.place = ⟨c.line, c.column + c.pos, c.start + c.pos, c.start + d.pos⟩
  source : l.word.source = (c.content.drop c.pos).take (d.pos - c.pos)

/-- What a call may come to that finds the blanks ended at `c`. -/
def Meets (c : Cursor) : EStateM.Result Fault Cursor (Option Lexeme) → Prop
  | .ok (some l) d => c.Consumes l d
  | .ok none d => d = c
  | .error f d => d = c ∧ f.cause.faultClass = .lexical ∧ f.LiesAhead c

/-- The lexeme stands on the line, at the cursor or after it, and is not empty. -/
structure HasAhead (c : Cursor) (l : Lexeme) : Prop where
  line : l.place.line = c.line
  start : c.here ≤ l.place.start
  lt : l.place.start < l.place.stop
  stop : l.place.stop ≤ c.start + c.content.length

variable {c d : Cursor} {l : Lexeme} {w t : List Char} {word : Word}

theorem blanksEnd_skipBlanks (c : Cursor) : BlanksEnd c.content c.pos c.skipBlanks.pos := by
  have hpos : c.skipBlanks.pos = c.pos + (c.rest.takeWhile isInline).length := rfl
  constructor
  · omega
  · intro i hi hlt
    have hj : i - c.pos < (c.rest.takeWhile isInline).length := by omega
    have hpre : c.rest.takeWhile isInline <+: c.rest := List.takeWhile_prefix _
    have hget : c.content[i]? = c.rest[i - c.pos]? := by
      rw [rest, List.getElem?_drop, Nat.add_sub_cancel' hi]
    refine ⟨(c.rest.takeWhile isInline)[i - c.pos], ?_, List.mem_takeWhile_imp (List.getElem_mem hj)⟩
    rw [hget, hpre.getElem hj]
    exact List.getElem?_eq_getElem _
  · intro x hx
    apply c.isInline_head_skipBlanks
    rw [rest, List.head?_drop]
    exact hx

/-! A single call. -/

theorem consumes_take (hr : c.rest = w ++ t) (hw : w ≠ []) (hs : word.source = w) :
    c.Consumes (c.take w.length word).1 (c.take w.length word).2 := by
  have hlen : 0 < w.length := List.length_pos_iff.mpr hw
  have hrest : c.content.length - c.pos = w.length + t.length := by
    rw [← List.length_append, ← hr, rest, List.length_drop]
  constructor
  · rfl
  · change c.pos < c.pos + w.length
    omega
  · change c.pos + w.length ≤ c.content.length
    omega
  · simp [take, ahead, Int.add_assoc]
  · change word.source = c.rest.take (c.pos + w.length - c.pos)
    rw [hr, hs, Nat.add_sub_cancel_left, List.take_left]

theorem meets_name (c : Cursor) : c.skipBlanks.Meets (Reader.name c) := by
  rw [Reader.name_eq]
  cases hn : name? c.skipBlanks.rest with
  | none => rfl
  | some w =>
    obtain ⟨hw, t, ht, -⟩ := split_of_name? hn
    obtain ⟨x, w', rfl, -⟩ := hw.exists_cons
    exact consumes_take ht (List.cons_ne_nil _ _) rfl

theorem meets_keyword (k : List Char) (c : Cursor) : c.skipBlanks.Meets (Reader.keyword k c) := by
  rw [Reader.keyword_eq]
  by_cases hn : name? c.skipBlanks.rest = some k
  · obtain ⟨hw, t, ht, -⟩ := split_of_name? hn
    obtain ⟨x, w', rfl, -⟩ := hw.exists_cons
    rw [if_pos hn]
    exact consumes_take ht (List.cons_ne_nil _ _) rfl
  · rw [if_neg hn]
    rfl

theorem meets_punct {p : List Char} (hp : p ≠ []) (c : Cursor) :
    c.skipBlanks.Meets (Reader.punct p c) := by
  rw [Reader.punct_eq hp]
  by_cases hs : Reader.startsWith p c.skipBlanks.rest
  · rw [if_pos hs]
    simp only [Reader.startsWith, Bool.and_eq_true, List.isPrefixOf_iff_prefix] at hs
    obtain ⟨t, ht⟩ := hs.1
    exact consumes_take ht.symm hp rfl
  · rw [if_neg hs]
    rfl

theorem meets_number (c : Cursor) : c.skipBlanks.Meets (Reader.number c) := by
  rw [Reader.number_eq]
  cases hn : number? c.skipBlanks.rest with
  | none => rfl
  | some w =>
    obtain ⟨hw, t, ht, -⟩ := split_of_number? hn
    obtain ⟨x, w', rfl, -⟩ := Reader.exists_head_of_numeric hw
    exact consumes_take ht (List.cons_ne_nil _ _) rfl

theorem meets_string (c : Cursor) : c.skipBlanks.Meets (Reader.string c) := by
  rw [Reader.string_eq]
  cases hr : c.skipBlanks.rest with
  | nil => rfl
  | cons q cs =>
    by_cases hq : isQuote q
    · simp only [hq, if_true]
      cases hb : Literal.body? q cs with
      | none => exact ⟨rfl, rfl, Reader.Local.liesAhead_spotAt (Nat.zero_le _) (.inl rfl)⟩
      | some vn =>
        obtain ⟨b, t, rfl, hn, -⟩ := Literal.split_of_body? hb
        simp only [hn, List.take_succ_cons, List.take_left]
        exact consumes_take (w := q :: b) hr (List.cons_ne_nil _ _) rfl
    · simp only [hq]
      rfl

/-- A fragment that is not empty is the text it is found at the start of. -/
theorem meets_takeFragment {x : Except Stray (Option (List Char))}
    (hb : FragmentBounded x c.rest.length)
    (hx : ∀ w, x = .ok (some w) → w ≠ [] ∧ ∃ t, c.rest = w ++ t) :
    c.Meets (Reader.takeFragment x c) := by
  rw [Reader.takeFragment_eq]
  rcases x with s | _ | w
  · exact ⟨rfl, hb.2, Reader.Local.liesAhead_spotAt hb.1 (.inl hb.2)⟩
  · rfl
  · obtain ⟨hw, t, ht⟩ := hx w rfl
    exact consumes_take ht hw rfl

theorem meets_group (c : Cursor) : c.skipBlanks.Meets (Reader.group c) := by
  rw [Reader.group_eq]
  apply meets_takeFragment (fragmentBounded_group? _)
  intro w hw
  obtain ⟨hg, t, ht⟩ := split_of_group? hw
  obtain ⟨x, w', q, rfl, -⟩ := hg.head
  exact ⟨List.cons_ne_nil _ _, t, ht⟩

theorem meets_fragment (c : Cursor) : c.skipBlanks.Meets (Reader.fragment c) := by
  rw [Reader.fragment_eq]
  apply meets_takeFragment (fragmentBounded_fragment? _)
  intro w hw
  obtain ⟨k, b, r, hf, ht, -⟩ := split_of_fragment? hw
  exact ⟨hf.ne_nil, _, ht⟩

theorem meets_reader (call : Call) (c : Cursor) : c.skipBlanks.Meets (call.reader c) := by
  cases call with
  | name => exact meets_name c
  | keyword k => exact meets_keyword k c
  | punct p hp => exact meets_punct hp c
  | string => exact meets_string c
  | number => exact meets_number c
  | group => exact meets_group c
  | fragment => exact meets_fragment c
  | atEnd => rw [Call.reader, run_map_of_ok Reader.atEnd_eq]; rfl
  | peekName => rw [Call.reader, run_map_of_ok Reader.peekName_eq]; rfl
  | peekPunct p hp => rw [Call.reader, run_map_of_ok (Reader.peekPunct_eq hp)]; rfl

/-! Calls one after the other. -/

theorem HasAhead.of_leads (h : d.HasAhead l) (hc : c.Leads d) : c.HasAhead l where
  line := h.line.trans hc.line
  start := Int.le_trans hc.here_le h.start
  lt := h.lt
  stop := by rw [← hc.start, ← hc.content]; exact h.stop

theorem Consumes.leads (h : c.Consumes l d) : c.Leads d := by
  rw [h.eq]
  exact ⟨rfl, rfl, rfl, rfl, Nat.le_of_lt h.lt, fun _ => h.le, fun _ => rfl⟩

theorem Consumes.hasAhead (h : c.Consumes l d) : c.HasAhead l := by
  have hlt := h.lt
  have hle := h.le
  constructor <;> rw [h.place]
  · exact Int.le_refl _
  · change c.start + (c.pos : Int) < c.start + (d.pos : Int)
    omega
  · change c.start + (d.pos : Int) ≤ c.start + (c.content.length : Int)
    omega

theorem Consumes.stop_eq (h : c.Consumes l d) : l.place.stop = d.here := by
  rw [h.place, h.eq]
  rfl

/-- What the first of some calls does: it finds nothing and the others go on where the blanks end, or
it finds a lexeme and they go on after it. -/
theorem lexemesOf_cons (call : Call) (calls : List Call) (c : Cursor) :
    lexemesOf (call :: calls) c = lexemesOf calls c.skipBlanks ∨
      ∃ l d, c.skipBlanks.Consumes l d ∧ lexemesOf (call :: calls) c = l :: lexemesOf calls d := by
  have hm := meets_reader call c
  rw [lexemesOf]
  cases hr : call.reader c with
  | error f d =>
    rw [hr] at hm
    rw [← hm.1]
    exact .inl rfl
  | ok o d =>
    rw [hr] at hm
    cases o with
    | none =>
      have hd : d = c.skipBlanks := hm
      rw [hd]
      exact .inl rfl
    | some l => exact .inr ⟨l, d, hm, rfl⟩

theorem hasAhead_lexemesOf (calls : List Call) (c : Cursor) :
    ∀ l ∈ lexemesOf calls c, c.HasAhead l := by
  induction calls generalizing c with
  | nil => exact nofun
  | cons call calls ih =>
    have hskip := c.leads_skipBlanks
    rcases lexemesOf_cons call calls c with h | ⟨l, d, hc, h⟩
    · rw [h]
      exact fun l hl => (ih _ l hl).of_leads hskip
    · rw [h, List.forall_mem_cons]
      constructor
      · exact hc.hasAhead.of_leads hskip
      · exact fun l' hl' => ((ih d l' hl').of_leads hc.leads).of_leads hskip

theorem pairwise_lexemesOf (calls : List Call) (c : Cursor) :
    (lexemesOf calls c).Pairwise fun l l' => l.place.stop ≤ l'.place.start := by
  induction calls generalizing c with
  | nil => exact .nil
  | cons call calls ih =>
    rcases lexemesOf_cons call calls c with h | ⟨l, d, hc, h⟩
    · rw [h]
      exact ih _
    · rw [h, List.pairwise_cons]
      constructor
      · intro l' hl'
        rw [hc.stop_eq]
        exact (hasAhead_lexemesOf calls d l' hl').start
      · exact ih d

/-- A call leaves the cursor where the blanks end, or it takes the piece of the line that its lexeme
shows. Lexemes that calls find without going back lie apart, in the order of the calls. -/
theorem contract_of_calls (c : Cursor) :
    (∃ p, BlanksEnd c.content c.pos p ∧
      ∀ call : Call, Meets { c with pos := p } (call.reader c)) ∧
    ∀ calls, (∀ l ∈ lexemesOf calls c, c.HasAhead l) ∧
      (lexemesOf calls c).Pairwise fun l l' => l.place.stop ≤ l'.place.start :=
  ⟨⟨c.skipBlanks.pos, c.blanksEnd_skipBlanks, fun call => meets_reader call c⟩,
    fun calls => ⟨hasAhead_lexemesOf calls c, pairwise_lexemesOf calls c⟩⟩

end Cursor

end Line

end NovelScript
