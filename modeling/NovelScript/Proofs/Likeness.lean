import NovelScript.Proofs.Idle
import NovelScript.Proofs.Matching

/-!
# Two readings of a line

A line is read alike at two places, and it is read alike with an idle tail. A `Likeness` says which
places and spans of two readings correspond; the readings of a `LinePair` then find parts that
match. `Follows` states this for one reader and is closed under the ways of putting readers
together.
-/

namespace NovelScript

open Line Text

namespace Place

/-- The place of `n` characters of a line at the place, of which `i` characters come before. -/
def stretch (p : Place) (i n : Nat) : Place := ⟨p.line, p.column + i, p.start + i, p.start + i + n⟩

end Place

/-- The places, spans and faults of the layout that correspond in two readings. -/
structure Likeness where
  place : Place → Place → Prop
  span : Span → Span → Prop
  cause : LayoutFault → LayoutFault → Prop
  /-- Whether readings that fail correspond too. -/
  strict : Prop
  span_of_place : ∀ {p p'}, place p p' → span p.span p'.span
  cover : ∀ {a a' b b'}, span a a' → span b b' → span (a.cover b) (a'.cover b')

namespace Likeness

/-- All places and all spans correspond. -/
def lax (strict : Prop) (cause : LayoutFault → LayoutFault → Prop) : Likeness :=
  ⟨fun _ _ => True, fun _ _ => True, cause, strict, fun _ => trivial, fun _ _ => trivial⟩

variable (κ : Likeness)

/-- The same cause, or two faults of the layout that correspond. -/
inductive Causes : Cause → Cause → Prop
  | same (c : Cause) : Causes c c
  | layout {c c' : LayoutFault} (h : κ.cause c c') : Causes (.layout c) (.layout c')

/-- The spots of two places that correspond. -/
inductive Spots : Spot → Spot → Prop
  | narrow {p p' : Place} (h : κ.place p p') : Spots p.spot p'.spot
  | wide {p p' : Place} (h : κ.place p p') : Spots p.wideSpot p'.wideSpot

structure Faults (f f' : Fault) : Prop where
  cause : κ.Causes f.cause f'.cause
  spot : κ.Spots f.spot f'.spot

/-- A content at two places. At the second one it may have an idle tail. -/
structure LinePair where
  content : List Char
  tail : List Char
  here : Place
  there : Place
  idle : isOver tail
  strict : κ.strict → tail = []
  place : κ.place here there
  places : ∀ {i n}, i + n ≤ content.length → κ.place (here.stretch i n) (there.stretch i n)

variable {κ}

namespace LinePair

variable (K : κ.LinePair)

/-- Positions that correspond: the same one within the content, or the end of the content and one
among the blanks of the tail. -/
inductive Positions : Nat → Nat → Prop
  | within {n : Nat} (h : n ≤ K.content.length) : Positions n n
  | beyond {k : Nat} (hk : k ≤ K.tail.length) (h : isOver (K.tail.drop k)) :
    Positions K.content.length (K.content.length + k)

/-- Cursors at positions that correspond. -/
structure Cursors (c c' : Cursor) : Prop where
  content : c.content = K.content
  content' : c'.content = K.content ++ K.tail
  here : (c.line, c.column, c.start) = (K.here.line, K.here.column, K.here.start)
  there : (c'.line, c'.column, c'.start) = (K.there.line, K.there.column, K.there.start)
  pos : K.Positions c.pos c'.pos

/-- The same lexeme at both places. -/
structure Lexemes (l l' : Lexeme) : Prop where
  word : l.word = l'.word
  place : ∃ i n, i + n ≤ K.content.length ∧ l.place = K.here.stretch i n ∧
    l'.place = K.there.stretch i n

variable {K} {c c' : Cursor} {l l' : Lexeme}

theorem cursors (K : κ.LinePair) :
    K.Cursors (.ofContent K.content K.here) (.ofContent (K.content ++ K.tail) K.there) :=
  ⟨rfl, rfl, rfl, rfl, .within (Nat.zero_le _)⟩

theorem Positions.le {n n' : Nat} (h : K.Positions n n') : n ≤ K.content.length := by
  cases h with
  | within hn => exact hn
  | beyond => exact Nat.le_refl _

theorem Positions.eq_of_strict {n n' : Nat} (h : K.Positions n n') (hs : κ.strict) : n = n' := by
  cases h with
  | within => rfl
  | beyond hk =>
    rw [K.strict hs] at hk
    have hk : _ ≤ 0 := hk
    omega

/-- At the second place the same characters are ahead, and perhaps an idle tail. -/
theorem Cursors.exists_rest (h : K.Cursors c c') : ∃ q, c'.rest = c.rest ++ q ∧ isOver q ∧
    (κ.strict → q = []) := by
  have hp := h.pos
  rw [Cursor.rest, Cursor.rest, h.content, h.content']
  generalize c.pos = n, c'.pos = n' at hp
  cases hp with
  | within hn => exact ⟨K.tail, List.drop_append_of_le_length hn, K.idle, K.strict⟩
  | @beyond k hk ho =>
    refine ⟨K.tail.drop k, ?_, ho, fun hs => ?_⟩
    · rw [List.drop_length, List.nil_append, List.drop_length_add_append]
    · rw [K.strict hs, List.drop_nil]

theorem Cursors.rest_eq (h : K.Cursors c c') (hs : κ.strict) : c'.rest = c.rest := by
  obtain ⟨q, hq, -, hnil⟩ := h.exists_rest
  rw [hq, hnil hs, List.append_nil]

theorem drop_length_takeWhile (p : Char → Bool) (s : List Char) :
    s.drop (s.takeWhile p).length = s.dropWhile p := by
  have h : (s.takeWhile p ++ s.dropWhile p).drop (s.takeWhile p).length = s.dropWhile p :=
    List.drop_left
  rwa [List.takeWhile_append_dropWhile] at h

theorem Cursors.skipBlanks (h : K.Cursors c c') : K.Cursors c.skipBlanks c'.skipBlanks := by
  refine ⟨h.content, h.content', h.here, h.there, ?_⟩
  have hp := h.pos
  rw [Cursor.skipBlanks, Cursor.skipBlanks, Cursor.rest, Cursor.rest, h.content, h.content']
  simp only
  generalize c.pos = n, c'.pos = n' at hp
  cases hp with
  | within hn =>
    have hlength : (K.content.drop n).length = K.content.length - n := List.length_drop
    have hle := (List.takeWhile_sublist isInline (l := K.content.drop n)).length_le
    rw [List.drop_append_of_le_length hn, List.takeWhile_append]
    split
    · next hall =>
      -- The rest of the content is blank, so the second cursor goes on in the tail.
      have hk : n + (K.content.drop n ++ K.tail.takeWhile isInline).length =
          K.content.length + (K.tail.takeWhile isInline).length := by
        rw [List.length_append]
        omega
      rw [hk, hall, show n + (K.content.drop n).length = K.content.length by omega]
      refine .beyond (List.takeWhile_sublist _).length_le ?_
      rw [drop_length_takeWhile]
      exact isOver_dropWhile K.idle
    · exact .within (by omega)
  | @beyond k hk ho =>
    have hk' := (List.takeWhile_sublist isInline (l := K.tail.drop k)).length_le
    rw [List.length_drop] at hk'
    rw [List.drop_length, List.drop_length_add_append, Nat.add_assoc]
    refine .beyond (by omega) ?_
    rw [← List.drop_drop, drop_length_takeWhile]
    exact isOver_dropWhile ho

theorem Cursors.back {d d' : Cursor} (h : K.Cursors c c') (hd : K.Cursors d d') :
    K.Cursors { d with pos := c.pos } { d' with pos := c'.pos } :=
  ⟨hd.content, hd.content', hd.here, hd.there, h.pos⟩

/-- Where a character is left to read, both cursors are at the same position. -/
theorem Cursors.pos_eq (h : K.Cursors c c') (hr : c.rest ≠ []) : c'.pos = c.pos := by
  have hp := h.pos
  have hn : c.pos ≠ K.content.length := by
    intro hn
    rw [Cursor.rest, h.content, hn, List.drop_length] at hr
    exact hr rfl
  generalize c.pos = n, c'.pos = n' at hp hn ⊢
  cases hp with
  | within => rfl
  | beyond => exact absurd rfl hn

theorem Cursors.length_rest (h : K.Cursors c c') : c.pos + c.rest.length = K.content.length := by
  have hle := h.pos.le
  rw [Cursor.rest, h.content, List.length_drop]
  omega

theorem Cursors.ahead_eq (h : K.Cursors c c') (hn : c'.pos = c.pos) (n : Nat) :
    c.ahead n = K.here.stretch c.pos n ∧ c'.ahead n = K.there.stretch c.pos n := by
  have hhere := h.here
  have hthere := h.there
  simp only [Prod.mk.injEq] at hhere hthere
  simp only [Cursor.ahead, Place.stretch, hhere, hthere, hn, and_self]

theorem Cursors.take (h : K.Cursors c c') {n : Nat} (hn : 0 < n) (hle : n ≤ c.rest.length)
    (word : Word) : K.Lexemes (c.take n word).1 (c'.take n word).1 ∧
      K.Cursors (c.take n word).2 (c'.take n word).2 := by
  have hr : c.rest ≠ [] := List.length_pos_iff.mp (by omega)
  have hpos := h.pos_eq hr
  have hlength := h.length_rest
  obtain ⟨hhere, hthere⟩ := h.ahead_eq hpos n
  refine ⟨⟨rfl, c.pos, n, by omega, hhere, hthere⟩, ⟨h.content, h.content', h.here, h.there, ?_⟩⟩
  rw [Cursor.take, Cursor.take]
  simp only [hpos]
  exact .within (by omega)

theorem Lexemes.place' (h : K.Lexemes l l') : κ.place l.place l'.place := by
  obtain ⟨i, n, hn, hl, hl'⟩ := h.place
  rw [hl, hl']
  exact K.places hn

theorem Lexemes.span (h : K.Lexemes l l') : κ.span l.span l'.span := κ.span_of_place h.place'

theorem Lexemes.value (h : K.Lexemes l l') : l.value = l'.value := by
  rw [Lexeme.value, Lexeme.value, h.word]

theorem Cursors.spots (h : K.Cursors c c') (hs : κ.strict) {n : Nat} (hn : n ≤ c.rest.length) :
    κ.Spots (c.spotAt n) (c'.spotAt n) := by
  have hlength := h.length_rest
  have hspot : ∀ {d : Cursor} {p : Place},
      (d.line, d.column, d.start) = (p.line, p.column, p.start) → d.pos = c.pos →
      d.spotAt n = (p.stretch (c.pos + n) 0).spot := by
    intro d p hd hpos
    simp only [Prod.mk.injEq] at hd
    simp only [Cursor.spotAt, Place.stretch, Place.spot, hd, hpos, Int.natCast_add, Int.add_assoc]
  rw [hspot h.here rfl, hspot h.there (h.pos.eq_of_strict hs).symm]
  exact .narrow (K.places (by omega))

theorem Cursors.wideSpots (h : K.Cursors c c') (hs : κ.strict) :
    κ.Spots (c.ahead 0).wideSpot (c'.ahead 0).wideSpot := by
  obtain ⟨hhere, hthere⟩ := h.ahead_eq (h.pos.eq_of_strict hs).symm 0
  rw [hhere, hthere]
  exact .wide (K.places h.pos.le)

/-- The results of two readings correspond. A reading that fails need not correspond to anything
unless the likeness is strict. -/
def Results {α β : Type} (K : κ.LinePair) (T : α → β → Prop) :
    EStateM.Result Fault Cursor α → EStateM.Result Fault Cursor β → Prop
  | .ok a d, .ok b d' => T a b ∧ K.Cursors d d'
  | .ok _ _, .error _ _ => False
  | .error f _, .error f' _ => κ.strict → κ.Faults f f'
  | .error _ _, .ok _ _ => ¬κ.strict

/-- What `r` reads at the first place, `r'` reads at the second one. -/
def Follows {α β : Type} (K : κ.LinePair) (T : α → β → Prop) (r : Reader α) (r' : Reader β) :
    Prop :=
  ∀ c c', K.Cursors c c' → K.Results T (r c) (r' c')

section

variable {α β γ δ : Type} {T : α → β → Prop} {S : γ → δ → Prop} {r : Reader α} {r' : Reader β}

theorem Results.of_error {f : Fault} {d : Cursor} {x : EStateM.Result Fault Cursor β}
    (h : ¬κ.strict) : K.Results T (.error f d) x := by
  cases x with
  | ok => exact h
  | error => exact fun hs => absurd hs h

theorem Results.bind {f : α → Reader γ} {f' : β → Reader δ} {c c' : Cursor}
    (h : K.Results T (r c) (r' c'))
    (hf : ∀ a b d d', T a b → K.Cursors d d' → K.Results S (f a d) (f' b d')) :
    K.Results S ((r >>= f) c) ((r' >>= f') c') := by
  rw [run_bind, run_bind]
  generalize r c = x, r' c' = y at h
  cases x with
  | ok a d =>
    cases y with
    | ok b d' => exact hf a b d d' h.1 h.2
    | error f' d' => exact False.elim h
  | error f d =>
    cases y with
    | ok b d' => exact Results.of_error h
    | error f' d' => exact h

namespace Follows

theorem pure {a : α} {b : β} (h : T a b) : K.Follows T (Pure.pure a) (Pure.pure b) :=
  fun _ _ hc => ⟨h, hc⟩

theorem get : K.Follows K.Cursors (MonadState.get : Reader Cursor) MonadState.get :=
  fun _ _ hc => ⟨hc, hc⟩

theorem bind {f : α → Reader γ} {f' : β → Reader δ} (h : K.Follows T r r')
    (hf : ∀ a b, T a b → K.Follows S (f a) (f' b)) : K.Follows S (r >>= f) (r' >>= f') :=
  fun _ _ hc => (h _ _ hc).bind fun a b _ _ hab hd => hf a b hab _ _ hd

theorem same {r r' : Reader α} {f : α → Reader γ} {f' : α → Reader δ} (h : K.Follows Eq r r')
    (hf : ∀ a, K.Follows S (f a) (f' a)) : K.Follows S (r >>= f) (r' >>= f') :=
  bind h fun a b hab => by
    subst hab
    exact hf a

theorem map {f : α → γ} {f' : β → δ} (h : K.Follows T r r') (hf : ∀ a b, T a b → S (f a) (f' b)) :
    K.Follows S (f <$> r) (f' <$> r') :=
  bind h fun a b hab => pure (hf a b hab)

theorem ite {p : Prop} [Decidable p] {s : Reader α} {s' : Reader β} (h : K.Follows T r r')
    (h' : K.Follows T s s') : K.Follows T (if p then r else s) (if p then r' else s') := by
  by_cases hp : p
  · simpa only [hp, if_true] using h
  · simpa only [hp, if_false] using h'

theorem absent : K.Follows (Option.Rel T) (Pure.pure none) (Pure.pure none) := pure .none

theorem just (h : K.Follows T r r') : K.Follows (Option.Rel T) (some <$> r) (some <$> r') :=
  map h fun _ _ => .some

/-- Both readings go back to where they were. -/
theorem back (h : K.Cursors c c') {a : α} {b : β} (hab : T a b) :
    K.Follows T (do modify fun d => { d with pos := c.pos }; return a)
      (do modify fun d => { d with pos := c'.pos }; return b) :=
  fun _ _ hd => ⟨hab, h.back hd⟩

/-- A repetition of readings that take something whenever they find something. -/
theorem many {r : Reader (Option α)} {T : α → α → Prop} (h : K.Follows (Option.Rel T) r r)
    (hr : ∀ {c d a}, r c = .ok (some a) d → d.rest.length < c.rest.length) :
    K.Follows (List.Forall₂ T) (Reader.many r) (Reader.many r) := by
  intro c c' hc
  -- Each round takes something, so the induction is on the length of what is left.
  induction hn : c.rest.length using Nat.strongRecOn generalizing c c' with
  | _ n ih =>
    have hround := h _ _ hc
    cases hx : r c with
    | error f d =>
      cases hy : r c' with
      | ok o' d' =>
        rw [hx, hy] at hround
        rw [Reader.many_of_error hx]
        exact Results.of_error hround
      | error f' d' =>
        rw [hx, hy] at hround
        rw [Reader.many_of_error hx, Reader.many_of_error hy]
        exact hround
    | ok o d =>
      cases hy : r c' with
      | error f' d' =>
        rw [hx, hy] at hround
        exact False.elim hround
      | ok o' d' =>
        rw [hx, hy] at hround
        obtain ⟨ho, hd⟩ := hround
        cases ho with
        | none =>
          rw [Reader.many_of_none hx, Reader.many_of_none hy]
          exact ⟨.nil, hd⟩
        | some ha =>
          have hlt := hr hx
          rw [Reader.many_of_more hx hlt, Reader.many_of_more hy (hr hy)]
          have hrest := ih d.rest.length (by omega) _ _ hd rfl
          exact hrest.bind fun _ _ _ _ has he => ⟨.cons ha has, he⟩

end Follows

end

end LinePair

end Likeness

end NovelScript
