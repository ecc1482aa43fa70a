import NovelScript.Grammar.Block

/-!
# Running readers and parsers

Readers and parsers are computations with a state that is known also when they fail. The lemmas of
this module say what each way of putting them together does to the state, and what the elementary
parsers do with the next token. Later modules take computations apart with them.
-/

namespace NovelScript

section

variable {ε σ α β : Type} {s t : σ}

@[simp] theorem run_pure (a : α) : (pure a : EStateM ε σ α) s = .ok a s := rfl

@[simp] theorem run_throw (e : ε) : (throw e : EStateM ε σ α) s = .error e s := rfl

@[simp] theorem run_get : (get : EStateM ε σ σ) s = .ok s s := rfl

@[simp] theorem run_modify (f : σ → σ) : (modify f : EStateM ε σ PUnit) s = .ok ⟨⟩ (f s) := rfl

@[simp] theorem run_modifyGet (f : σ → α × σ) :
    (modifyGet f : EStateM ε σ α) s = .ok (f s).1 (f s).2 := rfl

theorem run_bind (m : EStateM ε σ α) (f : α → EStateM ε σ β) :
    (m >>= f) s = match m s with
      | .ok a t => f a t
      | .error e t => .error e t := rfl

theorem run_map (f : α → β) (m : EStateM ε σ α) :
    (f <$> m) s = match m s with
      | .ok a t => .ok (f a) t
      | .error e t => .error e t := rfl

/-- A sequence goes on where its first part ended. -/
theorem run_bind_of_ok {m : EStateM ε σ α} {f : α → EStateM ε σ β} {a : α} (h : m s = .ok a t) :
    (m >>= f) s = f a t := by rw [run_bind, h]

theorem run_bind_of_error {m : EStateM ε σ α} {f : α → EStateM ε σ β} {e : ε}
    (h : m s = .error e t) : (m >>= f) s = .error e t := by rw [run_bind, h]

theorem run_map_of_ok {f : α → β} {m : EStateM ε σ α} {a : α} (h : m s = .ok a t) :
    (f <$> m) s = .ok (f a) t := by rw [run_map, h]

theorem run_bind_eq_ok {m : EStateM ε σ α} {f : α → EStateM ε σ β} {b : β} {u : σ} :
    (m >>= f) s = .ok b u ↔ ∃ a t, m s = .ok a t ∧ f a t = .ok b u := by
  rw [run_bind]
  cases m s <;> simp [and_assoc]

theorem run_bind_eq_error {m : EStateM ε σ α} {f : α → EStateM ε σ β} {e : ε} {u : σ} :
    (m >>= f) s = .error e u ↔
      m s = .error e u ∨ ∃ a t, m s = .ok a t ∧ f a t = .error e u := by
  rw [run_bind]
  cases m s <;> simp [and_assoc]

theorem run_map_eq_ok {f : α → β} {m : EStateM ε σ α} {b : β} {u : σ} :
    (f <$> m) s = .ok b u ↔ ∃ a, m s = .ok a u ∧ f a = b := by
  rw [run_map]
  cases m s <;> simp [and_assoc, and_comm]

end

namespace Line.Cursor

variable (c : Cursor)

theorem rest_skipBlanks : c.skipBlanks.rest = c.rest.dropWhile Text.isInline := by
  have hd : ∀ cs : List Char, cs.drop (cs.takeWhile Text.isInline).length =
      cs.dropWhile Text.isInline := by
    intro cs
    induction cs with
    | nil => rfl
    | cons x cs ih =>
      by_cases hx : Text.isInline x
      · simp [hx, ih]
      · simp [hx]
  rw [← hd, rest, rest, skipBlanks, List.drop_drop]
  rfl

theorem rest_take (n : Nat) (word : Word) : (c.take n word).2.rest = c.rest.drop n := by
  simp [rest, take]

theorem isInline_head_skipBlanks {x : Char} (h : c.skipBlanks.rest.head? = some x) :
    Text.isInline x = false := by
  rw [rest_skipBlanks] at h
  exact Text.not_of_head?_dropWhile h

/-- Blanks are skipped once. -/
@[simp] theorem skipBlanks_idem : c.skipBlanks.skipBlanks = c.skipBlanks := by
  have h : c.skipBlanks.rest.takeWhile Text.isInline = [] :=
    Text.takeWhile_eq_nil_of_head? fun _ hx => c.isInline_head_skipBlanks hx
  rw [skipBlanks, h]
  rfl

end Line.Cursor

namespace Reader

open Line

variable {c : Cursor}

theorem char?_eq : char? c = .ok c.rest.head? c := rfl

theorem atEnd_eq : atEnd c = .ok (match c.skipBlanks.rest.head? with
    | none => true
    | some d => d == '#') c.skipBlanks := by
  cases h : c.skipBlanks.rest.head? <;>
    simp only [atEnd, skip, char?, run_bind, run_modify, run_get, run_pure, h]

theorem peekName_eq : peekName c = .ok (name? c.skipBlanks.rest) c.skipBlanks := rfl

theorem name_eq : name c = match name? c.skipBlanks.rest with
    | some n => .ok (some (c.skipBlanks.take n.length (.name n)).1)
        (c.skipBlanks.take n.length (.name n)).2
    | none => .ok none c.skipBlanks := by
  simp only [name, run_bind, peekName_eq]
  cases name? c.skipBlanks.rest <;> rfl

theorem keyword_eq (k : List Char) : keyword k c =
    if name? c.skipBlanks.rest = some k then
      .ok (some (c.skipBlanks.take k.length (.keyword k)).1)
        (c.skipBlanks.take k.length (.keyword k)).2
    else .ok none c.skipBlanks := by
  simp only [keyword, run_bind, peekName_eq]
  split <;> rfl

/-- Whether the punctuation `p` is at the start of the text. -/
def startsWith (p cs : List Char) : Bool :=
  p.isPrefixOf cs && !(p == ['='] && ['=', '='].isPrefixOf cs)

theorem peekPunct_eq {p : List Char} (hp : p ≠ []) :
    peekPunct p c = .ok (startsWith p c.skipBlanks.rest) c.skipBlanks := by
  simp only [peekPunct, skip, run_bind, run_modify, run_get, run_pure, startsWith]
  by_cases h : c.skipBlanks.pos ≤ c.skipBlanks.content.length
  · simp only [h, decide_true, Bool.true_and]
  · have hr : c.skipBlanks.rest = [] := List.drop_eq_nil_of_le (by omega)
    cases p with
    | nil => exact absurd rfl hp
    | cons x p => simp [hr]

theorem punct_eq {p : List Char} (hp : p ≠ []) : punct p c =
    if startsWith p c.skipBlanks.rest then
      .ok (some (c.skipBlanks.take p.length (.punct p)).1)
        (c.skipBlanks.take p.length (.punct p)).2
    else .ok none c.skipBlanks := by
  simp only [punct, run_bind, peekPunct_eq hp]
  split <;> rfl

theorem string_eq : string c = match c.skipBlanks.rest with
    | [] => .ok none c.skipBlanks
    | q :: rest =>
      if isQuote q then
        match Literal.body? q rest with
        | some (value, n) =>
          let word := Word.string value ((q :: rest).take (n + 1))
          .ok (some (c.skipBlanks.take (n + 1) word).1) (c.skipBlanks.take (n + 1) word).2
        | none => .error ⟨.unterminatedString, c.skipBlanks.spotAt 0⟩ c.skipBlanks
      else .ok none c.skipBlanks := by
  simp only [string, skip, run_bind, run_modify, run_get]
  cases h : c.skipBlanks.rest with
  | nil => rfl
  | cons q rest =>
    simp only
    by_cases hq : isQuote q
    · simp only [hq, if_true]
      cases hb : Literal.body? q rest with
      | none => rfl
      | some x => rfl
    · simp only [hq]
      rfl

theorem eq_skipBlanks_of_name {d : Cursor} (h : name c = .ok none d) : d = c.skipBlanks := by
  rw [name_eq] at h
  split at h <;> cases h
  rfl

theorem eq_skipBlanks_of_string {d : Cursor} (h : string c = .ok none d) : d = c.skipBlanks := by
  rw [string_eq] at h
  split at h
  · cases h
    rfl
  · split at h
    · split at h <;> cases h
    · cases h
      rfl

theorem number_eq : number c = match number? c.skipBlanks.rest with
    | some n => .ok (some (c.skipBlanks.take n.length (.fragment n)).1)
        (c.skipBlanks.take n.length (.fragment n)).2
    | none => .ok none c.skipBlanks := by
  simp only [number, skip, run_bind, run_modify, run_get]
  cases number? c.skipBlanks.rest <;> rfl

theorem takeFragment_eq (x : Except Stray (Option (List Char))) : takeFragment x c = match x with
    | .ok (some w) => .ok (some (c.take w.length (.fragment w)).1)
        (c.take w.length (.fragment w)).2
    | .ok none => .ok none c
    | .error s => .error ⟨s.cause, c.spotAt s.position⟩ c := by
  rcases x with s | _ | w <;> rfl

theorem group_eq : group c = takeFragment (group? c.skipBlanks.rest) c.skipBlanks := rfl

theorem fragment_eq : fragment c = takeFragment (fragment? c.skipBlanks.rest) c.skipBlanks := rfl

theorem required_eq_ok {α : Type} {what : String} {r : Reader (Option α)} {a : α} {d : Cursor} :
    required what r c = .ok a d ↔ r c = .ok (some a) d := by
  rw [required, run_bind_eq_ok]
  constructor
  · rintro ⟨o, e, ho, he⟩
    cases o with
    | none => exact absurd he (by simp [refuse, run_bind, atEnd_eq])
    | some b =>
      cases he
      exact ho
  · intro h
    exact ⟨some a, d, h, rfl⟩

/-- The rounds of a repetition, from a cursor to the one where it stops. -/
inductive Rounds {α : Type} (r : Reader (Option α)) : Cursor → List α → Cursor → Prop
  | nil {c d : Cursor} (h : r c = .ok none d) : Rounds r c [] d
  | cons {c d e : Cursor} {a : α} {as : List α} (h : r c = .ok (some a) d)
    (hlt : d.rest.length < c.rest.length) (hr : Rounds r d as e) : Rounds r c (a :: as) e
  | stall {c d : Cursor} {a : α} (h : r c = .ok (some a) d)
    (hlt : ¬d.rest.length < c.rest.length) : Rounds r c [a] d

theorem rounds_of_many {α : Type} {r : Reader (Option α)} {as : List α} {d : Cursor}
    (h : many r c = .ok as d) : Rounds r c as d := by
  have hround : ∀ {c e : Cursor} {x : Round α}, (Round.ofOption <$> r) c = .ok x e →
      (x = .stop ∧ r c = .ok none e) ∨ ∃ a, x = .more a ∧ r c = .ok (some a) e := by
    intro c e x hx
    obtain ⟨o, ho, rfl⟩ := run_map_eq_ok.mp hx
    cases o with
    | none => exact .inl ⟨rfl, ho⟩
    | some a => exact .inr ⟨a, rfl, ho⟩
  unfold many at h
  fun_induction repeated (fun c : Cursor => c.rest.length) (Round.ofOption <$> r) c generalizing as d
  case case1 => cases h
  case case2 c e hr =>
    cases h
    obtain ⟨-, hn⟩ | ⟨a, ha, -⟩ := hround hr
    · exact .nil hn
    · cases ha
  case case3 c a e hr =>
    obtain ⟨ha, -⟩ | ⟨b, ha, -⟩ := hround hr <;> cases ha
  case case4 => cases h
  case case5 c a e hr hlt as' e' hrec ih =>
    cases h
    obtain ⟨ha, -⟩ | ⟨b, ha, hb⟩ := hround hr
    · cases ha
    · cases ha
      exact .cons hb hlt (ih hrec)
  case case6 c a e hr hlt =>
    cases h
    obtain ⟨ha, -⟩ | ⟨b, ha, hb⟩ := hround hr
    · cases ha
    · cases ha
      exact .stall hb hlt

theorem many_of_none {α : Type} {r : Reader (Option α)} {d : Cursor} (h : r c = .ok none d) :
    many r c = .ok [] d := by
  refine repeated_of_stop ?_
  rw [run_map, h]
  rfl

theorem many_of_error {α : Type} {r : Reader (Option α)} {f : Fault} {d : Cursor}
    (h : r c = .error f d) : many r c = .error f d := by
  refine repeated_of_error ?_
  rw [run_map, h]

/-- A part that takes something is followed by the others. -/
theorem many_of_more {α : Type} {r : Reader (Option α)} {d : Cursor} {a : α}
    (h : r c = .ok (some a) d) (hlt : d.rest.length < c.rest.length) :
    many r c = (List.cons a <$> many r) d := by
  refine repeated_of_more ?_ hlt
  rw [run_map, h]
  rfl

theorem many_of_some {α : Type} {r : Reader (Option α)} {d e : Cursor} {a : α} {as : List α}
    (h : r c = .ok (some a) d) (hlt : d.rest.length < c.rest.length) (hr : many r d = .ok as e) :
    many r c = .ok (a :: as) e := by
  rw [many_of_more h hlt, run_map, hr]

end Reader

/-- The fault of a script that goes on where `what` has to stand. -/
def Progress.refusal (p : Progress) (what : String) : Fault :=
  ⟨if p.isEnded then .ended what else .unexpected what p.next.found, p.next.place.wideSpot⟩

namespace Parser

variable {α : Type} {p : Progress} {tag : Tag} {reader : Reader α}

theorem refuse_next (what : String) : refuse (α := α) what p.next p = .error (p.refusal what) p := rfl

theorem peek_of_fault {cause : LayoutFault} (h : p.next.mark = .fault cause) :
    peek p = .error ⟨.layout cause, p.next.place.wideSpot⟩ p := by
  simp [peek, run_bind, h]

theorem peek_of_ne (h : p.next.tag ≠ .error) : peek p = .ok p.next p := by
  unfold LayoutToken.tag at h
  cases hm : p.next.mark <;> simp_all [peek, run_bind, LayoutMark.tag]

theorem advance_of_ne (h : p.next.tag ≠ .error) (he : p.next.tag ≠ .eof) :
    advance p = .ok p.next { p with rest := p.rest.tail } := by
  have hm : p.next.mark ≠ .eof := by
    intro hm
    simp [LayoutToken.tag, hm, LayoutMark.tag] at he
  simp [advance, run_bind, run_map, peek_of_ne h, hm]

theorem sees_of_ne (h : p.next.tag ≠ .error) (tags : List Tag) :
    sees tags p = .ok (tags.contains p.next.tag) p := by
  simp [sees, run_bind, peek_of_ne h]

theorem expect_of_eq (h : p.next.tag = tag) (ht : tag ≠ .error) (he : tag ≠ .eof) :
    expect tag p = .ok p.next { p with rest := p.rest.tail } := by
  subst h
  simp [expect, run_bind, peek_of_ne ht, advance_of_ne ht he]

theorem expect_of_ne (h : p.next.tag ≠ tag) (ht : p.next.tag ≠ .error) :
    expect tag p = .error (p.refusal tag.phrase) p := by
  simp [expect, run_bind, peek_of_ne ht, h, refuse_next]

theorem line_of_text {content : List Char} (h : p.next.mark = .text content) :
    line reader p = match reader (.ofContent content p.next.place) with
      | .ok a _ => .ok a { rest := p.rest.tail }
      | .error f c => .error f { rest := p.rest.tail, cursor := some c } := by
  have ht : p.next.tag ≠ .error := by simp [LayoutToken.tag, h, LayoutMark.tag]
  have he : p.next.tag ≠ .eof := by simp [LayoutToken.tag, h, LayoutMark.tag]
  simp only [line, beginLine, run_bind, peek_of_ne ht, h, advance_of_ne ht he, run_modify, run_pure]
  cases reader (.ofContent content p.next.place) <;> rfl

theorem line_of_ne (h : p.next.tag ≠ .text) (ht : p.next.tag ≠ .error) :
    line reader p = .error (p.refusal "a statement") p := by
  have hb : beginLine p = .error (p.refusal "a statement") p := by
    unfold LayoutToken.tag at h
    cases hm : p.next.mark <;>
      simp_all [beginLine, run_bind, peek_of_ne ht, refuse_next, LayoutMark.tag]
  simp [line, run_bind, hb]

theorem lookAhead_of_text {content : List Char} (h : p.next.mark = .text content) :
    lookAhead reader p = match reader (.ofContent content p.next.place) with
      | .ok a _ => .ok (some a) p
      | .error f _ => .error f p := by
  have ht : p.next.tag ≠ .error := by simp [LayoutToken.tag, h, LayoutMark.tag]
  simp only [lookAhead, peekLine, run_bind, peek_of_ne ht, h, run_pure]
  cases reader (.ofContent content p.next.place) <;> rfl

theorem lookAhead_of_ne (h : p.next.tag ≠ .text) (ht : p.next.tag ≠ .error) :
    lookAhead reader p = .ok none p := by
  unfold LayoutToken.tag at h
  cases hm : p.next.mark <;>
    simp_all [lookAhead, peekLine, run_bind, peek_of_ne ht, LayoutMark.tag]

end Parser

end NovelScript
