import NovelScript.Proofs.Composition

/-!
# Readers stay on their line

A reader moves its cursor forward within the content of one line and changes nothing else of it but
the lexeme read last, which it never forgets. If it fails, the fault is one of the line: it belongs
to the words or to the grammar of the line and lies between the cursor and the end of the content.
`Local` states this for one reader and is closed under the ways of putting readers together, so all
readers that are put together from elementary ones are local.
-/

namespace NovelScript

open Line

namespace Line.Cursor

/-- The cursor `d` is on the same line as `c` and not before it. -/
structure Leads (c d : Cursor) : Prop where
  content : d.content = c.content
  line : d.line = c.line
  column : d.column = c.column
  start : d.start = c.start
  pos_le : c.pos ≤ d.pos
  pos_le_length : c.pos ≤ c.content.length → d.pos ≤ c.content.length
  last : c.last.isSome → d.last.isSome

variable {c d e : Cursor}

theorem Leads.refl (c : Cursor) : c.Leads c := ⟨rfl, rfl, rfl, rfl, Nat.le_refl _, id, id⟩

theorem Leads.trans (h : c.Leads d) (h' : d.Leads e) : c.Leads e where
  content := h'.content.trans h.content
  line := h'.line.trans h.line
  column := h'.column.trans h.column
  start := h'.start.trans h.start
  pos_le := Nat.le_trans h.pos_le h'.pos_le
  pos_le_length hc := h.content ▸ h'.pos_le_length (h.content ▸ h.pos_le_length hc)
  last hc := h'.last (h.last hc)

/-- A cursor may return to where it came from. -/
theorem Leads.back (h : c.Leads d) : c.Leads { d with pos := c.pos } :=
  ⟨h.content, h.line, h.column, h.start, Nat.le_refl _, id, h.last⟩

theorem Leads.length_le (h : c.Leads d) : d.rest.length ≤ c.rest.length := by
  have hp := h.pos_le
  rw [rest, rest, List.length_drop, List.length_drop, h.content]
  omega

theorem leads_skipBlanks (c : Cursor) : c.Leads c.skipBlanks where
  content := rfl
  line := rfl
  column := rfl
  start := rfl
  pos_le := Nat.le_add_right _ _
  pos_le_length h := by
    have hl : (c.rest.takeWhile Text.isInline).length ≤ c.rest.length :=
      (List.takeWhile_prefix _).length_le
    simp only [rest, List.length_drop] at hl
    simp only [skipBlanks, rest]
    omega
  last := id

theorem leads_take {n : Nat} (word : Word) (h : n ≤ c.rest.length) : c.Leads (c.take n word).2 where
  content := rfl
  line := rfl
  column := rfl
  start := rfl
  pos_le := Nat.le_add_right _ _
  pos_le_length hc := by
    simp only [rest, List.length_drop] at h
    simp only [take]
    omega
  last _ := rfl

end Line.Cursor

/-- The fault is noticed on the line of the cursor, between the cursor and the end of the line. -/
structure Fault.LiesAhead (f : Fault) (c : Cursor) : Prop where
  faultClass : f.cause.faultClass = .lexical ∨ f.cause.faultClass = .grammar
  line : f.spot.line = c.line
  column : ∃ k : Nat, c.pos ≤ k ∧ (c.pos ≤ c.content.length → k ≤ c.content.length) ∧
    f.spot.column = c.column + k ∧ f.spot.offset = some (c.start + k)

theorem Fault.LiesAhead.of_leads {f : Fault} {c d : Cursor} (h : f.LiesAhead d) (hc : c.Leads d) :
    f.LiesAhead c where
  faultClass := h.faultClass
  line := h.line.trans hc.line
  column := by
    obtain ⟨k, hk, hlen, hcol, hoff⟩ := h.column
    rw [hc.content] at hlen
    rw [hc.column] at hcol
    rw [hc.start] at hoff
    exact ⟨k, Nat.le_trans hc.pos_le hk, fun hl => hlen (hc.pos_le_length hl), hcol, hoff⟩

namespace Reader

/-- What a reader comes to is on the line of the cursor it started from. -/
def Stays {α : Type} (c : Cursor) : EStateM.Result Fault Cursor α → Prop
  | .ok _ d => c.Leads d
  | .error f d => c.Leads d ∧ f.LiesAhead c

/-- The reader stays on the line of its cursor. -/
def Local {α : Type} (r : Reader α) : Prop := ∀ c, Stays c (r c)

variable {α β : Type} {r : Reader α} {f : α → Reader β} {c d : Cursor}

theorem Stays.bind (h : Stays c (r d)) (hf : ∀ a e, c.Leads e → Stays c (f a e)) :
    Stays c ((r >>= f) d) := by
  rw [run_bind]
  cases hr : r d with
  | ok a e =>
    rw [hr] at h
    exact hf a e h
  | error g e =>
    rw [hr] at h
    exact h

namespace Local


theorem leads_of_ok (h : Local r) {a : α} (hr : r c = .ok a d) : c.Leads d := by
  have hc := h c
  rwa [hr] at hc

theorem liesAhead (h : Local r) {f : Fault} (hr : r c = .error f d) : f.LiesAhead c := by
  have hc := h c
  rw [hr] at hc
  exact hc.2

/-- A reader that stays on the line of a later cursor stays on the line of an earlier one. -/
theorem stays (h : Local r) (hc : c.Leads d) : Stays c (r d) := by
  have hd := h d
  cases hr : r d with
  | ok a e =>
    rw [hr] at hd
    exact hc.trans hd
  | error f e =>
    rw [hr] at hd
    exact ⟨hc.trans hd.1, hd.2.of_leads hc⟩

theorem pure (a : α) : Local (Pure.pure a : Reader α) := fun c => .refl c

theorem get : Local (MonadState.get : Reader Cursor) := fun c => .refl c

theorem bind (h : Local r) (hf : ∀ a, Local (f a)) : Local (r >>= f) :=
  fun c => Stays.bind (h c) fun a _ hd => (hf a).stays hd

theorem map {g : α → β} (h : Local r) : Local (g <$> r) := by
  intro c
  have hc := h c
  rw [run_map]
  cases hr : r c with
  | ok a d =>
    rw [hr] at hc
    exact hc
  | error e d =>
    rw [hr] at hc
    exact hc

theorem ite {p : Prop} [Decidable p] {s : Reader α} (h : p → Local r) (h' : ¬p → Local s) :
    Local (if p then r else s) := by
  by_cases hp : p
  · simpa only [hp, if_true] using h hp
  · simpa only [hp, if_false] using h' hp

theorem skip : Local Reader.skip := fun c => Cursor.leads_skipBlanks c

theorem char? : Local Reader.char? := bind get fun _ => pure _

theorem atEnd : Local Reader.atEnd :=
  bind skip fun _ => bind char? fun o => by cases o <;> exact pure _

end Local

end Reader

namespace Line

theorem Literal.le_length_of_body? {q : Char} {cs value : List Char} {n : Nat}
    (h : body? q cs = some (value, n)) : n ≤ cs.length := by
  fun_induction body? q cs generalizing value n with
  | case1 | case3 => simp at h
  | case2 | case4 =>
    simp only [Option.some.injEq, Prod.mk.injEq] at h
    simp only [List.length_cons]
    omega
  | case5 e rest hq ih =>
    obtain ⟨⟨v, m⟩, hm, hv⟩ := Option.map_eq_some_iff.1 h
    simp only [Prod.mk.injEq] at hv
    have := ih hm
    simp only [List.length_cons]
    omega
  | case6 c e rest hc hb ih =>
    obtain ⟨⟨v, m⟩, hm, hv⟩ := Option.map_eq_some_iff.1 h
    simp only [Prod.mk.injEq] at hv
    have := ih hm
    simp only [List.length_cons] at this ⊢
    omega

theorem Literal.le_length_of_bodyLength? {q : Char} {cs : List Char} {n : Nat}
    (h : bodyLength? q cs = some n) : n ≤ cs.length := by
  fun_induction bodyLength? q cs generalizing n with
  | case1 | case2 => simp at h
  | case3 _ cs ih =>
    obtain ⟨m, hm, rfl⟩ := Option.map_eq_some_iff.1 h
    have := ih hm
    simp only [List.length_cons]
    omega
  | case4 =>
    simp only [Option.some.injEq] at h
    simp only [List.length_cons]
    omega
  | case5 c cs _ _ _ ih =>
    obtain ⟨m, hm, rfl⟩ := Option.map_eq_some_iff.1 h
    have := ih hm
    simp only [List.length_cons]
    omega

/-- The search for an end looks at no more than the text it is given. -/
def Bounded (x : Except Stray Nat) (bound : Nat) : Prop :=
  match x with
  | .ok n => n ≤ bound
  | .error s => s.position ≤ bound ∧ s.cause.faultClass = .lexical

theorem Bounded.mono {x : Except Stray Nat} {m n : Nat} (h : Bounded x m) (hmn : m ≤ n) :
    Bounded x n := by
  cases x with
  | ok k => exact Nat.le_trans h hmn
  | error s => exact ⟨Nat.le_trans h.1 hmn, h.2⟩

theorem bounded_groupEnd (inner : Char) (outer : List Char) (n : Nat) (cs : List Char) :
    Bounded (groupEnd inner outer n cs) (n + cs.length) := by
  fun_induction groupEnd inner outer n cs with
  | case1 => exact ⟨Nat.zero_le _, rfl⟩
  | case2 | case5 => exact ⟨Nat.le_add_right _ _, rfl⟩
  | case3 inner outer n c cs hq k hb ih =>
    have := Literal.le_length_of_bodyLength? hb
    refine ih.mono ?_
    simp only [List.length_drop, List.length_cons]
    omega
  | case6 =>
    simp only [Bounded, List.length_cons]
    omega
  | case4 inner outer n c cs hq q hc ih
  | case7 inner n c cs hq hc hi hne q outer ih
  | case8 inner outer n c cs hq hc hi ih =>
    refine ih.mono ?_
    simp only [List.length_cons]
    omega

theorem bounded_fragmentEnd (depth n : Nat) (cs : List Char) :
    Bounded (fragmentEnd depth n cs) (n + cs.length) := by
  fun_induction fragmentEnd depth n cs with
  | case1 => exact Nat.le_refl _
  | case2 => exact ⟨Nat.le_add_right _ _, rfl⟩
  | case4 | case7 => exact Nat.le_add_right _ _
  | case3 depth n c cs hq k hb ih =>
    have := Literal.le_length_of_bodyLength? hb
    refine ih.mono ?_
    simp only [List.length_drop, List.length_cons]
    omega
  | case5 depth n c cs hq hh ho ih
  | case6 depth n c cs hq hh ho hc ih
  | case8 depth n c cs hq hh ho hc hd ih =>
    refine ih.mono ?_
    simp only [List.length_cons]
    omega

theorem length_le_of_name? {cs n : List Char} (h : name? cs = some n) : n.length ≤ cs.length := by
  cases cs with
  | nil => simp [name?] at h
  | cons c cs =>
    simp only [name?, Option.ite_none_right_eq_some, Option.some.injEq] at h
    rw [← h.2]
    exact (List.takeWhile_prefix _).length_le

theorem length_le_of_number? {cs n : List Char} (h : number? cs = some n) :
    n.length ≤ cs.length := by
  obtain ⟨k, -, rfl⟩ := Option.map_eq_some_iff.1 h
  exact List.length_take_le' _ _

/-- A fragment lies within the text it is looked for in, and so does the spot of a failure. -/
def FragmentBounded (x : Except Stray (Option (List Char))) (bound : Nat) : Prop :=
  match x with
  | .ok none => True
  | .ok (some w) => w.length ≤ bound
  | .error s => s.position ≤ bound ∧ s.cause.faultClass = .lexical

theorem fragmentBounded_group? (cs : List Char) : FragmentBounded (group? cs) cs.length := by
  unfold group?
  split
  · trivial
  · next c rest =>
    split
    · trivial
    · next q hq =>
      have h := bounded_groupEnd q [] 1 rest
      cases he : groupEnd q [] 1 rest with
      | ok n => exact List.length_take_le' _ _
      | error s =>
        rw [he] at h
        exact ⟨by simpa only [List.length_cons, Nat.add_comm] using h.1, h.2⟩

theorem length_trimEnd_le (cs : List Char) : (Text.trimEnd cs).length ≤ cs.length := by
  have h := (List.dropWhile_suffix Text.isBlank (l := cs.reverse)).length_le
  simpa only [Text.trimEnd, List.length_reverse] using h

theorem fragmentBounded_fragment? (cs : List Char) :
    FragmentBounded (fragment? cs) cs.length := by
  unfold fragment?
  have h := bounded_fragmentEnd 0 0 cs
  cases he : fragmentEnd 0 0 cs with
  | ok n =>
    simp only [Except.map]
    split
    · trivial
    · exact Nat.le_trans (length_trimEnd_le _) (List.length_take_le' _ _)
  | error s =>
    rw [he, Nat.zero_add] at h
    exact h

end Line

namespace Reader

namespace Local

variable {α : Type} {c d : Cursor}

theorem name : Local Reader.name := by
  intro c
  rw [name_eq]
  cases hn : name? c.skipBlanks.rest with
  | none => exact Cursor.leads_skipBlanks c
  | some n =>
    exact (Cursor.leads_skipBlanks c).trans (Cursor.leads_take _ (length_le_of_name? hn))

theorem keyword (k : List Char) : Local (Reader.keyword k) := by
  intro c
  rw [keyword_eq]
  by_cases hn : name? c.skipBlanks.rest = some k
  · simp only [hn, if_true]
    exact (Cursor.leads_skipBlanks c).trans (Cursor.leads_take _ (length_le_of_name? hn))
  · simp only [hn, if_false]
    exact Cursor.leads_skipBlanks c

theorem punct {p : List Char} (hp : p ≠ []) : Local (Reader.punct p) := by
  intro c
  rw [punct_eq hp]
  by_cases hs : startsWith p c.skipBlanks.rest
  · simp only [hs, if_true]
    simp only [startsWith, Bool.and_eq_true, List.isPrefixOf_iff_prefix] at hs
    exact (Cursor.leads_skipBlanks c).trans (Cursor.leads_take _ hs.1.length_le)
  · simp only [hs]
    exact Cursor.leads_skipBlanks c

/-- A fault `n` characters ahead lies ahead. -/
theorem liesAhead_spotAt {cause : Cause} {n : Nat} (hn : n ≤ c.rest.length)
    (hc : cause.faultClass = .lexical ∨ cause.faultClass = .grammar) :
    Fault.LiesAhead ⟨cause, c.spotAt n⟩ c where
  faultClass := hc
  line := rfl
  column := by
    refine ⟨c.pos + n, Nat.le_add_right _ _, fun h => ?_, ?_, ?_⟩
    · simp only [Cursor.rest, List.length_drop] at hn
      omega
    · simp only [Cursor.spotAt, Int.natCast_add, Int.add_assoc]
    · simp only [Cursor.spotAt, Int.natCast_add, Int.add_assoc]

theorem string : Local Reader.string := by
  intro c
  have hc := Cursor.leads_skipBlanks c
  rw [string_eq]
  cases hr : c.skipBlanks.rest with
  | nil => exact hc
  | cons q rest =>
    simp only
    by_cases hq : isQuote q
    · simp only [hq, if_true]
      cases hb : Literal.body? q rest with
      | none =>
        exact ⟨hc, (liesAhead_spotAt (Nat.zero_le _) (.inl rfl)).of_leads hc⟩
      | some x =>
        have hn := Literal.le_length_of_body? hb
        refine hc.trans (Cursor.leads_take _ ?_)
        rw [hr, List.length_cons]
        omega
    · simp only [hq]
      exact hc

theorem number : Local Reader.number := by
  intro c
  rw [number_eq]
  cases hn : number? c.skipBlanks.rest with
  | none => exact Cursor.leads_skipBlanks c
  | some n =>
    exact (Cursor.leads_skipBlanks c).trans (Cursor.leads_take _ (length_le_of_number? hn))

theorem takeFragment {x : Except Stray (Option (List Char))}
    (h : FragmentBounded x c.rest.length) : Stays c (Reader.takeFragment x c) := by
  rw [takeFragment_eq]
  rcases x with s | _ | w
  · exact ⟨.refl c, liesAhead_spotAt h.1 (.inl h.2)⟩
  · exact .refl c
  · exact Cursor.leads_take _ h

theorem group : Local Reader.group := by
  refine bind skip fun _ c => ?_
  rw [run_bind_of_ok run_get]
  exact takeFragment (fragmentBounded_group? c.rest)

theorem fragment : Local Reader.fragment := by
  refine bind skip fun _ c => ?_
  rw [run_bind_of_ok run_get]
  exact takeFragment (fragmentBounded_fragment? c.rest)

/-! The words and expressions of a line. -/

theorem refuse (what : String) : Local (Reader.refuse what : Reader α) := by
  refine bind atEnd fun _ c => ⟨.refl c, .inr rfl, rfl, c.pos, Nat.le_refl _, id, rfl, rfl⟩

theorem required {what : String} {r : Reader (Option α)} (h : Local r) :
    Local (Reader.required what r) :=
  bind h fun o => by
    cases o with
    | none => exact refuse what
    | some a => exact pure a

theorem many {r : Reader (Option α)} (h : Local r) : Local (Reader.many r) := by
  intro c
  unfold Reader.many
  have hround : Local (Round.ofOption <$> r) := map h
  fun_induction repeated (fun c : Cursor => c.rest.length) (Round.ofOption <$> r) c with
  | case1 c e d hr =>
    have hc := hround c
    rw [hr] at hc
    exact hc
  | case2 c d hr | case3 c a d hr | case6 c a d hr => exact hround.leads_of_ok hr
  | case4 c a d hr hlt e d' hrec ih =>
    rw [hrec] at ih
    have hc := hround.leads_of_ok hr
    exact ⟨hc.trans ih.1, ih.2.of_leads hc⟩
  | case5 c a d hr hlt as d' hrec ih =>
    rw [hrec] at ih
    exact (hround.leads_of_ok hr).trans ih

end Local

theorem Composed.isLocal {r : Reader α} (h : Composed r) : Local r := by
  induction h with
  | pure a => exact .pure a
  | get => exact .get
  | skip => exact .skip
  | name => exact .name
  | keyword k => exact .keyword k
  | punct _ => exact .punct (List.cons_ne_nil _ _)
  | string => exact .string
  | number => exact .number
  | group => exact .group
  | fragment => exact .fragment
  | refuse what => exact .refuse what
  | bind _ _ ih ihf => exact ih.bind ihf
  | map _ _ ih => exact ih.map
  | many _ ih => exact ih.many

namespace Local

theorem imageSpec : Local Reader.imageSpec := Composed.imageSpec.isLocal

theorem transition? : Local Reader.transition? := Composed.transition?.isLocal

theorem sceneImage? : Local Reader.sceneImage? := Composed.sceneImage?.isLocal

/-! Spoken lines, whose readers return to where they started when they find nothing. -/

theorem sayAttribute? : Local Reader.sayAttribute? := by
  intro c
  unfold Reader.sayAttribute?
  rw [run_bind_of_ok run_get]
  refine Stays.bind (punct (by simp) c) fun minus d hd => ?_
  refine Stays.bind (name.stays hd) fun n e he => ?_
  cases n with
  | none => exact he.back
  | some n => exact he

theorem temporaryAttributes : Local Reader.temporaryAttributes := by
  intro c
  unfold Reader.temporaryAttributes
  rw [run_bind_of_ok run_get]
  refine Stays.bind (punct (by simp) c) fun at? d hd => ?_
  cases at? with
  | none => exact hd
  | some _ =>
    refine Stays.bind ((many sayAttribute?).stays hd) fun attributes e he => ?_
    by_cases h : attributes.isEmpty
    · simp only [h, if_true]
      exact he.back
    · simp only [h]
      exact he

theorem say? : Local Reader.say? := by
  intro c
  unfold Reader.say?
  rw [run_bind_of_ok run_get]
  refine Stays.bind (string c) fun what d hd => ?_
  cases what with
  | some what =>
    refine Stays.bind (atEnd.stays hd) fun ended e he => ?_
    by_cases h : ended
    · simp only [h, if_true]
      exact he
    · simp only [h]
      exact he.back
  | none =>
    refine Stays.bind (name.stays hd) fun who e he => ?_
    cases who with
    | none => exact he
    | some who =>
      refine Stays.bind ((many sayAttribute?).stays he) fun attributes e he => ?_
      refine Stays.bind (temporaryAttributes.stays he) fun temporary e he => ?_
      refine Stays.bind (string.stays he) fun what e he => ?_
      cases what with
      | none => exact he.back
      | some what =>
        refine Stays.bind (atEnd.stays he) fun ended e he => ?_
        by_cases h : ended
        · simp only [h, if_true]
          exact he
        · simp only [h]
          exact he.back

/-! Heads of lines that may be spoken. -/

theorem head : Local Reader.head :=
  bind say? fun line => by
    cases line with
    | some line => exact ((Composed.endOfLine _).bind fun _ => .pure _).isLocal
    | none => exact Composed.keyedHead.isLocal

theorem captionHead : Local Reader.captionHead :=
  bind say? fun _ => ((Composed.endOfLine _).bind fun _ => .pure _).isLocal

theorem startsClause (k : String) : Local (Reader.startsClause k) :=
  bind Composed.peekName.isLocal fun _ =>
    ite (fun _ => bind say? fun _ => pure _) fun _ => pure _

end Local

end Reader

end NovelScript
