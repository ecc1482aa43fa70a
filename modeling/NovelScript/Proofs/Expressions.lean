import NovelScript.Proofs.Retelling

/-!
# Expressions that stand for themselves

An expression is kept as it is written, and so is a name with dots or a label name but for the
blanks around its dot. Before the end, a space or a colon each of them is found again in its own
text. A reference is told by the places of its first and last lexeme, so `Took` keeps track of what
was taken between two cursors.
-/

namespace NovelScript

open Line Text

namespace Line.Cursor

variable {c d e : Cursor} {p q r w : List Char} {x : Char}

/-- From `c` to `d` the text `p` was taken and nothing else. -/
structure Took (c : Cursor) (p : List Char) (d : Cursor) : Prop where
  content : d.content = c.content
  start : d.start = c.start
  pos : d.pos = c.pos + p.length
  rest : c.rest = p ++ d.rest

theorem Took.refl (c : Cursor) : c.Took [] c := ⟨rfl, rfl, rfl, rfl⟩

theorem Took.trans (h : c.Took p d) (h' : d.Took q e) : c.Took (p ++ q) e where
  content := h'.content.trans h.content
  start := h'.start.trans h.start
  pos := by rw [h'.pos, h.pos, List.length_append, Nat.add_assoc]
  rest := by rw [h.rest, h'.rest, List.append_assoc]

/-- The lexeme is what was taken between the cursors. -/
structure Takes (c : Cursor) (w : List Char) (l : Lexeme) (d : Cursor) : Prop where
  took : c.Took w d
  first : l.place.start = c.start + c.pos
  last : l.place.stop = d.start + d.pos

theorem takes_take (h : c.rest = w ++ r) (word : Word) :
    c.Takes w (c.take w.length word).1 (c.take w.length word).2 ∧
      (c.take w.length word).2.rest = r := by
  have hr : (c.take w.length word).2.rest = r := by rw [rest_take, h, List.drop_left]
  refine ⟨⟨⟨rfl, rfl, rfl, by rw [hr, h]⟩, rfl, ?_⟩, hr⟩
  simp only [take, ahead, Int.natCast_add, Int.add_assoc]

theorem skipBlanks_eq_self (h : c.rest.head? = some x) (hx : isInline x = false) :
    c.skipBlanks = c := by
  have hnil : c.rest.takeWhile isInline = [] := by
    refine takeWhile_eq_nil_of_head? fun y hy => ?_
    rw [h] at hy
    cases hy
    exact hx
  rw [skipBlanks, hnil]
  rfl

/-- The text of the line from one lexeme to another, both included. -/
def textBetween (c : Cursor) (first last : Lexeme) : List Char :=
  (c.content.drop (first.place.start - c.start).toNat).take
    (last.place.stop - first.place.start).toNat

/-- The text between two lexemes is what was taken. -/
theorem Took.text_eq (h : c.Took p d) {first last : Lexeme}
    (hf : first.place.start = c.start + c.pos) (hl : last.place.stop = d.start + d.pos) :
    d.textBetween first last = p := by
  have hdrop : (first.place.start - d.start).toNat = c.pos := by
    rw [hf, h.start]
    omega
  have htake : (last.place.stop - first.place.start).toNat = p.length := by
    rw [hf, hl, h.start, h.pos]
    omega
  have hrest : d.content.drop c.pos = p ++ d.rest := by
    rw [h.content, ← h.rest]
    rfl
  rw [textBetween, hdrop, htake, hrest, List.take_left]

end Line.Cursor

namespace Reader

variable {c d e : Cursor} {l : Lexeme} {p r s t w : List Char} {x : Char} {e₀ : Expression}

/-! Names and members. -/

/-- No name goes on at the start of the text. -/
def Unnamed (t : List Char) : Prop := ∀ x, t.head? = some x → isNameChar x = false

theorem takes_of_name (h : name c = .ok (some l) d) :
    IsName l.value ∧ c.skipBlanks.Takes l.value l d ∧ Unnamed d.rest := by
  rw [name_eq] at h
  cases hn : name? c.skipBlanks.rest with
  | none => simp [hn] at h
  | some w =>
    simp only [hn] at h
    cases h
    obtain ⟨hw, r, hr, hx⟩ := split_of_name? hn
    obtain ⟨ht, hd⟩ := Cursor.takes_take hr (.name w)
    exact ⟨hw, ht, by rw [Unnamed, hd]; exact hx⟩

theorem name_of_rest (hw : IsName w) (hr : c.skipBlanks.rest = w ++ t) (ht : Unnamed t) :
    ∃ l d, name c = .ok (some l) d ∧ l.value = w ∧ c.skipBlanks.Takes w l d ∧ d.rest = t := by
  obtain ⟨htakes, hd⟩ := Cursor.takes_take hr (.name w)
  refine ⟨_, _, ?_, rfl, htakes, hd⟩
  rw [name_eq, hr, hw.name?_append ht]

theorem head_of_isName (hw : IsName w) : ∃ x, (w ++ t).head? = some x ∧ isNameStart x := by
  obtain ⟨x, w', rfl, hx, -⟩ := hw.exists_cons
  exact ⟨x, rfl, hx⟩

theorem isInline_of_name (h : isNameChar x) : isInline x = false := by
  by_contra hi
  simp only [isInline, Bool.not_eq_false, Bool.or_eq_true, beq_iff_eq] at hi
  obtain ((rfl | rfl) | rfl) | rfl := hi <;> exact absurd h (by decide)

/-- The text goes on with a dot and a name. -/
def HasMember (t : List Char) : Prop := ∃ n r, IsName n ∧ t = '.' :: (n ++ r) ∧ Unnamed r

theorem not_hasMember_of_parted (h : Parted t) : ¬HasMember t := by
  rintro ⟨n, r, -, rfl, -⟩
  obtain h | h := h '.' rfl <;> cases h

theorem member_of_rest (hw : IsName w) (hr : c.rest = '.' :: (w ++ t)) (ht : Unnamed t) :
    ∃ l d, member c = .ok (some l) d ∧ l.value = w ∧ c.Took ('.' :: w) d ∧
      l.place.stop = d.start + d.pos ∧ d.rest = t := by
  have hskip : c.skipBlanks = c := Cursor.skipBlanks_eq_self (by rw [hr]; rfl) (by decide)
  obtain ⟨hdot, hd⟩ := Cursor.takes_take (w := ['.']) (r := w ++ t) hr (.punct ['.'])
  obtain ⟨x, hx, hstart⟩ := head_of_isName (t := t) hw
  have hskip' : (c.take 1 (.punct ['.'])).2.skipBlanks = (c.take 1 (.punct ['.'])).2 :=
    Cursor.skipBlanks_eq_self (by rw [← hx, ← hd]; rfl) (isInline_of_start hstart)
  obtain ⟨l, d, hn, hl, htakes, hdr⟩ := name_of_rest hw (by rw [hskip']; exact hd) ht
  rw [hskip'] at htakes
  have hp : punct ['.'] c = .ok (some (c.take 1 (.punct ['.'])).1) (c.take 1 (.punct ['.'])).2 := by
    rw [punct_eq (by simp), hskip, hr, if_pos (startsWith_singleton.mpr
      ⟨_, rfl, fun he => absurd he (by decide)⟩)]
    rfl
  refine ⟨l, d, ?_, hl, hdot.took.trans htakes.took, htakes.last, hdr⟩
  have hname : (name? (w ++ t)).isSome = true := by rw [hw.name?_append ht]; rfl
  unfold member
  rw [run_bind_of_ok run_get, hr]
  simp only [hname, if_true]
  rw [run_bind_of_ok hp]
  exact hn

theorem member_of_not (h : ¬HasMember c.rest) : member c = .ok none c := by
  rw [member, run_bind_of_ok run_get]
  generalize c.rest = cs at h
  split
  · next r =>
    cases hn : name? r with
    | none => rfl
    | some n =>
      obtain ⟨hw, r', rfl, hx⟩ := split_of_name? hn
      exact absurd ⟨n, r', hw, rfl, hx⟩ h
  · rfl

theorem hasMember_of_member (h : member c = .ok (some l) d) : ∃ t, IsName l.value ∧
    c.rest = '.' :: (l.value ++ t) ∧ c.Took ('.' :: l.value) d ∧
      l.place.stop = d.start + d.pos ∧ Unnamed d.rest := by
  by_cases hm : HasMember c.rest
  · obtain ⟨n, r, hn, hr, hx⟩ := hm
    obtain ⟨l', d', hl', rfl, ht, hs, rfl⟩ := member_of_rest hn hr hx
    rw [hl'] at h
    cases h
    exact ⟨_, hn, hr, ht, hs, hx⟩
  · rw [member_of_not hm] at h
    cases h

theorem not_of_member_none (h : member c = .ok none d) : d = c ∧ ¬HasMember c.rest := by
  by_cases hm : HasMember c.rest
  · obtain ⟨n, r, hn, hr, hx⟩ := hm
    obtain ⟨l', d', hl', -⟩ := member_of_rest hn hr hx
    rw [hl'] at h
    cases h
  · rw [member_of_not hm] at h
    cases h
    exact ⟨rfl, hm⟩

/-- Names with a dot before each. -/
def dotted (ns : List (List Char)) : List Char := ns.flatMap ('.' :: ·)

theorem dotted_cons (n : List Char) (ns : List (List Char)) :
    dotted (n :: ns) = '.' :: (n ++ dotted ns) := rfl

theorem unnamed_dotted (ns : List (List Char)) (ht : Unnamed t) : Unnamed (dotted ns ++ t) := by
  cases ns with
  | nil => exact ht
  | cons n ns =>
    rw [dotted_cons]
    rintro x ⟨⟩
    decide

/-- What the members after the lexeme `l` come to. -/
structure Members (c : Cursor) (l : Lexeme) (ms : List Lexeme) (d : Cursor) : Prop where
  names : ∀ m ∈ ms, IsName m.value
  took : c.Took (dotted (ms.map Lexeme.value)) d
  last : (ms.getLastD l).place.stop = d.start + d.pos

theorem members_of_rounds {ms : List Lexeme} (h : Rounds member c ms d) (hn : Unnamed c.rest)
    (hl : l.place.stop = c.start + c.pos) : Members c l ms d ∧ Unnamed d.rest := by
  induction h generalizing l with
  | nil h =>
    obtain ⟨rfl, -⟩ := not_of_member_none h
    exact ⟨⟨nofun, .refl _, hl⟩, hn⟩
  | @cons c d e m ms h hlt hr ih =>
    obtain ⟨t, hm, hrest, ht, hs, hu⟩ := hasMember_of_member h
    obtain ⟨hms, he⟩ := ih hu hs
    refine ⟨⟨?_, ?_, ?_⟩, he⟩
    · intro m' hm'
      obtain rfl | hm' := List.mem_cons.mp hm'
      · exact hm
      · exact hms.names m' hm'
    · exact ht.trans hms.took
    · rw [List.getLastD_cons]
      exact hms.last
  | @stall c d m h hlt =>
    obtain ⟨t, hm, hrest, ht, hs, hu⟩ := hasMember_of_member h
    rw [ht.rest, List.length_append, List.length_cons] at hlt
    exact absurd (by omega) hlt

theorem many_member_of_rest {ns : List (List Char)} (hns : ∀ n ∈ ns, IsName n)
    (hr : c.rest = dotted ns ++ t) (ht : Unnamed t) (hm : ¬HasMember t)
    (hl : l.place.stop = c.start + c.pos) : ∃ ms d, many member c = .ok ms d ∧
      ms.map Lexeme.value = ns ∧ Members c l ms d ∧ d.rest = t := by
  induction ns generalizing c l with
  | nil =>
    refine ⟨[], c, many_of_none (member_of_not ?_), rfl, ⟨nofun, .refl c, hl⟩, hr⟩
    rw [hr]
    exact hm
  | cons n ns ih =>
    rw [dotted_cons, List.cons_append, List.append_assoc] at hr
    obtain ⟨m, d, hmem, hv, htook, hs, hd⟩ :=
      member_of_rest (hns n List.mem_cons_self) hr (unnamed_dotted ns ht)
    obtain ⟨ms, e, hmany, hvs, hms, he⟩ := ih (fun n' hn' => hns n' (List.mem_cons_of_mem _ hn')) hd hs
    have hlt : d.rest.length < c.rest.length := by
      rw [htook.rest, List.length_append, List.length_cons]
      omega
    refine ⟨m :: ms, e, many_of_some hmem hlt hmany, by rw [List.map_cons, hv, hvs], ⟨?_, ?_, ?_⟩, he⟩
    · intro m' hm'
      obtain rfl | hm' := List.mem_cons.mp hm'
      · rw [hv]
        exact hns n List.mem_cons_self
      · exact hms.names m' hm'
    · subst hv
      exact htook.trans hms.took
    · rw [List.getLastD_cons]
      exact hms.last

/-- What a name and the members after it come to. -/
structure Chain (c : Cursor) (l : Lexeme) (ms : List Lexeme) (d : Cursor) : Prop where
  name : IsName l.value
  names : ∀ n ∈ ms.map Lexeme.value, IsName n
  took : c.skipBlanks.Took (l.value ++ dotted (ms.map Lexeme.value)) d
  first : l.place.start = c.skipBlanks.start + c.skipBlanks.pos
  last : (ms.getLastD l).place.stop = d.start + d.pos
  unnamed : Unnamed d.rest

theorem chain_of_many {ms : List Lexeme} (hl : name c = .ok (some l) d)
    (hms : many member d = .ok ms e) : Chain c l ms e := by
  obtain ⟨hname, htakes, hn⟩ := takes_of_name hl
  obtain ⟨hm, hn'⟩ := members_of_rounds (rounds_of_many hms) hn htakes.last
  refine ⟨hname, fun n hmem => ?_, htakes.took.trans hm.took, htakes.first, hm.last, hn'⟩
  obtain ⟨m, hm', rfl⟩ := List.mem_map.mp hmem
  exact hm.names m hm'

/-! References. -/

/-- The texts that are references, with the kind of each. -/
inductive IsReference : List Char → ExpressionKind → Prop
  | name {w : List Char} {ns : List (List Char)} (hw : IsName w) (hns : ∀ n ∈ ns, IsName n) :
    IsReference (w ++ dotted ns) .name
  | call {w g : List Char} {ns : List (List Char)} (hw : IsName w) (hns : ∀ n ∈ ns, IsName n)
    (hg : IsGroup g) : IsReference (w ++ dotted ns ++ g) .call

theorem IsReference.exists_cons {kind : ExpressionKind} (h : IsReference p kind) :
    ∃ y q, p = y :: q ∧ isNameStart y := by
  cases h with
  | name hw hns | call hw hns hg =>
    obtain ⟨y, w, rfl, hy, -⟩ := hw.exists_cons
    exact ⟨y, _, rfl, hy⟩

theorem takes_of_group (h : group c = .ok (some l) d) :
    IsGroup l.value ∧ c.skipBlanks.Takes l.value l d := by
  rw [group_eq, takeFragment_eq] at h
  split at h
  · next g hg =>
    cases h
    obtain ⟨hgroup, r, hr⟩ := split_of_group? hg
    exact ⟨hgroup, (Cursor.takes_take hr (.fragment g)).1⟩
  · cases h
  · cases h

theorem group_of_rest {g : List Char} (hg : IsGroup g) (hr : c.skipBlanks.rest = g ++ t) :
    ∃ l d, group c = .ok (some l) d ∧ l.value = g ∧ c.skipBlanks.Takes g l d ∧ d.rest = t := by
  obtain ⟨htakes, hd⟩ := Cursor.takes_take hr (.fragment g)
  refine ⟨_, _, ?_, rfl, htakes, hd⟩
  rw [group_eq, hr, hg.found t, takeFragment_eq]

/-- Whether a bracket group opens at the start of the text. -/
def opens (t : List Char) : Bool := t.head?.any fun x => (closer? x).isSome

theorem group_ne_none (h : opens c.rest) : group c ≠ .ok none d := by
  obtain ⟨x, t, hr⟩ : ∃ x t, c.rest = x :: t := by
    cases hr : c.rest with
    | nil => simp [opens, hr] at h
    | cons x t => exact ⟨x, t, rfl⟩
  have hx : (closer? x).isSome := by simpa [opens, hr] using h
  obtain ⟨q, hq⟩ := Option.isSome_iff_exists.mp hx
  have hskip : c.skipBlanks = c :=
    Cursor.skipBlanks_eq_self (by rw [hr]; rfl) (isInline_of_closer? hq)
  intro hn
  rw [group_eq, hskip, hr, group?, hq, takeFragment_eq] at hn
  cases he : groupEnd q [] 1 t with
  | error f => simp [he, Except.map] at hn
  | ok m => simp [he, Except.map] at hn

theorem not_opens_of_parted (h : Parted t) : opens t = false := by
  cases t with
  | nil => rfl
  | cons x t => obtain rfl | rfl := h x rfl <;> rfl

theorem skipBlanks_eq_of_opens (h : opens c.rest) : c.skipBlanks = c := by
  cases hr : c.rest with
  | nil => simp [opens, hr] at h
  | cons x t =>
    have hx : (closer? x).isSome := by simpa [opens, hr] using h
    obtain ⟨q, hq⟩ := Option.isSome_iff_exists.mp hx
    exact Cursor.skipBlanks_eq_self (by rw [hr]; rfl) (isInline_of_closer? hq)

/-- The ways in which a reference is read: names, or names with a bracket group right after them. -/
inductive ReferenceAt (c : Cursor) : Expression → Cursor → Prop
  | name {first : Lexeme} {ms : List Lexeme} {d e : Cursor}
    (hfirst : Reader.name c = .ok (some first) d) (hms : many member d = .ok ms e)
    (ho : ¬opens e.rest) : ReferenceAt c ⟨e.textBetween first (ms.getLastD first), .name,
      first.span.cover (ms.getLastD first).span⟩ e
  | call {first g : Lexeme} {ms : List Lexeme} {d e f : Cursor}
    (hfirst : Reader.name c = .ok (some first) d) (hms : many member d = .ok ms e)
    (ho : opens e.rest) (hg : group e = .ok (some g) f) :
    ReferenceAt c ⟨f.textBetween first g, .call, first.span.cover g.span⟩ f

theorem reference?_eq_some_iff : reference? c = .ok (some e₀) d ↔ ReferenceAt c e₀ d := by
  unfold reference?
  constructor
  · intro h
    obtain ⟨first?, d₁, hfirst, h⟩ := run_bind_eq_ok.mp h
    cases first? with
    | none => cases h
    | some first =>
      obtain ⟨ms, d₂, hms, h⟩ := run_bind_eq_ok.mp h
      rw [run_bind_of_ok char?_eq] at h
      split at h
      · next ho =>
        obtain ⟨g?, d₃, hg, h⟩ := run_bind_eq_ok.mp h
        cases g? with
        | none => exact absurd hg (group_ne_none ho)
        | some g =>
          cases h
          exact .call hfirst hms ho hg
      · next ho =>
        rw [run_bind_of_ok (run_pure _)] at h
        cases h
        exact .name hfirst hms ho
  · intro h
    cases h with
    | name hfirst hms ho =>
      rw [opens] at ho
      rw [run_bind_of_ok hfirst]
      simp only
      rw [run_bind_of_ok hms, run_bind_of_ok char?_eq, if_neg ho]
      rfl
    | call hfirst hms ho hg =>
      rw [opens] at ho
      rw [run_bind_of_ok hfirst]
      simp only
      rw [run_bind_of_ok hms, run_bind_of_ok char?_eq, if_pos ho, run_bind_of_ok hg]
      rfl

theorem split_of_reference? (h : reference? c = .ok (some e₀) d) :
    IsReference e₀.text e₀.kind ∧ c.skipBlanks.Took e₀.text d ∧ Apart e₀.text d.rest := by
  cases reference?_eq_some_iff.mp h with
  | name hfirst hms ho =>
    have hchain := chain_of_many hfirst hms
    rw [hchain.took.text_eq hchain.first hchain.last]
    exact ⟨.name hchain.name hchain.names, hchain.took, fun x y _ hy _ => hchain.unnamed y hy⟩
  | call hfirst hms ho hg =>
    have hchain := chain_of_many hfirst hms
    obtain ⟨hgroup, htakes⟩ := takes_of_group hg
    rw [skipBlanks_eq_of_opens ho] at htakes
    have htook := hchain.took.trans htakes.took
    rw [htook.text_eq hchain.first htakes.last]
    refine ⟨.call hchain.name hchain.names hgroup, htook, fun x y hx hy hname => ?_⟩
    obtain ⟨f, z, hf, hz⟩ := hgroup.last
    rw [hf, ← List.append_assoc, List.getLast?_concat] at hx
    cases hx
    rw [isNameChar_of_isCloser hz] at hname
    cases hname

theorem reference?_before {kind : ExpressionKind} (h : IsReference p kind) (ht : Parted t)
    (hb : c.Before (p ++ t)) :
    ∃ e d, reference? c = .ok (some e) d ∧ e.text = p ∧ e.kind = kind ∧ d.rest = t := by
  have hparts : ∃ w ns g, p = w ++ dotted ns ++ g ∧ IsName w ∧ (∀ n ∈ ns, IsName n) ∧
      ((g = [] ∧ kind = .name) ∨ (IsGroup g ∧ kind = .call)) := by
    cases h with
    | name hw hns => exact ⟨_, _, [], (List.append_nil _).symm, hw, hns, .inl ⟨rfl, rfl⟩⟩
    | call hw hns hg => exact ⟨_, _, _, rfl, hw, hns, .inr ⟨hg, rfl⟩⟩
  obtain ⟨w, ns, g, rfl, hw, hns, hg⟩ := hparts
  have hopen : Unnamed (g ++ t) ∧ ¬HasMember (g ++ t) ∧ (opens (g ++ t) ↔ kind = .call) := by
    obtain ⟨rfl, rfl⟩ | ⟨hg, rfl⟩ := hg
    · have hno := not_opens_of_parted ht
      exact ⟨fun x => ht.not_name, not_hasMember_of_parted ht, by simp [hno]⟩
    · obtain ⟨x, g, q, rfl, hq⟩ := hg.head
      refine ⟨?_, ?_, by simp [opens, hq]⟩
      · rintro y ⟨⟩
        unfold closer? at hq
        split at hq <;> first | rfl | cases hq
      · rintro ⟨n, r, -, he, -⟩
        obtain ⟨rfl, -⟩ := List.cons.inj he
        cases hq
  obtain ⟨hn, hm, ho⟩ := hopen
  obtain ⟨x, hx, hstart⟩ := head_of_isName (t := dotted ns ++ g ++ t) hw
  have hr : c.skipBlanks.rest = w ++ (dotted ns ++ (g ++ t)) := by
    rw [hb, List.append_assoc, List.append_assoc]
    obtain ⟨y, w', rfl, hy, -⟩ := hw.exists_cons
    exact dropWhile_of_not_inline (isInline_of_start hy) _
  obtain ⟨first, d₁, hfirst, -, htakes, hd₁⟩ := name_of_rest hw hr (unnamed_dotted ns hn)
  obtain ⟨ms, d₂, hmany, hvs, hms, hd₂⟩ :=
    many_member_of_rest (l := first) hns hd₁ hn hm htakes.last
  have htook := htakes.took.trans hms.took
  rw [hvs] at htook
  obtain ⟨rfl, rfl⟩ | ⟨hg, rfl⟩ := hg
  · have hno : ¬opens d₂.rest := by
      rw [hd₂]
      exact fun h => nomatch ho.mp h
    refine ⟨_, _, reference?_eq_some_iff.mpr (.name hfirst hmany hno), ?_, rfl, hd₂⟩
    rw [List.append_nil]
    exact htook.text_eq htakes.first hms.last
  · have hyes : opens d₂.rest := by
      rw [hd₂]
      exact ho.mpr rfl
    have hskip := skipBlanks_eq_of_opens hyes
    obtain ⟨l, d₃, hgr, -, hgt, hd₃⟩ := group_of_rest hg (by rw [hskip]; exact hd₂)
    rw [hskip] at hgt
    exact ⟨_, _, reference?_eq_some_iff.mpr (.call hfirst hmany hyes hgr),
      (htook.trans hgt.took).text_eq htakes.first hgt.last, rfl, hd₃⟩

/-! Simple expressions. -/

theorem shut_of_forall (h : ∀ x ∈ p, isInline x = false) : Shut p :=
  fun x hx => h x (List.mem_of_getLast? hx)

theorem shut_of_group {g : List Char} (hg : IsGroup g) : Shut (w ++ g) := by
  obtain ⟨f, z, rfl, hz⟩ := hg.last
  intro x hx
  rw [← List.append_assoc, List.getLast?_concat] at hx
  cases hx
  simp only [isCloser, Bool.or_eq_true, beq_iff_eq] at hz
  obtain (rfl | rfl) | rfl := hz <;> rfl

theorem apart_of_group {g : List Char} (hg : IsGroup g) (t : List Char) : Apart g t := by
  obtain ⟨f, z, rfl, hz⟩ := hg.last
  intro x y hx _ hname
  rw [List.getLast?_concat] at hx
  cases hx
  rw [isNameChar_of_isCloser hz] at hname
  cases hname

theorem mem_dotted {ns : List (List Char)} (hns : ∀ n ∈ ns, IsName n) (hx : x ∈ dotted ns) :
    x = '.' ∨ isNameChar x := by
  obtain ⟨n, hn, hx⟩ := List.mem_flatMap.mp hx
  obtain rfl | hx := List.mem_cons.mp hx
  · exact .inl rfl
  · exact .inr ((hns n hn).all_char x hx)

theorem mem_names {ns : List (List Char)} (hw : IsName w) (hns : ∀ n ∈ ns, IsName n)
    (hx : x ∈ w ++ dotted ns) : isQuote x = false ∧ isInline x = false := by
  have hname : isNameChar x → isQuote x = false ∧ isInline x = false := fun h =>
    ⟨isQuote_of_name h, isInline_of_name h⟩
  obtain hx | hx := List.mem_append.mp hx
  · exact hname (hw.all_char x hx)
  · obtain rfl | hx := mem_dotted hns hx
    · decide
    · exact hname hx

theorem whole_of_reference {kind : ExpressionKind} (h : IsReference p kind) : Whole p ∧ Shut p := by
  cases h with
  | name hw hns =>
    exact ⟨whole_of_forall fun x hx => (mem_names hw hns hx).1,
      shut_of_forall fun x hx => (mem_names hw hns hx).2⟩
  | call hw hns hg =>
    exact ⟨whole_append (whole_of_forall fun x hx => (mem_names hw hns hx).1) hg.whole,
      shut_of_group hg⟩

/-- A number starts with a digit, a sign or a point. -/
theorem exists_head_of_numeric {n : List Char} (h : Numeric n) : ∃ x n', n = x :: n' ∧
    isInline x = false ∧ isQuote x = false ∧ closer? x = none := by
  have hdigit : ∀ x, isDigit x → isInline x = false ∧ isQuote x = false ∧ closer? x = none := by
    intro x hx
    refine ⟨?_, isQuote_of_isDigit hx, ?_⟩
    · by_contra hi
      simp only [isInline, Bool.not_eq_false, Bool.or_eq_true, beq_iff_eq] at hi
      obtain ((rfl | rfl) | rfl) | rfl := hi <;> exact absurd hx (by decide)
    · unfold closer?
      split <;> first | rfl | exact absurd hx (by decide)
  cases h with
  | @whole s w hs hw hne =>
    obtain ⟨y, w, rfl⟩ := List.exists_cons_of_ne_nil hne
    obtain rfl | rfl | rfl := hs
    · exact ⟨y, w, rfl, hdigit y (hw y List.mem_cons_self)⟩
    · exact ⟨'+', y :: w, rfl, by decide⟩
    · exact ⟨'-', y :: w, rfl, by decide⟩
  | @decimal s w f hs hw hf hne =>
    obtain rfl | rfl | rfl := hs
    · cases w with
      | nil => exact ⟨'.', f, rfl, by decide⟩
      | cons y w => exact ⟨y, w ++ '.' :: f, rfl, hdigit y (hw y List.mem_cons_self)⟩
    · exact ⟨'+', w ++ '.' :: f, rfl, by decide⟩
    · exact ⟨'-', w ++ '.' :: f, rfl, by decide⟩

theorem isInline_of_numeric {n : List Char} (h : Numeric n) (hx : x ∈ n) : isInline x = false := by
  have hdigit : isDigit x → isInline x = false := by
    intro hd
    by_contra hi
    simp only [isInline, Bool.not_eq_false, Bool.or_eq_true, beq_iff_eq] at hi
    obtain ((rfl | rfl) | rfl) | rfl := hi <;> exact absurd hd (by decide)
  have hsign : ∀ {s : List Char}, IsSign s → x ∈ s → isInline x = false := by
    rintro s (rfl | rfl | rfl) hs
    · cases hs
    · rw [List.mem_singleton.mp hs]
      rfl
    · rw [List.mem_singleton.mp hs]
      rfl
  cases h with
  | whole hs hw hne =>
    obtain hx | hx := List.mem_append.mp hx
    · exact hsign hs hx
    · exact hdigit (hw x hx)
  | decimal hs hw hf hne =>
    simp only [List.mem_append, List.mem_cons] at hx
    obtain hx | hx | rfl | hx := hx
    · exact hsign hs hx
    · exact hdigit (hw x hx)
    · rfl
    · exact hdigit (hf x hx)

/-- No letter of a name is a digit of some script. -/
theorem isDigit_of_start (hx : isNameStart x) : isDigit x = false := by
  have hzeros : ∀ z ∈ digitZeros, z = 0x30 ∨ 123 ≤ z := by decide
  have hrange : 65 ≤ x.toNat ∧ x.toNat ≤ 122 := by
    change (decide (65 ≤ x.val ∧ x.val ≤ 90) ||
      decide (97 ≤ x.val) && decide (x.val ≤ 122) || x == '_') = true at hx
    simp only [Bool.or_eq_true, Bool.and_eq_true, decide_eq_true_eq, beq_iff_eq,
      UInt32.le_iff_toNat_le] at hx
    change 65 ≤ x.val.toNat ∧ x.val.toNat ≤ 122
    obtain (hx | hx) | rfl := hx
    · exact ⟨hx.1, Nat.le_trans hx.2 (by decide)⟩
    · exact ⟨Nat.le_trans (by decide) hx.1, hx.2⟩
    · decide
  rw [isDigit, List.any_eq_false]
  intro z hz
  simp only [Bool.and_eq_true, decide_eq_true_eq, not_and, Nat.not_lt]
  have := hzeros z hz
  omega

/-- No number starts like a name. -/
theorem number?_eq_none (hx : isNameStart x) : number? (x :: t) = none := by
  have hsign : x ≠ '+' ∧ x ≠ '-' ∧ x ≠ '.' := by
    refine ⟨?_, ?_, ?_⟩ <;> rintro rfl <;> exact absurd hx (by decide)
  have hd := isDigit_of_start hx
  have hb := numberBounds_append (s := []) (w := []) (r := x :: t) (.inl rfl)
    (by rintro - y ⟨⟩; exact ⟨hsign.1, hsign.2.1⟩) nofun (by rintro y ⟨⟩; exact hd)
  rw [boundsBefore_of_ne (by rintro rest ⟨⟩; exact hsign.2.2 rfl)] at hb
  exact (number?_of_bounds hb).trans rfl

/-- An expression that differs in its span alone was found. -/
def SameExpression (e : Expression) (o : Option Expression) : Prop :=
  ∃ e', o = some e' ∧ e'.bare = e.bare

theorem bare_expression {e e' : Expression} (ht : e'.text = e.text) (hk : e'.kind = e.kind) :
    e'.bare = e.bare := by
  rw [Expression.bare, Expression.bare, ht, hk]

theorem simpleExpression?_of_string {o : Lexeme} (h : string c = .ok (some o) d) :
    simpleExpression? c = .ok (some ⟨o.word.raw?.getD [], .string, o.span⟩) d :=
  run_bind_of_ok h

theorem simpleExpression?_of_group {o : Lexeme} (hs : string c = .ok none e)
    (h : group e = .ok (some o) d) :
    simpleExpression? c = .ok (some ⟨o.value, .group, o.span⟩) d :=
  (run_bind_of_ok hs).trans (run_bind_of_ok h)

theorem simpleExpression?_of_number {o : Lexeme} {g : Cursor} (hs : string c = .ok none e)
    (hg : group e = .ok none g) (h : number g = .ok (some o) d) :
    simpleExpression? c = .ok (some ⟨o.value, .number, o.span⟩) d :=
  (run_bind_of_ok hs).trans ((run_bind_of_ok hg).trans (run_bind_of_ok h))

theorem simpleExpression?_of_reference {o : Option Expression} {g n : Cursor}
    (hs : string c = .ok none e) (hg : group e = .ok none g) (hn : number g = .ok none n)
    (h : reference? n = .ok o d) : simpleExpression? c = .ok o d :=
  (run_bind_of_ok hs).trans ((run_bind_of_ok hg).trans ((run_bind_of_ok hn).trans h))

/-- The ways in which a simple expression is found. -/
theorem simpleExpression?_cases (h : simpleExpression? c = .ok (some e₀) d) :
    (∃ l, string c = .ok (some l) d ∧ e₀ = ⟨(literalOf l).raw, .string, l.span⟩) ∨
    (∃ l, group c.skipBlanks = .ok (some l) d ∧ e₀ = ⟨l.value, .group, l.span⟩) ∨
    (∃ l, number c.skipBlanks = .ok (some l) d ∧ e₀ = ⟨l.value, .number, l.span⟩) ∨
    reference? c.skipBlanks = .ok (some e₀) d := by
  have hnone : ∀ {c d : Cursor}, group c = .ok none d → d = c.skipBlanks := by
    intro c d hg
    rw [group_eq, takeFragment_eq] at hg
    split at hg <;> cases hg
    rfl
  have hnone' : ∀ {c d : Cursor}, number c = .ok none d → d = c.skipBlanks := by
    intro c d hn
    rw [number_eq] at hn
    split at hn <;> cases hn
    rfl
  obtain ⟨s?, d₁, hs, h⟩ := run_bind_eq_ok.mp h
  cases s? with
  | some l =>
    cases h
    exact .inl ⟨l, hs, rfl⟩
  | none =>
    obtain rfl := eq_skipBlanks_of_string hs
    obtain ⟨g?, d₂, hg, h⟩ := run_bind_eq_ok.mp h
    cases g? with
    | some l =>
      cases h
      exact .inr (.inl ⟨l, hg, rfl⟩)
    | none =>
      obtain rfl := hnone hg
      rw [Cursor.skipBlanks_idem] at h
      obtain ⟨n?, d₃, hn, h⟩ := run_bind_eq_ok.mp h
      cases n? with
      | some l =>
        cases h
        exact .inr (.inr (.inl ⟨l, hn, rfl⟩))
      | none =>
        obtain rfl := hnone' hn
        rw [Cursor.skipBlanks_idem] at h
        exact .inr (.inr (.inr h))

theorem retold_string_expression (h : string c = .ok (some l) d) : (literalOf l).raw ≠ [] ∧
    Retold simpleExpression? c.rest d.rest (literalOf l).raw Parted
      (SameExpression ⟨(literalOf l).raw, .string, l.span⟩) := by
  obtain ⟨hne, hret⟩ := retold_string h
  refine ⟨hne, fun c' t ht hb => ?_, fun t _ => hret.alike t trivial⟩
  obtain ⟨o, d', hs', ⟨l', rfl, hl'⟩, hd⟩ := hret.reads c' t trivial hb
  refine ⟨_, d', simpleExpression?_of_string hs', ⟨_, rfl, bare_expression ?_ rfl⟩, hd⟩
  rw [literalOf, hl']

theorem retold_group_expression (h : group c = .ok (some l) d) : l.value ≠ [] ∧
    Retold simpleExpression? c.rest d.rest l.value Parted
      (SameExpression ⟨l.value, .group, l.span⟩) := by
  obtain ⟨hgroup, htakes⟩ := takes_of_group h
  obtain ⟨x, g, q, hx, hq⟩ := hgroup.head
  have hi := isInline_of_closer? hq
  refine ⟨by simp [hx], fun c' t ht hb => ?_, fun t ht => ?_⟩
  · have hb' := Before.rest_eq hb (x := x) (by rw [hx]; rfl) hi
    obtain ⟨l', d', hg', hl', -, hd⟩ :=
      group_of_rest (c := c'.skipBlanks) hgroup (by rw [Cursor.skipBlanks_idem]; exact hb')
    exact ⟨_, d', simpleExpression?_of_group (no_string_before hb (by rw [hx]; rfl) hi
      (isQuote_of_closer? hq)) hg', ⟨_, rfl, bare_expression hl' rfl⟩, before_of_rest hd⟩
  · exact alike_of_whole htakes.took.rest hgroup.whole (shut_of_group (w := []) hgroup)
      (apart_of_group hgroup _) ht

theorem retold_number_expression (h : number c = .ok (some l) d) : l.value ≠ [] ∧
    Retold simpleExpression? c.rest d.rest l.value Parted
      (SameExpression ⟨l.value, .number, l.span⟩) := by
  obtain ⟨n, hl, hnum, hr, hx⟩ := split_of_number h
  have hv : l.value = n := by rw [Lexeme.value, hl]; rfl
  obtain ⟨y, n', hy, hi, hq, hc⟩ := exists_head_of_numeric hnum
  rw [hv]
  refine ⟨by simp [hy], fun c' t ht hb => ?_, fun t ht => ?_⟩
  · have hb' := Before.rest_eq hb (x := y) (by rw [hy]; rfl) hi
    have hs' := no_string_before hb (x := y) (by rw [hy]; rfl) hi hq
    have hg' := no_group_before (before_skipBlanks.mpr hb) (x := y) (by rw [hy]; rfl) hi hc
    rw [Cursor.skipBlanks_idem] at hg'
    have hn' : number c'.skipBlanks = .ok (some (c'.skipBlanks.take n.length (.fragment n)).1)
        (c'.skipBlanks.take n.length (.fragment n)).2 := by
      rw [number_eq, Cursor.skipBlanks_idem, hb', hnum.number?_append ht]
    exact ⟨_, _, simpleExpression?_of_number hs' hg' hn', ⟨_, rfl, bare_expression rfl rfl⟩,
      before_of_rest (rest_take_of_append hb' _)⟩
  · exact alike_of_whole hr hnum.whole_text (shut_of_forall fun z hz => isInline_of_numeric hnum hz)
      (fun z y _ hy _ => hx y hy) ht

theorem retold_reference_expression (h : reference? c = .ok (some e₀) d) : e₀.text ≠ [] ∧
    Retold simpleExpression? c.rest d.rest e₀.text Parted (SameExpression e₀) := by
  obtain ⟨href, htook, hapart⟩ := split_of_reference? h
  obtain ⟨hwhole, hshut⟩ := whole_of_reference href
  obtain ⟨y, p, hy, hstart⟩ := href.exists_cons
  have hi := isInline_of_start hstart
  refine ⟨by simp [hy], fun c' t ht hb => ?_, fun t ht => ?_⟩
  · have hb' := Before.rest_eq hb (x := y) (by rw [hy]; rfl) hi
    have hs' := no_string_before hb (x := y) (by rw [hy]; rfl) hi
      (isQuote_of_name (isNameChar_of_start hstart))
    have hc : closer? y = none := by
      unfold closer?
      split <;> first | rfl | exact absurd hstart (by decide)
    have hg' := no_group_before (before_skipBlanks.mpr hb) (x := y) (by rw [hy]; rfl) hi hc
    rw [Cursor.skipBlanks_idem] at hg'
    have hn' : number c'.skipBlanks = .ok none c'.skipBlanks := by
      rw [number_eq, Cursor.skipBlanks_idem, hb', hy, List.cons_append, number?_eq_none hstart]
    obtain ⟨e', d', hr', htext, hkind, hd⟩ :=
      reference?_before href ht (before_skipBlanks.mpr hb)
    exact ⟨_, d', simpleExpression?_of_reference hs' hg' hn' hr',
      ⟨e', rfl, bare_expression htext hkind⟩, before_of_rest hd⟩
  · exact alike_of_whole htook.rest hwhole hshut hapart ht

/-- A simple expression is found again in its text, whichever way it was found. -/
theorem retold_simpleExpression? (h : simpleExpression? c = .ok (some e₀) d) :
    e₀.text ≠ [] ∧
      Retold simpleExpression? c.rest d.rest e₀.text Parted (SameExpression e₀) := by
  obtain ⟨l, hs, rfl⟩ | ⟨l, hg, rfl⟩ | ⟨l, hn, rfl⟩ | hr := simpleExpression?_cases h
  · exact retold_string_expression hs
  · obtain ⟨hne, hret⟩ := retold_group_expression hg
    exact ⟨hne, hret.of_skipBlanks⟩
  · obtain ⟨hne, hret⟩ := retold_number_expression hn
    exact ⟨hne, hret.of_skipBlanks⟩
  · obtain ⟨hne, hret⟩ := retold_reference_expression hr
    exact ⟨hne, hret.of_skipBlanks⟩

end Reader

end NovelScript
