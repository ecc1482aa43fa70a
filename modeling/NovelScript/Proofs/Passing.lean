import NovelScript.Proofs.Images
import NovelScript.Proofs.Positions

/-!
# What a cursor passes

Between two positions of a line lie blanks and stretches, each stretch with its place. A reader that
succeeds takes its cursor over such a run, and what it finds says which stretches these are.
`Spells` states this for one reader and is closed under the ways of putting readers together. The
stretches of a run come in the order of the line, so their places do not overlap.
-/

namespace NovelScript

open Line Text

/-- The stretches hold something and lie one after the other. -/
structure InOrder (ts : List Stretch) : Prop where
  filled : ∀ t ∈ ts, t.place.start < t.place.stop
  apart : ts.Pairwise fun t u => t.place.stop ≤ u.place.start

theorem InOrder.sublist {ts us : List Stretch} (h : InOrder us) (hs : ts.Sublist us) : InOrder ts :=
  ⟨fun t ht => h.filled t (hs.subset ht), h.apart.sublist hs⟩

theorem InOrder.left {ts us : List Stretch} (h : InOrder (ts ++ us)) : InOrder ts :=
  h.sublist (List.sublist_append_left _ _)

theorem InOrder.right {ts us : List Stretch} (h : InOrder (ts ++ us)) : InOrder us :=
  h.sublist (List.sublist_append_right _ _)

/-- From one position of the content to another one there are the stretches, with nothing but blanks
before, between and after them. -/
inductive Carries (content : List Char) (origin : Place) : Nat → List Stretch → Nat → Prop
  | done (i : Nat) : Carries content origin i [] i
  | blanks {i j : Nat} {b : List Char} {ts : List Stretch} (hb : ∀ x ∈ b, isInline x)
    (hc : b <+: content.drop i) (h : Carries content origin (i + b.length) ts j) :
    Carries content origin i ts j
  | word {i j : Nat} {w : List Char} {ts : List Stretch} (hw : w ≠ []) (hc : w <+: content.drop i)
    (h : Carries content origin (i + w.length) ts j) :
    Carries content origin i (⟨w, origin.stretch i w.length⟩ :: ts) j

namespace Carries

variable {content : List Char} {origin : Place} {i j k : Nat} {ts us : List Stretch}

theorem append (h : Carries content origin i ts j) (h' : Carries content origin j us k) :
    Carries content origin i (ts ++ us) k := by
  induction h with
  | done => exact h'
  | blanks hb hc h ih => exact .blanks hb hc (ih h')
  | word hw hc h ih => exact .word hw hc (ih h')

/-- The stretches of a run are in order and between its ends. -/
theorem inOrder (h : Carries content origin i ts j) : i ≤ j ∧ InOrder ts ∧
    ∀ t ∈ ts, origin.start + i ≤ t.place.start ∧ t.place.stop ≤ origin.start + j := by
  induction h with
  | done i => exact ⟨Nat.le_refl _, ⟨nofun, .nil⟩, nofun⟩
  | blanks hb hc h ih =>
    obtain ⟨hle, horder, hbounds⟩ := ih
    refine ⟨by omega, horder, fun t ht => ?_⟩
    have := hbounds t ht
    omega
  | @word i j w ts hw hc h ih =>
    obtain ⟨hle, horder, hbounds⟩ := ih
    have hpos : 0 < w.length := List.length_pos_iff.mpr hw
    have hplace : (origin.stretch i w.length).start = origin.start + i ∧
        (origin.stretch i w.length).stop = origin.start + i + w.length := ⟨rfl, rfl⟩
    refine ⟨by omega, ⟨?_, ?_⟩, ?_⟩
    · refine List.forall_mem_cons.mpr ⟨?_, horder.filled⟩
      change (origin.stretch i w.length).start < (origin.stretch i w.length).stop
      omega
    · refine List.pairwise_cons.mpr ⟨fun u hu => ?_, horder.apart⟩
      have := hbounds u hu
      change (origin.stretch i w.length).stop ≤ _
      omega
    · refine List.forall_mem_cons.mpr ⟨?_, fun t ht => ?_⟩
      · change _ ≤ (origin.stretch i w.length).start ∧ (origin.stretch i w.length).stop ≤ _
        omega
      · have := hbounds t ht
        omega

/-- A run does not go past the end of the content. -/
theorem le_length (h : Carries content origin i ts j) (hi : i ≤ content.length) :
    j ≤ content.length := by
  have hfits : ∀ {i : Nat} {w : List Char}, i ≤ content.length → w <+: content.drop i →
      i + w.length ≤ content.length := by
    intro i w hi hw
    have hle := hw.length_le
    rw [List.length_drop] at hle
    omega
  induction h with
  | done => exact hi
  | blanks hb hc h ih => exact ih (hfits hi hc)
  | word hw hc h ih => exact ih (hfits hi hc)

/-- Every stretch of a run is a word of the content. -/
theorem exists_of_mem (h : Carries content origin i ts j) {t : Stretch} (ht : t ∈ ts) :
    ∃ k w, w ≠ [] ∧ w <+: content.drop k ∧ t = ⟨w, origin.stretch k w.length⟩ := by
  induction h with
  | done => cases ht
  | blanks hb hc h ih => exact ih ht
  | word hw hc h ih =>
    obtain rfl | ht := List.mem_cons.mp ht
    · exact ⟨_, _, hw, hc, rfl⟩
    · exact ih ht

end Carries

namespace Line.Cursor

/-- The place where the content of the line starts. -/
def origin (c : Cursor) : Place := ⟨c.line, c.column, c.start, c.start⟩

/-- From `c` to `d` the line holds the stretches, and otherwise only blanks. -/
structure Passes (c : Cursor) (ts : List Stretch) (d : Cursor) : Prop where
  content : d.content = c.content
  origin : d.origin = c.origin
  carries : Carries c.content c.origin c.pos ts d.pos

variable {c d e : Cursor} {ts us : List Stretch} {p r w : List Char}

theorem Leads.origin (h : c.Leads d) : d.origin = c.origin := by
  rw [Cursor.origin, Cursor.origin, h.line, h.column, h.start]

theorem Passes.refl (c : Cursor) : c.Passes [] c := ⟨rfl, rfl, .done _⟩

theorem Passes.trans (h : c.Passes ts d) (h' : d.Passes us e) : c.Passes (ts ++ us) e where
  content := h'.content.trans h.content
  origin := h'.origin.trans h.origin
  carries := by
    have hcarries := h'.carries
    rw [h.content, h.origin] at hcarries
    exact h.carries.append hcarries

theorem passes_skipBlanks (c : Cursor) : c.Passes [] c.skipBlanks :=
  ⟨rfl, rfl, .blanks (fun _ => List.mem_takeWhile_imp) (List.takeWhile_prefix _) (.done _)⟩

/-- A cursor that returns has passed nothing. -/
theorem Passes.back (h : c.Passes ts d) : c.Passes [] { d with pos := c.pos } :=
  ⟨h.content, h.origin, .done _⟩

theorem Leads.passes (h : c.Leads d) (hp : d.pos = c.pos) : c.Passes [] d :=
  ⟨h.content, h.origin, by rw [hp]; exact .done _⟩

/-- What was taken after the blanks is one stretch. -/
theorem Took.passes (h : c.skipBlanks.Took w d) (hl : c.Leads d) (hw : w ≠ []) :
    c.Passes [⟨w, c.skipBlanks.ahead w.length⟩] d := by
  have hword : c.skipBlanks.Passes [⟨w, c.skipBlanks.ahead w.length⟩] d := by
    refine ⟨h.content, hl.origin, ?_⟩
    rw [h.pos]
    exact .word hw ⟨d.rest, h.rest.symm⟩ (.done _)
  exact (passes_skipBlanks c).trans hword

theorem passes_take (hr : c.skipBlanks.rest = w ++ r) (hw : w ≠ []) (word : Word) :
    c.Passes [⟨w, c.skipBlanks.ahead w.length⟩] (c.skipBlanks.take w.length word).2 := by
  have hword : c.skipBlanks.Passes [⟨w, c.skipBlanks.ahead w.length⟩]
      (c.skipBlanks.take w.length word).2 := ⟨rfl, rfl, .word hw ⟨r, hr.symm⟩ (.done _)⟩
  exact (passes_skipBlanks c).trans hword

end Line.Cursor

/-- Nothing is passed where nothing is found. -/
def Maybe {α : Type} (P : α → List Stretch → Prop) : Option α → List Stretch → Prop
  | none, ts => ts = []
  | some a, ts => P a ts

/-- The parts of a repetition are passed one after the other. -/
inductive Each {α : Type} (P : α → List Stretch → Prop) : List α → List Stretch → Prop
  | nil : Each P [] []
  | cons {a : α} {as : List α} {ts us : List Stretch} (h : P a ts) (hs : Each P as us) :
    Each P (a :: as) (ts ++ us)

namespace Each

variable {α : Type} {P P' : α → List Stretch → Prop} {a : α} {as : List α} {ts us : List Stretch}

theorem imp (h : Each P as ts) (hp : ∀ a ts, P a ts → P' a ts) : Each P' as ts := by
  induction h with
  | nil => exact .nil
  | cons h hs ih => exact .cons (hp _ _ h) ih

theorem concat (h : Each P as ts) (ha : P a us) : Each P (as ++ [a]) (ts ++ us) := by
  induction h with
  | nil => simpa using Each.cons ha .nil
  | cons h hs ih =>
    rw [List.append_assoc]
    exact .cons h ih

theorem exists_of_concat (h : Each P (as ++ [a]) ts) :
    ∃ us vs, ts = us ++ vs ∧ Each P as us ∧ P a vs := by
  induction as generalizing ts with
  | nil =>
    cases h with
    | cons h hs =>
      cases hs
      exact ⟨[], _, List.append_nil _, .nil, h⟩
  | cons b as ih =>
    cases h with
    | @cons _ _ ts us h hs =>
      obtain ⟨us, vs, rfl, hus, hvs⟩ := ih hs
      exact ⟨_, vs, (List.append_assoc _ _ _).symm, .cons h hus, hvs⟩

end Each

/-- The stretch is a word that stands for itself. -/
def Lexeme.stretch (l : Lexeme) : Stretch := ⟨l.value, l.place⟩

namespace Reader

variable {α β : Type} {P P' : α → List Stretch → Prop} {Q : β → List Stretch → Prop} {r : Reader α}
  {c d : Cursor}

/-- What the reader finds says which stretches it passes. -/
def Spells (r : Reader α) (P : α → List Stretch → Prop) : Prop :=
  ∀ c d a, r c = .ok a d → ∃ ts, c.Passes ts d ∧ P a ts

namespace Spells

theorem imp (h : Spells r P) (hp : ∀ a ts, P a ts → P' a ts) : Spells r P' := by
  intro c d a ha
  obtain ⟨ts, hts, hpa⟩ := h c d a ha
  exact ⟨ts, hts, hp a ts hpa⟩

/-- The stretches that a reader passes are in order. -/
theorem inOrder (h : Spells r fun a ts => InOrder ts → P a ts) : Spells r P := by
  intro c d a ha
  obtain ⟨ts, hts, hpa⟩ := h c d a ha
  exact ⟨ts, hts, hpa hts.carries.inOrder.2.1⟩

theorem pure {a : α} (h : P a []) : Spells (Pure.pure a) P := by
  rintro c _ _ ⟨⟩
  exact ⟨[], .refl c, h⟩

theorem bind {f : α → Reader β} (h : Spells r P)
    (hf : ∀ a ts, P a ts → Spells (f a) fun b us => Q b (ts ++ us)) : Spells (r >>= f) Q := by
  intro c d b hb
  obtain ⟨a, e, ha, he⟩ := run_bind_eq_ok.mp hb
  obtain ⟨ts, hts, hpa⟩ := h c e a ha
  obtain ⟨us, hus, hqb⟩ := hf a ts hpa e d b he
  exact ⟨ts ++ us, hts.trans hus, hqb⟩

/-- The first part passes nothing. -/
theorem after {f : α → Reader β} (h : Spells r fun _ ts => ts = []) (hf : ∀ a, Spells (f a) Q) :
    Spells (r >>= f) Q :=
  bind h fun a ts hts => by
    rw [hts]
    exact hf a

theorem map {g : α → β} (h : Spells r fun a => Q (g a)) : Spells (g <$> r) Q := by
  intro c d b hb
  obtain ⟨a, ha, rfl⟩ := run_map_eq_ok.mp hb
  exact h c d a ha

theorem required {r : Reader (Option α)} {what : String} (h : Spells r (Maybe P)) :
    Spells (Reader.required what r) P :=
  fun c d a ha => h c d (some a) (required_eq_ok.mp ha)

theorem many {r : Reader (Option α)} (h : Spells r (Maybe P)) : Spells (Reader.many r) (Each P) := by
  intro c d as ha
  have hr := rounds_of_many ha
  clear ha
  induction hr with
  | nil hr =>
    obtain ⟨ts, hts, rfl⟩ := h _ _ _ hr
    exact ⟨[], hts, .nil⟩
  | cons hr hlt hrest ih =>
    obtain ⟨ts, hts, hpa⟩ := h _ _ _ hr
    obtain ⟨us, hus, hps⟩ := ih
    exact ⟨ts ++ us, hts.trans hus, .cons hpa hps⟩
  | stall hr hlt =>
    obtain ⟨ts, hts, hpa⟩ := h _ _ _ hr
    refine ⟨ts ++ [], ?_, .cons hpa .nil⟩
    rw [List.append_nil]
    exact hts

/-! The ends of words. -/

theorem peekName : Spells Reader.peekName fun _ ts => ts = [] := by
  rintro c _ _ ⟨⟩
  exact ⟨[], c.passes_skipBlanks, rfl⟩

theorem char? : Spells Reader.char? fun _ ts => ts = [] := by
  rintro c _ _ ⟨⟩
  exact ⟨[], .refl c, rfl⟩

theorem peekPunct {p : List Char} (hp : p ≠ []) : Spells (Reader.peekPunct p) fun _ ts => ts = [] := by
  intro c d b hb
  rw [peekPunct_eq hp] at hb
  cases hb
  exact ⟨[], c.passes_skipBlanks, rfl⟩

theorem atEnd : Spells Reader.atEnd fun _ ts => ts = [] := by
  intro c d b hb
  rw [atEnd_eq] at hb
  cases hb
  exact ⟨[], c.passes_skipBlanks, rfl⟩

theorem endOfLine (construct : String) : Spells (Reader.endOfLine construct) fun _ ts => ts = [] := by
  refine after atEnd fun ended => ?_
  cases ended with
  | true => exact pure rfl
  | false =>
    intro c d u hu
    simp [refuse, run_bind, atEnd_eq] at hu

/-! Words. -/

/-- The lexeme is the one stretch that is passed. -/
def Single (l : Lexeme) (ts : List Stretch) : Prop := ts = [l.stretch]

theorem name : Spells Reader.name (Maybe Single) := by
  intro c d o ho
  rw [name_eq] at ho
  cases hn : name? c.skipBlanks.rest with
  | none =>
    rw [hn] at ho
    cases ho
    exact ⟨[], c.passes_skipBlanks, rfl⟩
  | some w =>
    rw [hn] at ho
    cases ho
    obtain ⟨hw, t, ht, -⟩ := split_of_name? hn
    exact ⟨_, Cursor.passes_take ht hw.ne_nil _, rfl⟩

theorem keyword (k : List Char) : Spells (Reader.keyword k)
    (Maybe fun l ts => Single l ts ∧ l.value = k) := by
  intro c d o ho
  rw [keyword_eq] at ho
  split at ho
  · next hn =>
    cases ho
    obtain ⟨hw, t, ht, -⟩ := split_of_name? hn
    exact ⟨_, Cursor.passes_take ht hw.ne_nil _, rfl, rfl⟩
  · cases ho
    exact ⟨[], c.passes_skipBlanks, rfl⟩

theorem punct (x : Char) : Spells (Reader.punct [x]) (Maybe fun l ts => Single l ts ∧ l.value = [x]) := by
  intro c d o ho
  rw [punct_eq (List.cons_ne_nil x [])] at ho
  split at ho
  · next hp =>
    cases ho
    obtain ⟨t, ht, -⟩ := startsWith_singleton.mp hp
    exact ⟨_, Cursor.passes_take (w := [x]) ht (List.cons_ne_nil _ _) _, rfl, rfl⟩
  · cases ho
    exact ⟨[], c.passes_skipBlanks, rfl⟩

theorem number : Spells Reader.number (Maybe Single) := by
  intro c d o ho
  rw [number_eq] at ho
  cases hn : number? c.skipBlanks.rest with
  | none =>
    rw [hn] at ho
    cases ho
    exact ⟨[], c.passes_skipBlanks, rfl⟩
  | some w =>
    rw [hn] at ho
    cases ho
    obtain ⟨hw, t, ht, -⟩ := split_of_number? hn
    obtain ⟨x, w', rfl, -⟩ := exists_head_of_numeric hw
    exact ⟨_, Cursor.passes_take ht (List.cons_ne_nil _ _) _, rfl⟩

/-- A fragment that was found is what the text starts with. -/
theorem takeFragment {found : List Char → Except Stray (Option (List Char))} {o : Option Lexeme}
    (hs : ∀ cs w, found cs = .ok (some w) → w ≠ [] ∧ ∃ t, cs = w ++ t)
    (ho : Reader.takeFragment (found c.skipBlanks.rest) c.skipBlanks = .ok o d) :
    ∃ ts, c.Passes ts d ∧ Maybe Single o ts := by
  rw [takeFragment_eq] at ho
  split at ho
  · next w hw =>
    cases ho
    obtain ⟨hne, t, ht⟩ := hs _ _ hw
    exact ⟨_, Cursor.passes_take ht hne _, rfl⟩
  · cases ho
    exact ⟨[], c.passes_skipBlanks, rfl⟩
  · cases ho

theorem group : Spells Reader.group (Maybe Single) := by
  intro c d o ho
  refine takeFragment (fun cs w hw => ?_) (group_eq ▸ ho)
  obtain ⟨hg, ht⟩ := split_of_group? hw
  obtain ⟨x, w', q, rfl, -⟩ := hg.head
  exact ⟨List.cons_ne_nil _ _, ht⟩

theorem fragment : Spells Reader.fragment (Maybe Single) := by
  intro c d o ho
  refine takeFragment (fun cs w hw => ?_) (fragment_eq ▸ ho)
  obtain ⟨k, b, t, hf, hcs, -, -⟩ := split_of_fragment? hw
  exact ⟨hf.ne_nil, _, hcs⟩

theorem expectName (what : String) : Spells (Reader.expectName what) Single := required name

theorem expectKeyword (k : String) :
    Spells (Reader.expectKeyword k) fun l ts => Single l ts ∧ l.value = k.toList :=
  required (keyword _)

theorem expectPunct {p : String} {x : Char} (hp : p.toList = [x]) :
    Spells (Reader.expectPunct p) fun l ts => Single l ts ∧ l.value = [x] := by
  unfold Reader.expectPunct
  rw [hp]
  exact required (punct x)

/-- The colon and the end of a line that opens a block. -/
theorem opensBlock (construct : String) :
    Spells (Reader.opensBlock construct) fun _ ts => ∃ l : Lexeme, l.value = [':'] ∧ Single l ts :=
  bind (expectPunct rfl) fun l ts ⟨hts, hv⟩ => (endOfLine construct).imp fun _ us hus =>
    ⟨l, hv, by rw [hus, List.append_nil]; exact hts⟩

end Spells

end Reader

end NovelScript
