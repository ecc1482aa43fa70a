import NovelScript.Proofs.Locality

/-!
# Where the parts of a line start

A lexeme starts where the blanks before it end, and nothing that is read from a cursor on starts
before that cursor. So the span of a head starts with the first character of its line that is no
blank.
-/

namespace NovelScript

open Line

namespace Line.Cursor

/-- The offset of the cursor. -/
def here (c : Cursor) : Int := c.start + c.pos

theorem Leads.here_le {c d : Cursor} (h : c.Leads d) : c.here ≤ d.here := by
  have h₁ := h.start
  have h₂ := h.pos_le
  unfold here
  omega

end Line.Cursor

namespace Reader

variable {α β : Type} {k : Int} {c d : Cursor} {r : Reader α}

/-- The lexeme that is found starts where the blanks at the cursor end. -/
def Lexes (r : Reader (Option Lexeme)) : Prop :=
  ∀ (c d : Cursor) (l : Lexeme), r c = .ok (some l) d → l.span.start = c.skipBlanks.here

theorem lexes_name : Lexes name := by
  intro c d l h
  rw [name_eq] at h
  split at h
  · cases h
    rfl
  · cases h

theorem lexes_keyword (w : List Char) : Lexes (keyword w) := by
  intro c d l h
  rw [keyword_eq] at h
  split at h
  · cases h
    rfl
  · cases h

theorem lexes_punct {p : List Char} (hp : p ≠ []) : Lexes (punct p) := by
  intro c d l h
  rw [punct_eq hp] at h
  split at h
  · cases h
    rfl
  · cases h

theorem lexes_string : Lexes string := by
  intro c d l h
  rw [string_eq] at h
  split at h
  · cases h
  · split at h
    · split at h
      · cases h
        rfl
      · cases h
    · cases h

theorem lexes_number : Lexes number := by
  intro c d l h
  rw [number_eq] at h
  split at h
  · cases h
    rfl
  · cases h

theorem lexes_takeFragment {x : Except Stray (Option (List Char))} {l : Lexeme}
    (h : takeFragment x c = .ok (some l) d) : l.span.start = c.here := by
  rw [takeFragment_eq] at h
  split at h
  · cases h
    rfl
  · cases h
  · cases h

theorem lexes_group : Lexes group := fun _ _ _ h => lexes_takeFragment (group_eq ▸ h)

theorem lexes_fragment : Lexes fragment := fun _ _ _ h => lexes_takeFragment (fragment_eq ▸ h)

/-- What the reader finds from the offset `k` on satisfies `Q`. -/
def Gives (k : Int) (r : Reader α) (Q : α → Prop) : Prop :=
  ∀ (c d : Cursor) (a : α), k ≤ c.here → r c = .ok a d → Q a

/-- The spans that are found do not start before `k`. -/
def NotBefore (k : Int) (s : Option Span) : Prop := ∀ x, s = some x → k ≤ x.start

namespace Gives

variable {s : Reader β} {f : α → Reader β} {g : α → β} {Q Q' : α → Prop} {R : β → Prop}

theorem pure {a : α} (h : Q a) : Gives k (Pure.pure a) Q := by
  intro c d b hk hb
  obtain rfl : a = b := (EStateM.Result.ok.inj hb).1
  exact h

theorem nothing : Gives k (Pure.pure none : Reader (Option α)) fun o => ∀ a, o = some a → Q a :=
  pure (by simp)

theorem imp (h : Gives k r Q) (hq : ∀ a, Q a → Q' a) : Gives k r Q' :=
  fun _ _ _ hk hr => hq _ (h _ _ _ hk hr)

theorem bind (hl : Composed r) (h : Gives k r Q) (hf : ∀ a, Q a → Gives k (f a) R) :
    Gives k (r >>= f) R := by
  intro c d b hk hb
  obtain ⟨a, e, ha, he⟩ := run_bind_eq_ok.mp hb
  exact hf a (h _ _ _ hk ha) _ _ _ (Int.le_trans hk (hl.isLocal.leads_of_ok ha).here_le) he

/-- The first part only moves the cursor. -/
theorem after (hl : Composed r) (hf : ∀ a, Gives k (f a) R) : Gives k (r >>= f) R :=
  bind (Q := fun _ => True) hl (fun _ _ _ _ _ => trivial) fun a _ => hf a

theorem map (h : Gives k r fun a => R (g a)) : Gives k (g <$> r) R := by
  intro c d b hk hb
  obtain ⟨a, ha, rfl⟩ := run_map_eq_ok.mp hb
  exact h _ _ _ hk ha

theorem lexes {r : Reader (Option Lexeme)} (h : Lexes r) :
    Gives k r fun o => NotBefore k (o.map Lexeme.span) := by
  intro c d o hk ho s hs
  obtain ⟨l, rfl, rfl⟩ := Option.map_eq_some_iff.mp hs
  rw [h _ _ _ ho]
  exact Int.le_trans hk (Cursor.leads_skipBlanks c).here_le

theorem required {what : String} {r : Reader (Option α)}
    (h : Gives k r fun o => ∀ a, o = some a → Q a) : Gives k (required what r) Q :=
  fun _ _ _ hk ha => h _ _ _ hk (required_eq_ok.mp ha) _ rfl

/-- All parts that a repetition finds satisfy what one part does. -/
theorem many {r : Reader (Option α)} (hl : Composed r) (h : Gives k r fun o => ∀ a, o = some a → Q a) :
    Gives k (many r) fun as => ∀ a ∈ as, Q a := by
  intro c d as hk ha
  have hr := rounds_of_many ha
  clear ha
  induction hr with
  | nil => simp
  | cons hr hlt hrest ih =>
    intro b hb
    obtain rfl | hb := List.mem_cons.mp hb
    · exact h _ _ _ hk hr _ rfl
    · exact ih (Int.le_trans hk (hl.isLocal.leads_of_ok hr).here_le) b hb
  | stall hr hlt =>
    intro b hb
    rw [List.mem_singleton.mp hb]
    exact h _ _ _ hk hr _ rfl

/-- A lexeme that must be found. -/
theorem expect {what : String} {r : Reader (Option Lexeme)} (h : Lexes r) :
    Gives k (Reader.required what r) fun l => k ≤ l.span.start :=
  required ((lexes h).imp fun _ ho l hl => ho _ (by rw [hl]; rfl))

theorem expectKeyword (w : String) : Gives k (Reader.expectKeyword w) fun l => k ≤ l.span.start :=
  expect (lexes_keyword _)

theorem labelName : Gives k Reader.labelName fun n => k ≤ n.span.start := by
  refine bind (.punct rfl) (lexes (lexes_punct (by decide))) fun dot hdot => ?_
  cases dot with
  | some dot =>
    have hd : k ≤ dot.span.start := hdot _ rfl
    exact bind Composed.name.required (expect lexes_name) fun n hn =>
      pure (Span.le_start_cover hd hn)
  | none =>
    refine bind Composed.name.required (expect lexes_name) fun first hf => ?_
    refine after .char? fun next => ?_
    split
    · exact after (.punct rfl) fun _ =>
        bind Composed.name.required (expect lexes_name) fun n hn => pure (Span.le_start_cover hf hn)
    · exact pure hf

theorem member : Gives k Reader.member fun o => ∀ l, o = some l → k ≤ l.span.start := by
  refine after .get fun c => ?_
  split
  · split
    · exact after (.punct rfl) fun _ =>
        (lexes lexes_name).imp fun _ ho l hl => ho _ (by rw [hl]; rfl)
    · exact nothing
  · exact nothing

theorem getLastD_of_forall {as : List α} {a : α} (h : ∀ b ∈ as, Q b) (ha : Q a) :
    Q (as.getLastD a) := by
  obtain hl | hl := List.mem_cons.mp (List.getLastD_mem_cons (l := as) (a := a))
  · rwa [hl]
  · exact h _ hl

theorem reference? : Gives k Reader.reference? fun o => ∀ e, o = some e → k ≤ e.span.start := by
  refine bind .name (lexes lexes_name) fun first hf => ?_
  cases first with
  | none => exact nothing
  | some first =>
    have hfirst : k ≤ first.span.start := hf _ rfl
    refine bind Composed.member.many (many .member member) fun members hm => ?_
    have hcallee : k ≤ (members.getLastD first).span.start := getLastD_of_forall hm hfirst
    have hend : ∀ (arguments : Option Lexeme), NotBefore k (arguments.map Lexeme.span) →
        k ≤ (first.span.cover (arguments.getD (members.getLastD first)).span).start := by
      intro arguments ha
      refine Span.le_start_cover hfirst ?_
      cases arguments with
      | none => exact hcallee
      | some l => exact ha _ rfl
    refine after .char? fun next => ?_
    split
    · refine bind .group (lexes lexes_group) fun arguments ha => after .get fun c => pure ?_
      rintro e ⟨⟩
      exact hend _ ha
    · refine bind (.pure _) (pure (Q := fun o => o = none) rfl) fun arguments ha => ?_
      refine after .get fun c => pure ?_
      rintro e ⟨⟩
      exact hend arguments (by rw [ha]; nofun)

theorem simpleExpression? :
    Gives k Reader.simpleExpression? fun o => ∀ e, o = some e → k ≤ e.span.start := by
  unfold Reader.simpleExpression?
  refine bind .string (lexes lexes_string) fun l hl => ?_
  cases l with
  | some l =>
    refine pure ?_
    rintro e ⟨⟩
    exact hl _ rfl
  | none =>
    refine bind .group (lexes lexes_group) fun l hl => ?_
    cases l with
    | some l =>
      refine pure ?_
      rintro e ⟨⟩
      exact hl _ rfl
    | none =>
      refine bind .number (lexes lexes_number) fun l hl => ?_
      cases l with
      | some l =>
        refine pure ?_
        rintro e ⟨⟩
        exact hl _ rfl
      | none => exact reference?

theorem simpleExpression (what : String) :
    Gives k (Reader.simpleExpression what) fun e => k ≤ e.span.start :=
  required simpleExpression?

theorem code? : Gives k Reader.code? fun o => ∀ e, o = some e → k ≤ e.span.start := by
  refine bind .fragment (lexes lexes_fragment) fun l hl => pure ?_
  intro e he
  obtain ⟨l, rfl, rfl⟩ := Option.map_eq_some_iff.mp he
  exact hl _ rfl

theorem code (what : String) : Gives k (Reader.code what) fun e => k ≤ e.span.start :=
  required code?

theorem imageWord? : Gives k Reader.imageWord? fun o => ∀ l, o = some l → k ≤ l.span.start := by
  refine after .peekName fun n => ?_
  cases n with
  | none => exact nothing
  | some n =>
    simp only
    split
    · exact nothing
    · exact (lexes lexes_name).imp fun _ ho l hl => ho _ (by rw [hl]; rfl)

theorem imageWords (what : String) : Gives k (Reader.imageWords what)
    fun words => k ≤ words.1.span.start ∧ ∀ l ∈ words.2, k ≤ l.span.start :=
  bind Composed.imageWord?.required (required imageWord?) fun _ hf =>
    bind Composed.imageWord?.many (many .imageWord? imageWord?) fun _ hm => pure ⟨hf, hm⟩

theorem modifierClause (kind : ModifierKind) :
    Gives k (Reader.modifierClause kind) fun clause => k ≤ clause.2.start := by
  cases kind with
  | «at» | zorder => exact bind (.simpleExpression _) (simpleExpression _) fun _ he => pure he
  | onlayer | as => exact bind Composed.name.required (expect lexes_name) fun _ hl => pure hl
  | behind =>
    exact bind (.imageWords _) (imageWords _) fun words hw =>
      pure (getLastD_of_forall (Q := fun l : Lexeme => k ≤ l.span.start) hw.2 hw.1)

theorem modifier? : Gives k Reader.modifier? fun o => ∀ m, o = some m → k ≤ m.span.start := by
  refine after .peekName fun next => ?_
  split
  · exact nothing
  · refine bind (.expectKeyword _) (expectKeyword _) fun start hs => ?_
    refine bind (.modifierClause _) (modifierClause _) fun clause hc => pure ?_
    rintro m ⟨⟩
    exact Span.le_start_cover hs hc

theorem imageSpec : Gives k Reader.imageSpec fun image => k ≤ image.span.start := by
  refine bind (.imageWords _) (imageWords _) fun words hw => ?_
  refine bind Composed.modifier?.many (many .modifier? modifier?) fun modifiers hm => pure ?_
  refine Span.le_start_cover hw.1 ?_
  refine getLastD_of_forall (Q := fun s : Span => k ≤ s.start) (fun s hs => ?_)
    (getLastD_of_forall (Q := fun l : Lexeme => k ≤ l.span.start) hw.2 hw.1)
  obtain ⟨m, hmem, rfl⟩ := List.mem_map.mp hs
  exact hm m hmem

theorem transition? : Gives k Reader.transition? fun o => ∀ e, o = some e → k ≤ e.span.start := by
  refine after (.keyword _) fun w => ?_
  cases w with
  | none => exact nothing
  | some _ =>
    refine map ((simpleExpression _).imp fun e he => ?_)
    rintro e' ⟨⟩
    exact he

theorem sceneImage? : Gives k Reader.sceneImage? fun o => ∀ i, o = some i → k ≤ i.span.start := by
  refine after .atEnd fun ended => after .peekName fun next => ?_
  split
  · exact nothing
  · refine map (imageSpec.imp fun i hi => ?_)
    rintro i' ⟨⟩
    exact hi

theorem assigned (construct : String) :
    Gives k (Reader.assigned construct) fun e => k ≤ e.span.start :=
  after (.expectPunct rfl rfl) fun _ => bind (.code _) (code _) fun _ he =>
    after (.endOfLine _) fun _ => pure he

end Gives

end Reader

/-- Where the head of a statement starts: its span, or the span of its keyword. -/
def Head.start : Head → Int
  | simple _ span => span.start
  | label _ keyword | branch _ keyword | loop _ keyword | menu _ keyword => keyword.start

theorem Span.start_extent {keyword : Span} {parts : List (Option Span)}
    (h : ∀ s, some s ∈ parts → keyword.start ≤ s.start) :
    (Reader.extent keyword parts).start = keyword.start := by
  refine start_cover ?_
  refine Reader.Gives.getLastD_of_forall (Q := fun s : Span => keyword.start ≤ s.start)
    (fun s hs => ?_) (Int.le_refl _)
  obtain ⟨o, ho, rfl⟩ := List.mem_filterMap.mp hs
  exact h s ho

namespace Reader

variable {k : Int} {c d : Cursor}

/-- A head starts with its keyword. -/
theorem Gives.afterKeyword (keyword : Span) (kind : StatementKind) :
    Gives keyword.start (Reader.afterKeyword keyword kind) fun h => h.start = keyword.start := by
  have hextent : ∀ {α β : Type} (a : Option α) (b : Option β) (f : α → Span) (g : β → Span),
      (∀ x, a = some x → keyword.start ≤ (f x).start) →
      (∀ x, b = some x → keyword.start ≤ (g x).start) →
      (extent keyword [a.map f, b.map g]).start = keyword.start := by
    intro α β a b f g ha hb
    refine Span.start_extent fun s hs => ?_
    simp only [List.mem_cons, List.not_mem_nil, or_false] at hs
    obtain hs | hs := hs
    · obtain ⟨x, hx, rfl⟩ := Option.map_eq_some_iff.mp hs.symm
      exact ha x hx
    · obtain ⟨x, hx, rfl⟩ := Option.map_eq_some_iff.mp hs.symm
      exact hb x hx
  cases kind with
  | say => exact fun c d a _ ha => absurd ha (by simp [Reader.afterKeyword, Reader.refuse, run_bind, atEnd_eq])
  | label => exact after .labelName fun _ => after (.opensBlock _) fun _ => pure rfl
  | branch | loop => exact after (.condition _) fun _ => pure rfl
  | menu =>
    refine after (.peekPunct _) fun colon => ?_
    split
    · exact after (.pure _) fun _ => after (.opensBlock _) fun _ => pure rfl
    · exact after (Composed.labelName.map _) fun _ => after (.opensBlock _) fun _ => pure rfl
  | jump =>
    exact bind .labelName labelName fun _ ht => after (.endOfLine _) fun _ =>
      pure (Span.start_cover ht)
  | call =>
    refine bind .labelName labelName fun target ht => after (.keyword _) fun w => ?_
    cases w with
    | none =>
      refine bind (Q := fun o => ∀ n, o = some n → keyword.start ≤ n.span.start)
        (.pure _) nothing fun site hs => after (.endOfLine _) fun _ => pure ?_
      exact hextent (some target) site _ (·.span) (by rintro _ ⟨⟩; exact ht) hs
    | some _ =>
      refine bind (Q := fun o => ∀ n, o = some n → keyword.start ≤ n.span.start)
        (Composed.labelName.map _) (map (labelName.imp fun n hn => ?_)) fun site hs =>
          after (.endOfLine _) fun _ => pure ?_
      · rintro _ ⟨⟩
        exact hn
      · exact hextent (some target) site _ (·.span) (by rintro _ ⟨⟩; exact ht) hs
  | leave =>
    refine bind .code? code? fun value hv => after (.endOfLine _) fun _ => pure ?_
    exact hextent value (none : Option Expression) (·.span) (·.span) hv (by simp)
  | pass => exact after (.endOfLine _) fun _ => pure (Span.start_cover (Int.le_refl _))
  | showImage | hideImage =>
    refine bind .imageSpec imageSpec fun image hi => ?_
    refine bind .transition? transition? fun effect he => after (.endOfLine _) fun _ => pure ?_
    exact hextent (some image) effect _ _ (by rintro _ ⟨⟩; exact hi) he
  | scene =>
    refine bind .sceneImage? sceneImage? fun image hi => ?_
    refine bind .transition? transition? fun effect he => after (.endOfLine _) fun _ => pure ?_
    exact hextent image effect _ _ hi he
  | transition =>
    exact bind (.simpleExpression _) (simpleExpression _) fun _ he =>
      after (.endOfLine _) fun _ => pure (Span.start_cover he)
  | define | default =>
    exact after (.dottedName _) fun _ => bind (.assigned _) (assigned _) fun _ he =>
      pure (Span.start_cover he)
  | image =>
    exact after (.expectName _) fun _ => after Composed.name.many fun _ =>
      bind (.assigned _) (assigned _) fun _ he => pure (Span.start_cover he)

/-- What a search for a spoken line comes to. -/
inductive Spoken (c : Cursor) : Option Say → Cursor → Prop
  | narration {what : Lexeme} {e d : Cursor} (hw : string c = .ok (some what) e)
    (hend : atEnd e = .ok true d) : Spoken c (some ⟨none, literalOf what, what.span⟩) d
  | dialogue {who what : Lexeme} {attributes temporary : List SayAttribute}
    {e₁ e₂ e₃ e₄ d : Cursor} (hn : string c = .ok none c.skipBlanks)
    (hwho : name c = .ok (some who) e₁) (ha : many sayAttribute? e₁ = .ok attributes e₂)
    (ht : temporaryAttributes e₂ = .ok temporary e₃) (hw : string e₃ = .ok (some what) e₄)
    (hend : atEnd e₄ = .ok true d) :
    Spoken c (some ⟨some ⟨who.value, attributes, temporary⟩, literalOf what,
      who.span.cover what.span⟩) d
  /-- The cursor returns, or it stays where the blanks end. -/
  | none {d : Cursor} (hd : d.pos = c.pos ∨ d = c.skipBlanks) : Spoken c none d

theorem name_skipBlanks (c : Cursor) : name c.skipBlanks = name c := by
  rw [name_eq, name_eq, Cursor.skipBlanks_idem]

theorem spoken_of_say? {o : Option Say} (h : say? c = .ok o d) : Spoken c o d := by
  unfold say? at h
  rw [run_bind_of_ok run_get] at h
  obtain ⟨what, e, hw, h⟩ := run_bind_eq_ok.mp h
  cases what with
  | some what =>
    obtain ⟨ended, e', hend, h⟩ := run_bind_eq_ok.mp h
    cases ended with
    | true =>
      cases h
      exact .narration hw hend
    | false =>
      cases h
      exact .none (.inl rfl)
  | none =>
    obtain rfl := eq_skipBlanks_of_string hw
    obtain ⟨who, e₁, hwho, h⟩ := run_bind_eq_ok.mp h
    rw [name_skipBlanks] at hwho
    cases who with
    | none =>
      cases h
      exact .none (.inr (eq_skipBlanks_of_name hwho))
    | some who =>
      obtain ⟨attributes, e₂, ha, h⟩ := run_bind_eq_ok.mp h
      obtain ⟨temporary, e₃, ht, h⟩ := run_bind_eq_ok.mp h
      obtain ⟨what, e₄, hwhat, h⟩ := run_bind_eq_ok.mp h
      cases what with
      | none =>
        cases h
        exact .none (.inl rfl)
      | some what =>
        obtain ⟨ended, e₅, hend, h⟩ := run_bind_eq_ok.mp h
        cases ended with
        | true =>
          cases h
          exact .dialogue hw hwho ha ht hwhat hend
        | false =>
          cases h
          exact .none (.inl rfl)

theorem say?_of_spoken {s : Say} (h : Spoken c (some s) d) : say? c = .ok (some s) d := by
  unfold say?
  rw [run_bind_of_ok run_get]
  cases h with
  | narration hw hend =>
    rw [run_bind_of_ok hw]
    simp only
    rw [run_bind_of_ok hend]
    rfl
  | dialogue hn hwho ha ht hw hend =>
    rw [run_bind_of_ok hn]
    simp only
    rw [run_bind_of_ok ((name_skipBlanks c).trans hwho)]
    simp only
    rw [run_bind_of_ok ha, run_bind_of_ok ht, run_bind_of_ok hw]
    simp only
    rw [run_bind_of_ok hend]
    rfl

/-- A spoken line starts with its first lexeme. -/
theorem start_of_say? {s : Say} (h : say? c = .ok (some s) d) :
    s.span.start = c.skipBlanks.here := by
  cases spoken_of_say? h with
  | narration hw hend => exact lexes_string _ _ _ hw
  | @dialogue who what attributes temporary e₁ e₂ e₃ e₄ d hn hwho ha ht hw hend =>
    have hstart : who.span.start = c.skipBlanks.here := lexes_name _ _ _ hwho
    have hle : c.skipBlanks.here ≤ e₁.here := by
      rw [← name_skipBlanks] at hwho
      exact (Local.name.leads_of_ok hwho).here_le
    have h₂ := ((Local.many Local.sayAttribute?).leads_of_ok ha).here_le
    have h₃ := (Local.temporaryAttributes.leads_of_ok ht).here_le
    have h₄ := (Cursor.leads_skipBlanks e₃).here_le
    have hwhat : what.span.start = e₃.skipBlanks.here := lexes_string _ _ _ hw
    exact (Span.start_cover (by omega)).trans hstart

/-- A line that is no spoken line is read again from where its blanks end. -/
theorem here_of_say? (h : say? c = .ok none d) : d.skipBlanks.here = c.skipBlanks.here := by
  have hl := Local.say?.leads_of_ok h
  obtain hp | rfl : d.pos = c.pos ∨ d = c.skipBlanks := by
    cases spoken_of_say? h with
    | none hd => exact hd
  · have hr : d.rest = c.rest := by rw [Cursor.rest, Cursor.rest, hl.content, hp]
    simp only [Cursor.here, Cursor.skipBlanks, hl.start, hp, hr]
  · rw [Cursor.skipBlanks_idem]

/-- The head of a statement starts with the first character of the line that is no blank. -/
theorem start_of_head {h : Head} (hr : head c = .ok h d) : h.start = c.skipBlanks.here := by
  obtain ⟨line, e, hs, hr⟩ := run_bind_eq_ok.mp hr
  cases line with
  | some line =>
    obtain ⟨-, e', -, hr⟩ := run_bind_eq_ok.mp hr
    cases hr
    exact start_of_say? hs
  | none =>
    obtain ⟨next, e₀, hnext, hr⟩ := run_bind_eq_ok.mp hr
    rw [peekName_eq] at hnext
    cases hnext
    generalize StatementKind.keyed.find? _ = found at hr
    cases found with
    | none => exact absurd hr (by simp [refuse, run_bind, atEnd_eq])
    | some kind =>
      obtain ⟨keyword, e', hkey, hr⟩ := run_bind_eq_ok.mp hr
      have hkey' := required_eq_ok.mp hkey
      have hstart : keyword.span.start = c.skipBlanks.here := by
        rw [lexes_keyword _ _ _ _ hkey', Cursor.skipBlanks_idem, here_of_say? hs]
      have hle : keyword.span.start ≤ e'.here := by
        rw [hstart, ← here_of_say? hs]
        exact ((Composed.expectKeyword _).isLocal.leads_of_ok hkey).here_le
      exact (Gives.afterKeyword _ _ _ _ _ hle hr).trans hstart

theorem start_of_elifHead {condition : Expression} {keyword : Span}
    (hr : elifHead c = .ok (condition, keyword) d) : keyword.start = c.skipBlanks.here := by
  obtain ⟨l, e, hl, hr⟩ := run_bind_eq_ok.mp hr
  obtain ⟨x, e', -, hr⟩ := run_bind_eq_ok.mp hr
  cases hr
  exact lexes_keyword _ _ _ _ (required_eq_ok.mp hl)

theorem start_of_captionHead {line : Say} (hr : captionHead c = .ok (some line) d) :
    line.span.start = c.skipBlanks.here := by
  obtain ⟨l, e, hl, hr⟩ := run_bind_eq_ok.mp hr
  obtain ⟨-, e', -, hr⟩ := run_bind_eq_ok.mp hr
  cases hr
  exact start_of_say? hl

theorem start_of_choiceHead {text : Lexeme} {condition : Option Expression}
    (hr : choiceHead c = .ok (text, condition) d) : text.span.start = c.skipBlanks.here := by
  obtain ⟨l, e, hl, hr⟩ := run_bind_eq_ok.mp hr
  have hstart := lexes_string _ _ _ (required_eq_ok.mp hl)
  have htext : text = l := by
    obtain ⟨w, e₁, -, hr⟩ := run_bind_eq_ok.mp hr
    cases w with
    | none =>
      obtain ⟨x, e₂, -, hr⟩ := run_bind_eq_ok.mp hr
      obtain ⟨-, e₃, -, hr⟩ := run_bind_eq_ok.mp hr
      cases hr
      rfl
    | some w =>
      obtain ⟨x, e₂, -, hr⟩ := run_bind_eq_ok.mp hr
      obtain ⟨-, e₃, -, hr⟩ := run_bind_eq_ok.mp hr
      cases hr
      rfl
  rw [htext, hstart]

end Reader

end NovelScript
