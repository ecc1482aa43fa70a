import NovelScript.Proofs.HeadNodes
import NovelScript.Proofs.SpokenForm

/-!
# Lines that break off

A line may end inside a literal. The search for a spoken line comes before every other reading of a
line, and it fails where the line breaks off inside a literal that stands where a speaker would say
it. No reading is lost by that. What a reader passes has all its literals complete, and a line is
read up to its end or a comment. So a line is refused, by whatever reads it, if its first mark opens
a literal that nothing closes and no comment starts before.
-/

namespace NovelScript.Line

open Text

/-- The character is no mark and starts no comment. -/
def Outside (x : Char) : Prop := isQuote x = false ∧ x ≠ '#'

instance (x : Char) : Decidable (Outside x) := inferInstanceAs (Decidable (_ ∧ _))

/-- The first mark of the text opens a literal that nothing closes, and no comment starts before. -/
inductive Unclosed : List Char → Prop
  | mark {q : Char} {t : List Char} (hq : isQuote q) (ht : ¬Closed q t) : Unclosed (q :: t)
  | char {x : Char} {s : List Char} (hx : Outside x) (h : Unclosed s) : Unclosed (x :: s)

variable {as : List SayAttribute} {a : SayAttribute} {v : Speaker} {n p r s t w : List Char}
  {q x : Char}

theorem outside_of_isInline (h : isInline x) : Outside x := by
  refine ⟨isQuote_of_isBlank (isBlank_of_isInline h), ?_⟩
  rintro rfl
  exact absurd h (by decide)

namespace Unclosed

theorem append (hw : ∀ x ∈ w, Outside x) (h : Unclosed r) : Unclosed (w ++ r) := by
  induction w with
  | nil => exact h
  | cons x w ih =>
    obtain ⟨hx, hw⟩ := List.forall_mem_cons.mp hw
    exact .char hx (ih hw)

/-- Complete literals and characters outside literals end before the mark. -/
theorem of_whole (hp : Whole p) (h : Unclosed (p ++ r)) : Unclosed r := by
  induction hp with
  | nil => exact h
  | char hc _ ih =>
    cases h with
    | mark hq _ =>
      rw [hc] at hq
      cases hq
    | char _ h => exact ih h
  | @literal q b cs hq hb _ ih =>
    rw [List.cons_append, List.append_assoc] at h
    cases h with
    | mark _ ht =>
      obtain ⟨v, hv⟩ := hb (cs ++ r)
      exact absurd (closed_iff.mpr (by simp [hv])) ht
    | char hx _ =>
      rw [hx.1] at hq
      cases hq

theorem head_ne (h : Unclosed s) : s ≠ [] ∧ s.head? ≠ some '#' := by
  cases h with
  | mark hq _ =>
    refine ⟨List.cons_ne_nil _ _, ?_⟩
    rintro ⟨⟩
    exact absurd hq (by decide)
  | char hx _ =>
    refine ⟨List.cons_ne_nil _ _, ?_⟩
    rintro ⟨⟩
    exact hx.2 rfl

theorem not_isOver (h : Unclosed s) : ¬isOver s := by
  intro hover
  obtain ⟨b, t, rfl, hb, ht⟩ := split_of_isOver hover
  have hblank : Whole b := whole_of_forall fun x hx => (outside_of_isInline (hb x hx)).1
  obtain ⟨hnil, hhash⟩ := (h.of_whole hblank).head_ne
  exact ht.elim hnil hhash

end Unclosed

/-! A line that breaks off inside a literal has no other mark before that literal. -/

theorem whole_blanks (s : List Char) : Whole (s.takeWhile isInline) :=
  whole_of_forall fun _ hx => (outside_of_isInline (List.mem_takeWhile_imp hx)).1

/-- Blanks before the text do not matter. -/
theorem unclosed_dropWhile : Unclosed (s.dropWhile isInline) ↔ Unclosed s := by
  have hs : s = s.takeWhile isInline ++ s.dropWhile isInline :=
    List.takeWhile_append_dropWhile.symm
  constructor
  · intro h
    rw [hs]
    exact h.append fun x hx => outside_of_isInline (List.mem_takeWhile_imp hx)
  · intro h
    rw [hs] at h
    exact h.of_whole (whole_blanks s)

theorem Unclosed.of_ahead (h : Ahead w s r) (hw : ∀ x ∈ w, Outside x) (hr : Unclosed r) :
    Unclosed s := by
  rw [← unclosed_dropWhile, h]
  exact hr.append hw

theorem NameAhead.unclosed (h : NameAhead n s r) (hr : Unclosed r) : Unclosed s := by
  refine .of_ahead h.ahead (fun x hx => ?_) hr
  refine ⟨isQuote_of_name (h.chars x hx), ?_⟩
  rintro rfl
  exact absurd (h.chars '#' hx) (by decide)

theorem AttributeAhead.unclosed (h : AttributeAhead a s r) (hr : Unclosed r) : Unclosed s := by
  cases h with
  | plain h => exact h.unclosed hr
  | negated hm h => exact .of_ahead hm (List.forall_mem_singleton.mpr (by decide)) (h.unclosed hr)

theorem AttributesAhead.unclosed (h : AttributesAhead as s r) (hr : Unclosed r) : Unclosed s := by
  induction h with
  | nil => exact hr
  | cons h _ ih => exact h.unclosed (ih hr)

theorem TemporaryAhead.unclosed (h : TemporaryAhead as s r) (hr : Unclosed r) : Unclosed s := by
  cases h with
  | absent => exact hr
  | marked ha h _ => exact .of_ahead ha (List.forall_mem_singleton.mpr (by decide)) (h.unclosed hr)

theorem SpeakerAhead.unclosed (h : SpeakerAhead v s r) (hr : Unclosed r) : Unclosed s := by
  obtain ⟨t, u, hname, has, hts⟩ := h
  exact hname.unclosed (has.unclosed (hts.unclosed hr))

theorem OpenAhead.unclosed (h : OpenAhead s) : Unclosed s := by
  obtain ⟨q, t, hq, hs, ht⟩ := h
  exact .of_ahead (w := []) hs nofun (.mark hq ht)

theorem BreaksOff.unclosed (h : BreaksOff s) : Unclosed s := by
  cases h with
  | narration h => exact h.unclosed
  | dialogue hp h => exact hp.unclosed h.unclosed

end NovelScript.Line

namespace NovelScript.Reader

open Line Text

variable {α β : Type} {r : Reader α} {c d : Cursor} {p t : List Char}

/-- What the reader passes is characters outside literals and complete literals. -/
def ReadsWhole (r : Reader α) : Prop := ∀ c d a, r c = .ok a d → ∃ p, Whole p ∧ c.rest = p ++ d.rest

theorem exists_whole_skipBlanks (hp : Whole p) (hr : c.skipBlanks.rest = p ++ t) :
    ∃ p', Whole p' ∧ c.rest = p' ++ t := by
  refine ⟨c.rest.takeWhile isInline ++ p, whole_append (whole_blanks c.rest) hp, ?_⟩
  rw [List.append_assoc, ← hr, Cursor.rest_skipBlanks, List.takeWhile_append_dropWhile]

namespace ReadsWhole

theorem pure (a : α) : ReadsWhole (Pure.pure a : Reader α) := by
  rintro c _ _ ⟨⟩
  exact ⟨[], .nil, rfl⟩

theorem get : ReadsWhole (MonadState.get : Reader Cursor) := by
  rintro c _ _ ⟨⟩
  exact ⟨[], .nil, rfl⟩

theorem bind {f : α → Reader β} (h : ReadsWhole r) (hf : ∀ a, ReadsWhole (f a)) :
    ReadsWhole (r >>= f) := by
  intro c d b hb
  obtain ⟨a, e, ha, he⟩ := run_bind_eq_ok.mp hb
  obtain ⟨p, hp, hc⟩ := h c e a ha
  obtain ⟨q, hq, hd⟩ := hf a e d b he
  exact ⟨p ++ q, whole_append hp hq, by rw [hc, hd, List.append_assoc]⟩

theorem map {g : α → β} (h : ReadsWhole r) : ReadsWhole (g <$> r) := by
  intro c d b hb
  obtain ⟨a, ha, -⟩ := run_map_eq_ok.mp hb
  exact h c d a ha

theorem refuse (what : String) : ReadsWhole (Reader.refuse what : Reader α) := by
  intro c d a h
  simp [Reader.refuse, run_bind, atEnd_eq] at h

theorem many {r : Reader (Option α)} (h : ReadsWhole r) : ReadsWhole (Reader.many r) := by
  intro c d as ha
  have hr := rounds_of_many ha
  clear ha
  induction hr with
  | nil hr | stall hr _ => exact h _ _ _ hr
  | cons hr _ _ ih =>
    obtain ⟨p, hp, hc⟩ := h _ _ _ hr
    obtain ⟨q, hq, hd⟩ := ih
    exact ⟨p ++ q, whole_append hp hq, by rw [hc, hd, List.append_assoc]⟩

theorem skip : ReadsWhole Reader.skip := by
  rintro c _ _ ⟨⟩
  exact exists_whole_skipBlanks .nil rfl

theorem name : ReadsWhole Reader.name := by
  intro c d o h
  cases o with
  | none =>
    obtain rfl := eq_skipBlanks_of_name h
    exact exists_whole_skipBlanks .nil rfl
  | some l =>
    obtain ⟨w, -, hw, hr, -⟩ := split_of_name h
    exact exists_whole_skipBlanks hw.whole hr

theorem keyword (k : List Char) : ReadsWhole (Reader.keyword k) := by
  intro c d o h
  rw [keyword_eq] at h
  by_cases hk : name? c.skipBlanks.rest = some k
  · rw [if_pos hk] at h
    cases h
    obtain ⟨hw, t, hr, -⟩ := split_of_name? hk
    rw [rest_take_of_append hr]
    exact exists_whole_skipBlanks hw.whole hr
  · rw [if_neg hk] at h
    cases h
    exact exists_whole_skipBlanks .nil rfl

theorem punct {x : Char} (hx : isQuote x = false) : ReadsWhole (Reader.punct [x]) := by
  intro c d o h
  cases o with
  | none =>
    obtain rfl := eq_skipBlanks_of_punct h
    exact exists_whole_skipBlanks .nil rfl
  | some l =>
    obtain ⟨-, hr, -⟩ := split_of_punct h
    exact exists_whole_skipBlanks (p := [x]) (.char hx .nil) hr

theorem string : ReadsWhole Reader.string := by
  intro c d o h
  cases o with
  | none =>
    obtain rfl := eq_skipBlanks_of_string h
    exact exists_whole_skipBlanks .nil rfl
  | some l =>
    obtain ⟨q, b, v, -, hq, hb, hr⟩ := split_of_string h
    have hliteral : Whole (q :: (b ++ [])) := .literal hq (fun t => ⟨v, hb t⟩) .nil
    rw [List.append_nil] at hliteral
    exact exists_whole_skipBlanks hliteral hr

theorem number : ReadsWhole Reader.number := by
  intro c d o h
  cases o with
  | none =>
    rw [number_eq] at h
    split at h <;> cases h
    exact exists_whole_skipBlanks .nil rfl
  | some l =>
    obtain ⟨n, -, hn, hr, -⟩ := split_of_number h
    exact exists_whole_skipBlanks hn.whole_text hr

theorem takeFragment {found : List Char → Except Stray (Option (List Char))} {o : Option Lexeme}
    (hs : ∀ cs w, found cs = .ok (some w) → Whole w ∧ ∃ t, cs = w ++ t)
    (ho : Reader.takeFragment (found c.skipBlanks.rest) c.skipBlanks = .ok o d) :
    ∃ p, Whole p ∧ c.rest = p ++ d.rest := by
  rw [takeFragment_eq] at ho
  split at ho
  · next w hw =>
    cases ho
    obtain ⟨hwhole, t, ht⟩ := hs _ _ hw
    rw [rest_take_of_append ht]
    exact exists_whole_skipBlanks hwhole ht
  · cases ho
    exact exists_whole_skipBlanks .nil rfl
  · cases ho

theorem group : ReadsWhole Reader.group := by
  intro c d o ho
  refine takeFragment (fun cs w hw => ?_) (group_eq ▸ ho)
  obtain ⟨hg, ht⟩ := split_of_group? hw
  exact ⟨hg.whole, ht⟩

theorem fragment : ReadsWhole Reader.fragment := by
  intro c d o ho
  refine takeFragment (fun cs w hw => ?_) (fragment_eq ▸ ho)
  obtain ⟨k, b, t, hf, hcs, -, -⟩ := split_of_fragment? hw
  exact ⟨hf.scan.whole, _, hcs⟩

end ReadsWhole

theorem Composed.readsWhole (h : Composed r) : ReadsWhole r := by
  induction h with
  | pure a => exact .pure a
  | get => exact .get
  | skip => exact .skip
  | name => exact .name
  | keyword k => exact .keyword k
  | punct hx => exact .punct hx
  | string => exact .string
  | number => exact .number
  | group => exact .group
  | fragment => exact .fragment
  | refuse what => exact .refuse what
  | bind _ _ ih ihf => exact ih.bind ihf
  | map _ _ ih => exact ih.map
  | many _ ih => exact ih.many

/-- A line with a literal that nothing closes is not read to its end. -/
theorem error_of_unclosed (hr : Composed r) (hf : Finishes r) (hc : Unclosed c.rest) :
    ∃ f d, r c = .error f d ∧ f.LiesAhead c := by
  cases h : r c with
  | error f d => exact ⟨f, d, rfl, hr.isLocal.liesAhead h⟩
  | ok a d =>
    obtain ⟨p, hp, hrest⟩ := hr.readsWhole c d a h
    rw [hrest] at hc
    exact absurd (hf c d a h) (hc.of_whole hp).not_isOver

/-! What reads a line on which no spoken line was found. -/

/-- Reads the line of a statement. A search for a spoken line comes first. -/
def headAfter (search : Reader (Option Say)) : Reader Head := do
  match ← search with
  | some line =>
    endOfLine "say statement"
    return .simple (.say line) line.span
  | none => keyedHead

theorem head_eq_headAfter : head = headAfter say? := rfl

end NovelScript.Reader

namespace NovelScript.Parser

open Line Reader

variable {α β : Type} {p : Progress} {content : List Char} {c d : Cursor} {f : Fault} {r : Reader α}

/-- The parser fails because of something on the next line. -/
def Refuses (p : Progress) (content : List Char) (parser : Parser β) : Prop :=
  ∃ f q, parser p = .error f q ∧ f.LiesAhead (.ofContent content p.next.place)

/-- A line on which its reader fails is refused, whatever is to be read after it. -/
theorem refuses_line (hm : p.next.mark = .text content)
    (hr : ∃ f d, r (.ofContent content p.next.place) = .error f d ∧
      f.LiesAhead (.ofContent content p.next.place)) (next : α → Parser β) :
    Refuses p content (line r >>= next) := by
  obtain ⟨f, d, hr, hf⟩ := hr
  have hline : line r p = .error f { rest := p.rest.tail, cursor := some d } := by
    rw [line_of_text hm, hr]
  exact ⟨f, _, run_bind_of_error hline, hf⟩

/-- Where the search for a spoken line fails, no reading is lost. The line that comes next is also
refused by what reads it if nothing spoken was found there: the statement of its keyword, a further
condition or the last clause of a branch, and a choice of a menu. -/
theorem refuses_of_say?_error (hm : p.next.mark = .text content) (hc : c.Before content)
    (h : say? c = .error f d) :
    (∀ search e, search (.ofContent content p.next.place) = .ok none e →
      (e = .ofContent content p.next.place ∨
        e = (Cursor.ofContent content p.next.place).skipBlanks) →
      ∀ block, Refuses p content (line (headAfter search) >>= statementOf block)) ∧
    (∀ next : Expression × Span → Parser (Option ElifClause),
      Refuses p content (line elifHead >>= next)) ∧
    (∀ next : Unit → Parser (Option Block), Refuses p content (line elseHead >>= next)) ∧
    ∀ block, Refuses p content (choice block) := by
  have hopen : Unclosed content := by
    rw [← unclosed_dropWhile, ← hc, Cursor.rest_skipBlanks, unclosed_dropWhile]
    exact (breaksOff_of_say? h).2.unclosed
  refine ⟨fun search e hs he block => ?_, fun next => ?_, fun next => ?_, fun block => ?_⟩
  · apply refuses_line hm
    have hleads : (Cursor.ofContent content p.next.place).Leads e := by
      rcases he with rfl | rfl
      · exact .refl _
      · exact Cursor.leads_skipBlanks _
    have hrest : Unclosed e.rest := by
      rcases he with rfl | rfl
      · exact hopen
      · rw [Cursor.rest_skipBlanks]
        exact unclosed_dropWhile.mpr hopen
    obtain ⟨f, d, hf, hlies⟩ := error_of_unclosed .keyedHead .keyedHead hrest
    exact ⟨f, d, (run_bind_of_ok hs).trans hf, hlies.of_leads hleads⟩
  · exact refuses_line hm (error_of_unclosed .elifHead .elifHead hopen) next
  · exact refuses_line hm (error_of_unclosed .elseHead .elseHead hopen) next
  · exact refuses_line hm (error_of_unclosed .choiceHead .choiceHead hopen) _

/-- A line that breaks off. Its speaker and two of its attributes have the names of keywords. -/
def breaking : List Char := "show -if @ with \"Hi".toList

def breakingLine : Progress := ⟨[⟨.text breaking, ⟨1, 1, 0, 19⟩⟩], none⟩

theorem refuses_of_say?_error_breaking :
    (∃ f d, say? (.ofContent breaking ⟨1, 1, 0, 19⟩) = .error f d) ∧
      (∃ f q, (line (headAfter (pure none)) >>= statementOf block) breakingLine = .error f q ∧
        f.spot.line = 1) ∧
      ∃ f q, choice block breakingLine = .error f q ∧ f.spot.line = 1 := by
  have hspeaker : SpeakerAhead ⟨"show".toList, [⟨"if".toList, true, .blank⟩],
      [⟨"with".toList, false, .blank⟩]⟩ breaking " \"Hi".toList := by
    refine ⟨" -if @ with \"Hi".toList, " @ with \"Hi".toList, ?_, ?_, ?_⟩
    · exact ⟨⟨'s', rfl, rfl⟩, List.all_eq_true.mp rfl, by rintro _ ⟨⟩; rfl, rfl⟩
    · refine .cons (.negated (t := "if @ with \"Hi".toList) rfl ?_) (.nil _)
      exact ⟨⟨'i', rfl, rfl⟩, List.all_eq_true.mp rfl, by rintro _ ⟨⟩; rfl, rfl⟩
    · refine .marked (t := " with \"Hi".toList) rfl (.cons (.plain ?_) (.nil _)) nofun
      exact ⟨⟨'w', rfl, rfl⟩, List.all_eq_true.mp rfl, by rintro _ ⟨⟩; rfl, rfl⟩
  have hopen : OpenAhead " \"Hi".toList :=
    ⟨'"', "Hi".toList, rfl, rfl, fun h => closed_iff.mp h (by decide)⟩
  obtain ⟨f, d, hsay⟩ :=
    say?_of_breaksOff (c := .ofContent breaking ⟨1, 1, 0, 19⟩) (.dialogue hspeaker hopen)
  obtain ⟨hstatement, -, -, hchoice⟩ :=
    refuses_of_say?_error (p := breakingLine) rfl (before_of_rest rfl) hsay
  obtain ⟨f₁, q₁, h₁, hf₁⟩ := hstatement (pure none) _ rfl (.inl rfl) block
  obtain ⟨f₂, q₂, h₂, hf₂⟩ := hchoice block
  exact ⟨⟨f, d, hsay⟩, ⟨f₁, q₁, h₁, hf₁.line⟩, f₂, q₂, h₂, hf₂.line⟩

end NovelScript.Parser
