import Mathlib
import NovelScript.Proofs.Agreement
import NovelScript.Proofs.Brackets
import NovelScript.Proofs.Breakdowns
import NovelScript.Proofs.Locality
import NovelScript.Session

/-!
# What a reading takes for granted

To read a script is to look at things that need not be there: the width of the innermost open block,
the innermost open bracket, the first and the last statement of a block, the line in progress and
the lexeme read last on it. All of them are there whenever they are looked at.
-/

namespace NovelScript

variable {α β : Type}

/-! The line in progress. A line can be read in steps, each of which asks for the line. -/

namespace Session

/-- The session takes the steps of a reader on the line in progress one after the other. -/
inductive Steps : {α : Type} → Reader α → Session α → Prop
  | done {α : Type} (a : α) : Steps (pure a) (pure a)
  | onLine {α : Type} (r : Reader α) : Steps r (onLine r)
  | bind {α β : Type} {r : Reader α} {f : α → Reader β} {m : Session α} {g : α → Session β}
    (h : Steps r m) (hg : ∀ a, Steps (f a) (g a)) : Steps (r >>= f) (m >>= g)

/-- Starts the next line, takes some steps on it and ends it. -/
def inLine (m : Session α) : Session α := do
  let _ ← run Parser.beginLine
  let a ← m
  modify fun p => { p with cursor := none }
  return a

theorem cursor_of_some {p : Progress} {c : Line.Cursor} (h : p.cursor = some c) :
    cursor p = .ok c p := by
  unfold cursor
  rw [run_bind_of_ok run_get, h]
  rfl

theorem onLine_of_cursor {r : Reader α} {p : Progress} {c : Line.Cursor} (h : p.cursor = some c) :
    onLine r p = match r c with
      | .ok a d => .ok a { p with cursor := some d }
      | .error f d => .error (.fault f) { p with cursor := some d } := by
  unfold onLine
  rw [run_bind_of_ok (cursor_of_some h)]
  cases r c <;> rfl

/-- While a line is in progress, it does not matter where a reader is cut into steps. -/
theorem Steps.eq_onLine {r : Reader α} {m : Session α} (h : Steps r m) {p : Progress}
    {c : Line.Cursor} (hc : p.cursor = some c) : m p = Session.onLine r p := by
  induction h generalizing p c with
  | done a =>
    rw [onLine_of_cursor hc]
    show EStateM.Result.ok a p = .ok a { p with cursor := some c }
    rw [← hc]
  | onLine r => rfl
  | @bind _ _ r f m g _ _ ih ihg =>
    have hm := ih hc
    rw [onLine_of_cursor hc] at hm ⊢
    rw [run_bind r f, run_bind m g, hm]
    cases hr : r c with
    | error f d => rfl
    | ok a d =>
      show g a { p with cursor := some d } = _
      rw [ihg a rfl, onLine_of_cursor rfl]

theorem exists_cursor_of_beginLine {p q : Progress} {c : Line.Cursor}
    (h : Parser.beginLine p = .ok c q) : q.cursor = some c := by
  unfold Parser.beginLine at h
  obtain ⟨t, p', -, h⟩ := run_bind_eq_ok.mp h
  cases hm : t.mark with
  | text content =>
    simp only [hm] at h
    obtain ⟨-, q', -, h⟩ := run_bind_eq_ok.mp h
    cases h
    rfl
  | _ =>
    simp only [hm] at h
    cases h

/-- To read a line in steps is to read it at once. In particular no step finds that no line is in
progress. -/
theorem Steps.inLine_eq {r : Reader α} {m : Session α} (h : Steps r m) :
    inLine m = run (Parser.line r) := by
  funext p
  cases hb : Parser.beginLine p with
  | error f q =>
    have hs : run Parser.beginLine p = .error (.fault f) q := by rw [run, hb]
    have hl : Parser.line r p = .error f q := run_bind_of_error hb
    rw [inLine, run_bind_of_error hs, run, hl]
  | ok c q =>
    have hq := exists_cursor_of_beginLine hb
    have hs : run Parser.beginLine p = .ok c q := by rw [run, hb]
    rw [inLine, run_bind_of_ok hs, run_bind, h.eq_onLine hq, onLine_of_cursor hq, run, Parser.line,
      run_bind_of_ok hb]
    cases r c <;> rfl

end Session

/-! The lexeme read last on a line. -/

namespace Reader

open Line

/-- A word that was taken is the lexeme read last. -/
theorem last_of_keyword {k : List Char} {l : Lexeme} {c d : Cursor}
    (h : keyword k c = .ok (some l) d) : d.last = some l := by
  rw [keyword_eq] at h
  by_cases hn : name? c.skipBlanks.rest = some k
  · simp only [hn, if_true] at h
    cases h
    rfl
  · simp only [hn, if_false] at h
    cases h

theorem last_of_expectKeyword {k : String} {l : Lexeme} {c d : Cursor}
    (h : expectKeyword k c = .ok l d) : d.last = some l :=
  last_of_keyword (required_eq_ok.mp h)

/-- After the keyword of a line there is a lexeme read last, however the line goes on. -/
theorem isSome_last_of_expectKeyword {k : String} {l : Lexeme} {c d e : Cursor} {r : Reader α}
    {a : α} (hr : Local r) (hk : expectKeyword k c = .ok l d) (h : r d = .ok a e) :
    e.last.isSome := by
  refine (hr.leads_of_ok h).last ?_
  rw [last_of_expectKeyword hk]
  rfl

end Reader

namespace Session

/-- Reads a statement about an image up to the end of its line and asks for the lexeme read last. -/
def lastOfImage (k : String) (image : Reader α) : Session Lexeme := do
  let _ ← onLine (Reader.expectKeyword k)
  let _ ← onLine image
  let _ ← onLine Reader.transition?
  lastLexeme

/-- What follows a step on the line in progress finds the line in progress where the step left it. -/
theorem fault_or_of_onLine {r : Reader α} {g : α → Session β} {p q : Progress} {c : Line.Cursor}
    {f : StepFailure} (hc : p.cursor = some c) (h : (onLine r >>= g) p = .error f q) :
    (∃ e, f = .fault e) ∨
      ∃ a d p', r c = .ok a d ∧ p'.cursor = some d ∧ g a p' = .error f q := by
  rw [run_bind, onLine_of_cursor hc] at h
  cases hr : r c with
  | ok a d =>
    simp only [hr] at h
    exact .inr ⟨a, d, _, rfl, rfl, h⟩
  | error e d =>
    simp only [hr] at h
    cases h
    exact .inl ⟨e, rfl⟩

theorem lastLexeme_ne_error {p q : Progress} {c : Line.Cursor} {f : StepFailure}
    (hc : p.cursor = some c) (hl : c.last.isSome) : lastLexeme p ≠ .error f q := by
  obtain ⟨l, hl⟩ := Option.isSome_iff_exists.mp hl
  intro h
  unfold lastLexeme at h
  rw [run_bind_of_ok (cursor_of_some hc), hl] at h
  cases h

/-- The line about an image is in progress and a lexeme was read when that is asked for. -/
theorem exists_fault_of_lastOfImage {k : String} {image : Reader α} (hi : Reader.Local image)
    {p q : Progress} {f : StepFailure} (h : inLine (lastOfImage k image) p = .error f q) :
    ∃ e, f = .fault e := by
  cases hb : Parser.beginLine p with
  | error e p' =>
    have hs : run Parser.beginLine p = .error (.fault e) p' := by rw [run, hb]
    rw [inLine, run_bind_of_error hs] at h
    cases h
    exact ⟨e, rfl⟩
  | ok c p' =>
    have hs : run Parser.beginLine p = .ok c p' := by rw [run, hb]
    have hc := exists_cursor_of_beginLine hb
    rw [inLine, run_bind_of_ok hs] at h
    have h : lastOfImage k image p' = .error f q := by
      obtain h | ⟨a, p₁, -, h⟩ := run_bind_eq_error.mp h
      · exact h
      · cases h
    obtain he | ⟨l, c₁, p₁, hk, hc₁, h⟩ := fault_or_of_onLine hc h
    · exact he
    obtain he | ⟨a, c₂, p₂, hi', hc₂, h⟩ := fault_or_of_onLine hc₁ h
    · exact he
    obtain he | ⟨t, c₃, p₃, ht, hc₃, h⟩ := fault_or_of_onLine hc₂ h
    · exact he
    have hlast := Reader.isSome_last_of_expectKeyword hi hk hi'
    exact absurd h (lastLexeme_ne_error hc₃ ((Reader.Local.transition?.leads_of_ok ht).last hlast))

end Session

/-! The first and the last of the statements of a block, of a script and of the choices of a
menu. -/

namespace Parser

variable {p q : Progress}

/-- Rounds of which the first does not stop find something. -/
theorem rounds_ne_nil {round : Parser (Round α)} {as : List α}
    (hround : ∀ q, round p ≠ .ok .stop q) (h : rounds round p = .ok as q) : as ≠ [] := by
  unfold rounds at h
  rw [repeated] at h
  split at h
  · cases h
  · exact absurd ‹_› (hround _)
  · cases h
    exact List.cons_ne_nil _ _
  · split at h
    · split at h <;> cases h
      exact List.cons_ne_nil _ _
    · cases h
      exact List.cons_ne_nil _ _

/-- A round that finds something and then tells whether it is the last does not stop. -/
theorem found_ne_stop {find : Parser α} {isLast : α → Parser Bool} (q : Progress) :
    (do
      let a ← find
      return if ← isLast a then Round.last a else .more a) p ≠ .ok .stop q := by
  intro h
  obtain ⟨a, p₁, -, h⟩ := run_bind_eq_ok.mp h
  obtain ⟨b, p₂, -, h⟩ := run_bind_eq_ok.mp h
  cases b <;> cases h

theorem statements_ne_nil_of_blockOf {statement : Parser Statement} {b : Block}
    (h : blockOf statement p = .ok b q) : b.statements ≠ [] := by
  unfold blockOf at h
  obtain ⟨-, p₁, -, h⟩ := run_bind_eq_ok.mp h
  obtain ⟨ss, p₂, hss, h⟩ := run_bind_eq_ok.mp h
  obtain ⟨-, p₃, -, h⟩ := run_bind_eq_ok.mp h
  cases h
  exact rounds_ne_nil found_ne_stop hss

/-- A block that was read has a first and a last statement. -/
theorem statements_ne_nil {b : Block} (h : block p = .ok b q) : b.statements ≠ [] := by
  rw [block] at h
  exact statements_ne_nil_of_blockOf h

/-- A menu that was read has a last choice. -/
theorem choices_ne_nil {block : Parser Block} {caption : Option Say} {choices : List Choice}
    (h : menuBody block p = .ok (caption, choices) q) : choices ≠ [] := by
  unfold menuBody at h
  obtain ⟨-, p₁, -, h⟩ := run_bind_eq_ok.mp h
  obtain ⟨c, p₂, -, h⟩ := run_bind_eq_ok.mp h
  obtain ⟨cs, p₃, hcs, h⟩ := run_bind_eq_ok.mp h
  obtain ⟨-, p₄, -, h⟩ := run_bind_eq_ok.mp h
  cases h
  exact rounds_ne_nil found_ne_stop hcs

/-- A script that was read has a first and a last statement. -/
theorem script_ne_nil {ss : List Statement} (h : script p = .ok ss q) : ss ≠ [] := by
  have hr : Runs .initial script _ p := runs_script
  unfold Runs at hr
  rw [h] at hr
  obtain ⟨b, ⟨-, hne, -⟩, -⟩ := hr
  exact hne

end Parser

/-- A layout has a last token, the end of the script. -/
theorem exists_eof_of_layout {rules : LayoutRules} {text : List Char} {tokens : List LayoutToken}
    (h : layout rules text = .ok tokens) : ∃ front place, tokens = front ++ [⟨.eof, place⟩] := by
  obtain ⟨-, rfl⟩ := layout_eq_ok.mp h
  exact ⟨_, _, (List.append_assoc _ _ _).symm⟩

namespace Script

variable {rules : LayoutRules}

theorem parse_eq_breakdown {text : List Char} {file : Option Path} {b : Breakdown} :
    parse rules text file = .error (.breakdown b) ↔ layout rules text = .error b := by
  constructor
  · intro hp
    have hending := ending_parse rules text file
    rw [hp] at hending
    cases hending with
    | breakdown hl => exact hl
  · exact parse_of_breakdown file

/-- Nothing that a reading takes for granted is missing. The reading of a text breaks down exactly
when some line closes a block at the width of no open one and is too wide to be told. -/
theorem parse_breakdown_iff (h : 1 ≤ rules.tabWidth) (text : List Char) (file : Option Path) :
    (∀ b, parse rules text file = .error (.breakdown b) ↔
      b = .longWidth ∧ LongDedent rules text) ∧
    (∀ tokens, layout rules text = .ok tokens → ∃ front place, tokens = front ++ [⟨.eof, place⟩]) ∧
    (∀ cs, Line.groupFrom cs = (Line.group? cs).mapError .stray) ∧
    (∀ p b q, Parser.block p = .ok b q → b.statements ≠ []) ∧
    (∀ p caption choices q, Parser.menuBody Parser.block p = .ok (caption, choices) q →
      choices ≠ []) ∧
    (∀ p ss q, Parser.script p = .ok ss q → ss ≠ []) ∧
    (∀ (α : Type) (r : Reader α) m, Session.Steps r m →
      Session.inLine m = Session.run (Parser.line r)) ∧
    (∀ k p f q, Session.inLine (Session.lastOfImage k Reader.imageSpec) p = .error f q →
      ∃ g, f = .fault g) ∧
    ∀ k p f q, Session.inLine (Session.lastOfImage k Reader.sceneImage?) p = .error f q →
      ∃ g, f = .fault g :=
  ⟨fun b => parse_eq_breakdown.trans (layout_eq_error_iff h text b),
    fun _ => exists_eof_of_layout, Line.groupFrom_eq, fun _ _ _ => Parser.statements_ne_nil,
    fun _ _ _ _ => Parser.choices_ne_nil, fun _ _ _ => Parser.script_ne_nil,
    fun _ _ _ => Session.Steps.inLine_eq,
    fun _ _ _ _ => Session.exists_fault_of_lastOfImage Reader.Local.imageSpec,
    fun _ _ _ _ => Session.exists_fault_of_lastOfImage Reader.Local.sceneImage?⟩

/-- A script whose last line returns to half the width of the line before it. -/
def halfDedent : List Char :=
  "label a:\n\t\t\t\t\t\t\t\t\t\t\t\t\t\t\t\t\t\t\t\tpass\n\t\t\t\t\t\t\t\t\t\tpass\n".toList

/-- A tab width of 4300 digits. -/
def longTab : LayoutRules where
  tabWidth := 10 ^ 4299

/-- With a tab width of 4300 digits the dedent cannot be told, and the reading breaks down. -/
theorem parse_breakdown_of_halfDedent :
    1 ≤ longTab.tabWidth ∧ LongDedent longTab halfDedent ∧
      parse longTab halfDedent = .error (.breakdown .longWidth) := by
  have h : 1 ≤ longTab.tabWidth := by decide +kernel
  have hl : layout longTab halfDedent = .error .longWidth := by decide +kernel
  have hp : parse longTab halfDedent = .error (.breakdown .longWidth) := parse_eq_breakdown.mpr hl
  have hd := (parse_breakdown_iff h halfDedent none).1 .longWidth
  exact ⟨h, (hd.mp hp).2, hp⟩

end Script

end NovelScript
