import NovelScript.Proofs.Joined
import NovelScript.Proofs.Levels
import NovelScript.Proofs.Tracking

/-!
# Two scripts in a row

A script is `Ready` for the next line when all of its statements are complete and no block is open.
Its own end makes it ready, and so does a line without indentation. From there the next script is
read as if nothing stood before it: its first line is that of a statement, which no branch takes for
one of its clauses.
-/

namespace NovelScript

open Line

namespace Assembly

variable {a b : Assembly} {t u : LayoutToken} {ts us : List LayoutToken} {ss : List Statement}

/-- The statements `ss` are complete, and no separator has to come before the next one. -/
structure Ready (ss : List Statement) (a : Assembly) : Prop where
  outer : a.outer = []
  last : (a.stage = .line ∧ a.done = ss) ∨
    ∃ s, a.stage.statement? = some s ∧ s.isCompound ∧ ss = a.done ++ [s]

theorem Ready.move (ha : a.Ready ss) {h : Head} (hr : t.Reads Reader.head h) :
    a.move t = .on ⟨h.stage, ss, []⟩ := by
  obtain ⟨ho, ⟨hs, rfl⟩ | ⟨s, hs, hc, rfl⟩⟩ := ha
  · have hstep := Step.first hs hr
    rw [ho] at hstep
    exact move_of_step hstep
  · have hstep := Step.next hs hc hr
    rw [ho] at hstep
    exact move_of_step hstep

theorem Ready.complete (ha : a.Ready ss) (hne : ss ≠ []) (ht : t.mark = .eof) :
    a.move t = .complete ss := by
  obtain ⟨ho, ⟨hs, rfl⟩ | ⟨s, hs, -, rfl⟩⟩ := ha
  · exact move_eq_complete_iff.mpr ⟨ht, ho, .inl ⟨hs, hne, rfl⟩⟩
  · exact move_eq_complete_iff.mpr ⟨ht, ho, .inr ⟨s, hs, rfl⟩⟩

theorem initial_move_ne_complete : initial.move t ≠ .complete ss := by
  intro h
  obtain ⟨-, -, ⟨-, hd, -⟩ | ⟨s, hs, -⟩⟩ := move_eq_complete_iff.mp h
  · exact hd rfl
  · cases hs

/-- Where the end completes a script after a separator or a closing, the script is ready. -/
theorem ready_of_step (h : Step a t b) (ht : t.tag = .newline ∨ t.tag = .dedent)
    (hc : b.move u = .complete ss) : b.Ready ss := by
  have htext : ∀ {α : Type} {r : Reader α} {x : α}, ¬t.Reads r x := by
    intro α r x hr
    rw [hr.tag] at ht
    obtain ht | ht := ht <;> cases ht
  obtain ⟨-, ho, ⟨hs, -, rfl⟩ | ⟨s, hs, rfl⟩⟩ := move_eq_complete_iff.mp hc
  · exact ⟨ho, .inl ⟨hs, rfl⟩⟩
  · refine ⟨ho, .inr ⟨s, hs, ?_, rfl⟩⟩
    cases h with
    | first _ hr | next _ _ hr | caption _ hr | choice _ hr => exact absurd hr htext
    | elif _ _ hr => exact absurd hr htext
    | otherwise _ _ hr => exact absurd hr htext
    | @close _ owner => cases owner <;> cases hs <;> rfl
    | leave =>
      cases hs
      rfl
    | _ => cases hs

/-- What a script starts with is the line of a statement. -/
theorem exists_reads_of_step (h : Step a t b) (hs : a.stage = .line) :
    ∃ head, t.Reads Reader.head head ∧ b = { a with stage := head.stage } := by
  cases h with
  | @first head _ hr => exact ⟨head, hr, rfl⟩
  | next hs' | choice hs' | close hs' => simp [hs, Stage.statement?, Stage.menu?] at hs'
  | separate hs' | elif hs' | otherwise hs' | enter hs' | enterMenu hs' | caption hs'
  | captioned hs' | leave hs' => simp [hs] at hs'

/-- A token that is no line and no fault counts by its mark alone. -/
theorem move_of_mark (h : t.mark = u.mark) (ht : t.mark = .newline ∨ t.mark = .dedent) :
    a.move t = a.move u := by
  obtain ⟨m, p⟩ := t
  obtain ⟨m', q⟩ := u
  obtain rfl : m = m' := h
  obtain rfl | rfl := ht
  · unfold move take
    cases a.stage <;> rfl
  · unfold move take
    cases a.stage <;> rfl

theorem run_of_marks (h : ts.map LayoutToken.mark = us.map LayoutToken.mark)
    (ht : ∀ t ∈ ts, t.mark = .newline ∨ t.mark = .dedent) : a.run ts = a.run us := by
  induction ts generalizing a us with
  | nil =>
    rw [List.map_nil, eq_comm, List.map_eq_nil_iff] at h
    rw [h]
  | cons t ts ih =>
    rw [List.map_cons, eq_comm, List.map_eq_cons_iff] at h
    obtain ⟨u, us, rfl, hu, hus⟩ := h
    rw [run, run, move_of_mark hu.symm (ht t List.mem_cons_self)]
    cases a.move u with
    | on b => exact ih hus.symm fun v hv => ht v (List.mem_cons_of_mem _ hv)
    | _ => rfl

theorem run_closing (s : Offside) (place place' : Place) :
    a.run (s.closing place) = a.run (s.closing place') :=
  run_of_marks (s.mark_closing place place') fun _ ht => Offside.mark_of_mem_closing ht

end Assembly

namespace Script

variable {rules : LayoutRules} {a b : List Char} {file : Option Path} {f g : SourceFile}

/-- A script that is read is ready for the next line when its blocks are closed. -/
theorem ready_of_parse (hf : parse rules a file = .ok f) : ∃ c d,
    (linesOf rules a).breakdown = none ∧
      Assembly.initial.run (linesOf rules a).tokens = some c ∧
      (∀ place, c.run ((linesOf rules a).state.closing place) = some d) ∧
      d.Ready f.statements ∧ f.statements ≠ [] := by
  obtain ⟨front, place, d, hl, hshape, hrun, hcomplete, -, -⟩ := exists_run_of_parse hf
  have hready : d.Ready f.statements ∧ f.statements ≠ [] := by
    obtain ⟨front', place', hfront, -, hlast⟩ := hshape.split
    obtain ⟨rfl, -⟩ := List.append_inj' hfront rfl
    have hne : f.statements ≠ [] := by
      obtain ⟨-, -, ⟨-, hd, hss⟩ | ⟨s, -, hss⟩⟩ := Assembly.move_eq_complete_iff.mp hcomplete
      · rwa [hss]
      · simp [hss]
    obtain rfl | ⟨front', t, rfl, ht⟩ := hlast
    · cases hrun
      exact absurd hcomplete Assembly.initial_move_ne_complete
    · rw [Assembly.run_append] at hrun
      obtain ⟨c, -, hd⟩ := Option.bind_eq_some_iff.mp hrun
      obtain ⟨d', hm, hd⟩ := Assembly.run_cons.mp hd
      cases hd
      exact ⟨Assembly.ready_of_step (Assembly.step_of_move hm) ht hcomplete, hne⟩
  obtain ⟨hb, htokens⟩ := layout_eq_linesOf.mp hl
  rw [Offside.tokens_finish, ← List.append_assoc] at htokens
  obtain ⟨rfl, -⟩ := List.append_inj' htokens rfl
  rw [Assembly.run_append] at hrun
  obtain ⟨c, hc, hd⟩ := Option.bind_eq_some_iff.mp hrun
  refine ⟨c, d, hb, hc, fun place' => ?_, hready⟩
  rw [← hd]
  exact Assembly.run_closing _ _ _

/-- A script that is read starts with the line of a statement, which has no indentation. -/
theorem first_of_parse (h : 1 ≤ rules.tabWidth) (hg : parse rules b file = .ok g) :
    ∃ l ls rest place head c, contentLines b = l :: ls ∧ rules.width l.indent = .ok 0 ∧
      Offside.mixedFaults rules l = [] ∧ layout rules b = .ok (l.token :: rest ++ [⟨.eof, place⟩]) ∧
      l.token.Reads Reader.head head ∧ Assembly.run ⟨head.stage, [], []⟩ rest = some c ∧
      c.move ⟨.eof, place⟩ = .complete g.statements := by
  obtain ⟨front, place, c, hl, -, hrun, hcomplete, -, -⟩ := exists_run_of_parse hg
  obtain ⟨st, hlevels⟩ := levels_of_layout h hl (firstFault?_of_run hrun)
  cases front with
  | nil =>
    cases hrun
    exact absurd hcomplete Assembly.initial_move_ne_complete
  | cons t rest =>
    obtain ⟨d, hm, hd⟩ := Assembly.run_cons.mp hrun
    obtain ⟨head, hr, rfl⟩ := Assembly.exists_reads_of_step (Assembly.step_of_move hm) rfl
    have hfirst : Levels rules [0] ([] ++ t :: rest) (contentLines b) st := hlevels
    obtain ⟨front, l, ls, hls, rfl, htexts, hw, hmix⟩ := hfirst.exists_line rfl hr.tag
    obtain rfl : front = [] := List.map_eq_nil_iff.mp htexts.symm
    exact ⟨l, ls, rest, place, head, c, hls, hw, hmix, hl, hr, hd, hcomplete⟩

/-- Two scripts in a row are a script, of the statements of both. -/
theorem parse_append (h : 1 ≤ rules.tabWidth) (ha : a.getLast? = some '\n')
    (hf : parse rules a file = .ok f) (hg : parse rules b file = .ok g) :
    ∃ e, parse rules (a ++ b) file = .ok e ∧
      e.statements = f.statements ++ g.statements.map (Statement.moved (.past a)) := by
  obtain ⟨c, d, hb, hc, hd, hready, hne⟩ := ready_of_parse hf
  obtain ⟨l, ls, rest, place, head, e, hls, hw, hm, hlb, hr, hrest, hcomplete⟩ :=
    first_of_parse h hg
  have hlayout := layout_join h (.inr ha) hb hls hw hm
  simp only [hlb, Except.map, List.map_append, ← List.append_assoc] at hlayout
  obtain ⟨head', e', hr', hrest', hcomplete'⟩ :=
    Assembly.exists_elsewhere (.past a) hr hrest hcomplete
  have hrun : Assembly.initial.run (frontOf rules a l ++
      (l.token :: rest).map (LayoutToken.moved (.past a))) = some (e'.after f.statements) := by
    have hmarks : ∀ t ∈ rest.map (LayoutToken.moved (.past a)), t.mark ≠ .eof := fun t ht =>
      Assembly.ne_eof_of_mem_run hrest' ht
    rw [frontOf, Assembly.run_append, Assembly.run_append, hc, Option.bind_some, hd,
      Option.bind_some, List.map_cons, Assembly.run_cons]
    refine ⟨_, hready.move hr', ?_⟩
    rw [← Assembly.after_mk, Assembly.run_after hmarks, hrest']
    rfl
  exact ⟨_, parse_of_run file hlayout hrun (Assembly.complete_after hcomplete'), rfl⟩

end Script

end NovelScript
