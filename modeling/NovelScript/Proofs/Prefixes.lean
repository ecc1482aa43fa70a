import NovelScript.Proofs.Breakdowns
import NovelScript.Proofs.Pipelines

/-!
# Faults on the lines of a prefix

A script that is refused on one of its first lines is refused in the same way whatever the lines
after those are. The reader never looks at a token of a later line before it reports the fault, and
the script has not ended while a line is left. Only a later line whose width cannot be told keeps
the fault from being reported.
-/

namespace NovelScript

namespace Assembly

/-- A fault lies on the line of one of the tokens, as one of them is the end. -/
theorem exists_line_of_finish {ts : List LayoutToken} {f : Fault} {a : Assembly}
    (h : a.finish ts = .error f) (he : ∃ t ∈ ts, t.mark = .eof) :
    ∃ t ∈ ts, f.spot.line = t.place.line := by
  induction ts generalizing a with
  | nil =>
    obtain ⟨t, ht, -⟩ := he
    exact nomatch ht
  | cons t ts ih =>
    have ho := outcome_move a t
    rw [finish] at h
    generalize a.move t = m at h ho
    cases ho with
    | on hb =>
      obtain ⟨u, hu, hm⟩ := he
      obtain rfl | hu := List.mem_cons.mp hu
      · exact absurd hm (ne_eof_of_step hb)
      · obtain ⟨v, hv, hline⟩ := ih h ⟨u, hu, hm⟩
        exact ⟨v, List.mem_cons_of_mem _ hv, hline⟩
    | ended => cases h
    | endedAfter => cases h
    | refuse what =>
      cases h
      exact ⟨t, List.mem_cons_self, rfl⟩
    | astray =>
      cases h
      exact ⟨t, List.mem_cons_self, rfl⟩
    | fault _ hf =>
      cases h
      exact ⟨t, List.mem_cons_self, hf.line⟩

end Assembly

namespace Script

variable {rules : LayoutRules} {p : List Char} {file : Option Path}

/-- The layout of a text that is continued: the tokens of its lines, and others on later lines. -/
theorem exists_layout_append (hp : p.getLast? = some '\n') {s : List Char}
    {tokens : List LayoutToken} (h : layout rules (p ++ s) = .ok tokens) :
    (linesOf rules p).breakdown = none ∧ ∃ us, tokens = (linesOf rules p).tokens ++ us ∧
      (∀ u ∈ us, (p.count '\n' : Int) < u.place.line) ∧ ∃ u ∈ us, u.mark = .eof := by
  obtain ⟨hb, rfl⟩ := layout_eq_linesOf.mp h
  obtain ⟨closers, hf, hclosers⟩ := Offside.finish_eq (p ++ s) (linesOf rules (p ++ s)).state
  have hb' := breakdown_linesOf_of_append (.inr hp) hb
  rw [hf, linesOf_append (.inr hp), Emission.andThen_of_none hb', Emission.after_tokens,
    List.append_assoc]
  refine ⟨hb', _, rfl, fun u hu => ?_, _, List.mem_append_right _ (List.mem_append_right _
    List.mem_cons_self), rfl⟩
  have hend : (p.count '\n' : Int) < (Offside.endPlace (p ++ s)).line := by
    simp only [Offside.endPlace, Text.length_lines, List.count_append]
    omega
  obtain hu | hu := List.mem_append.mp hu
  · obtain ⟨l, hl, hu⟩ := Offside.exists_liesOn_lines hu
    have := (contentLinesFrom_ordered _ _ _).2 l hl
    rw [hu.line]
    omega
  · obtain hu | hu := List.mem_append.mp hu
    · rwa [(hclosers u hu).1]
    · rwa [List.mem_singleton.mp hu]

/-- A fault on a line of a text stays the same when the text is continued otherwise. -/
theorem finish_append_of_line (h : 1 ≤ rules.tabWidth) {f : Fault} {us : List LayoutToken}
    (hb : (linesOf rules p).breakdown = none)
    (hf : Assembly.initial.finish ((linesOf rules p).tokens ++ us) = .error f)
    (hus : ∀ u ∈ us, (p.count '\n' : Int) < u.place.line) (he : ∃ u ∈ us, u.mark = .eof)
    (hline : f.spot.line ≤ p.count '\n') (vs : List LayoutToken) :
    Assembly.initial.finish ((linesOf rules p).tokens ++ vs) = .error f := by
  cases hr : Assembly.initial.run (linesOf rules p).tokens with
  | some b =>
    -- Then the fault is one of the later tokens.
    rw [Assembly.finish_append_of_run hr] at hf
    obtain ⟨u, hu, hul⟩ := Assembly.exists_line_of_finish hf he
    have := hus u hu
    omega
  | none =>
    obtain ⟨-, hnil⟩ | ⟨-, front, content, place, hlast⟩ := tokens_linesOf hb
    · rw [hnil] at hr
      exact nomatch hr
    · obtain ⟨g, -, hfin⟩ := Assembly.finish_of_run_none hlast (keeps_linesOf h p).unended hr
      have hg := hfin us
      rw [hf] at hg
      cases hg
      exact hfin vs

/-- Let `p` be a text that ends with a line feed. If a script that starts with `p` is refused on a
line of `p`, then every script that starts with `p` is refused by the same report, as long as its
layout can be told. -/
theorem parseLazily_append_of_line (rules : LayoutRules) (h : 1 ≤ rules.tabWidth) (p : List Char)
    (hp : p.getLast? = some '\n') (file : Option Path) (r : Report) (c : Context)
    (hc : r.context = some c) (hl : c.spot.line ≤ p.count '\n') (s : List Char)
    (hr : parseLazily rules (p ++ s) none file = .error (.refused r)) (t : List Char) :
    (¬LongDedent rules (p ++ t) →
      parseLazily rules (p ++ t) none file = .error (.refused r)) ∧
    (LongDedent rules (p ++ t) →
      parseLazily rules (p ++ t) none file = .error (.breakdown .longWidth)) := by
  constructor
  · intro hlong
    cases hls : layout rules (p ++ s) with
    | error b => simp [parseLazily, hls] at hr
    | ok tokens =>
      cases hlt : layout rules (p ++ t) with
      | error b => exact absurd ((layout_eq_error_iff h _ b).mp hlt).2 hlong
      | ok tokens' =>
        obtain ⟨hb, us, rfl, hus, he⟩ := exists_layout_append hp hls
        obtain ⟨-, vs, rfl, -, -⟩ := exists_layout_append hp hlt
        rw [parseLazily_of_layout file hls] at hr
        rw [parseLazily_of_layout file hlt]
        cases hf : Assembly.initial.finish ((linesOf rules p).tokens ++ us) with
        | ok ss => simp [hf] at hr
        | error f =>
          rw [hf] at hr
          cases hr
          cases hc
          rw [finish_append_of_line h hb hf hus he hl vs]
  · intro hlong
    rw [parseLazily, (layout_eq_error_iff h _ _).mpr ⟨rfl, hlong⟩]

/-- No statement starts with a digit, whatever follows. -/
theorem parseLazily_append_of_digit : ∃ r c, r.context = some c ∧
    c.spot.line ≤ ((['1', '\n'].count '\n' : Nat) : Int) ∧
    parseLazily {} (['1', '\n'] ++ []) none = .error (.refused r) ∧
    parseLazily {} (['1', '\n'] ++ ['-', ':', '\n']) none = .error (.refused r) := by
  have hl : layout {} (['1', '\n'] ++ []) = .ok [⟨.text ['1'], ⟨1, 1, 0, 1⟩⟩,
      ⟨.newline, ⟨2, 1, 2, 2⟩⟩, ⟨.eof, ⟨2, 1, 2, 2⟩⟩] := rfl
  obtain ⟨f, hline, hf⟩ : ∃ f : Fault, f.spot.line = 1 ∧
      Assembly.initial.finish [⟨.text ['1'], ⟨1, 1, 0, 1⟩⟩, ⟨.newline, ⟨2, 1, 2, 2⟩⟩,
        ⟨.eof, ⟨2, 1, 2, 2⟩⟩] = .error f := ⟨_, rfl, rfl⟩
  have hp : parseLazily {} (['1', '\n'] ++ []) none = .error (.refused (f.report none none)) := by
    rw [parseLazily_of_layout none hl, hf]
  have hle : f.spot.line ≤ ((['1', '\n'].count '\n' : Nat) : Int) := Int.le_of_eq hline
  have hlong : ¬LongDedent {} (['1', '\n'] ++ ['-', ':', '\n']) := fun h =>
    nomatch (layout_eq_error_iff (by decide) _ _).mpr ⟨rfl, h⟩
  exact ⟨_, _, rfl, hle, hp, (parseLazily_append_of_line {} (by decide) ['1', '\n'] rfl none _ _
    rfl hle [] hp ['-', ':', '\n']).1 hlong⟩

end Script

end NovelScript
