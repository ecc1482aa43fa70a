import Mathlib
import NovelScript.Proofs.Concatenation

/-!
# A script is cut in two

Where a statement of the outermost sequence follows another one, the script is ready for its line.
That line has no indentation, so the lines before it are a script of their own, and so are the
lines from there on.
-/

namespace NovelScript

open Line

namespace Assembly

variable {a b : Assembly} {t : LayoutToken} {ts : List LayoutToken} {ss : List Statement}

/-- The statements of the outermost sequence that stand before the one that is being read. -/
def topOf (done : List Statement) : List (Owner × List Statement) → List Statement
  | [] => done
  | (_, before) :: outer => topOf before outer

def top (a : Assembly) : List Statement := topOf a.done a.outer

/-- The outermost sequence grows by the line of the next statement or by a separator. -/
theorem top_of_step (h : Step a t b) : b.top = a.top ∨ ∃ s, b.top = a.top ++ [s] ∧
    ((a.Ready b.top ∧ ∃ x, t.Reads Reader.head x ∧ b = ⟨x.stage, b.top, []⟩) ∨
      b = ⟨.line, b.top, []⟩) := by
  obtain ⟨stage, done, outer⟩ := a
  cases h with
  | @next s head hs hc hr =>
    cases outer with
    | nil => exact .inr ⟨s, rfl, .inl ⟨⟨rfl, .inr ⟨s, hs, hc, rfl⟩⟩, head, hr, rfl⟩⟩
    | cons o outer => exact .inl rfl
  | @separate s =>
    cases outer with
    | nil => exact .inr ⟨s, rfl, .inr rfl⟩
    | cons o outer => exact .inl rfl
  | close hs ho =>
    obtain rfl : outer = _ := ho
    exact .inl rfl
  | _ => exact .inl rfl

/-- A run that reads the statements `ss` and goes on is ready for the next line at some moment. -/
theorem exists_moment (h : a.run ts = some b) (ha : ¬ss <+: a.top) (hb : ss <+: b.top) :
    b = ⟨.line, ss, []⟩ ∨ ∃ us t vs d x, ts = us ++ t :: vs ∧ a.run us = some d ∧ d.Ready ss ∧
      t.Reads Reader.head x ∧ run ⟨x.stage, ss, []⟩ vs = some b := by
  induction ts generalizing a with
  | nil =>
    cases h
    exact absurd hb ha
  | cons t ts ih =>
    obtain ⟨c, hm, hc⟩ := run_cons.mp h
    by_cases hpc : ss <+: c.top
    · obtain htop | ⟨s, htop, hcases⟩ := top_of_step (step_of_move hm)
      · exact absurd (htop ▸ hpc) ha
      · have hss : ss = c.top := by
          rw [htop, List.prefix_concat_iff] at hpc
          rw [htop]
          exact hpc.resolve_right ha
        rw [← hss] at hcases
        obtain ⟨hready, x, hr, rfl⟩ | rfl := hcases
        · exact .inr ⟨[], t, ts, a, x, rfl, rfl, hready, hr, hc⟩
        · -- The line after the separator is the next token, if the run goes on.
          cases ts with
          | nil =>
            cases hc
            exact .inl rfl
          | cons u vs =>
            obtain ⟨d, hu, hd⟩ := run_cons.mp hc
            obtain ⟨x, hr, rfl⟩ := exists_reads_of_step (step_of_move hu) rfl
            exact .inr ⟨[t], u, vs, ⟨.line, ss, []⟩, x, rfl, run_cons.mpr ⟨_, hm, rfl⟩,
              ⟨rfl, .inl ⟨rfl, rfl⟩⟩, hr, hd⟩
    · obtain hend | ⟨us, u, vs, d, x, rfl, hus, hready, hr, hvs⟩ := ih hc hpc
      · exact .inl hend
      · exact .inr ⟨t :: us, u, vs, d, x, rfl, run_cons.mpr ⟨c, hm, hus⟩, hready, hr, hvs⟩

/-- The statements before another one of a complete script were read at some moment. -/
theorem exists_moment_of_complete {s : Statement} {rest : List Statement} {e : LayoutToken}
    (h : initial.run ts = some b) (he : b.move e = .complete (ss ++ s :: rest)) (hne : ss ≠ []) :
    ∃ us t vs d x, ts = us ++ t :: vs ∧ initial.run us = some d ∧ d.Ready ss ∧
      t.Reads Reader.head x ∧ run ⟨x.stage, ss, []⟩ vs = some b := by
  obtain ⟨-, ho, hcases⟩ := move_eq_complete_iff.mp he
  have htop : b.top = b.done := by rw [top, ho]; rfl
  have hprefix : ss <+: b.top ∧ b ≠ ⟨.line, ss, []⟩ := by
    rw [htop]
    obtain ⟨-, -, hdone⟩ | ⟨s', hs', hdone⟩ := hcases
    · refine ⟨hdone ▸ List.prefix_append _ _, ?_⟩
      rintro rfl
      simp at hdone
    · refine ⟨?_, ?_⟩
      · have hp : ss <+: b.done ++ [s'] := hdone ▸ List.prefix_append _ _
        rw [List.prefix_concat_iff] at hp
        refine hp.resolve_left fun heq => ?_
        rw [← heq] at hdone
        simp at hdone
      · rintro rfl
        cases hs'
  refine (exists_moment h ?_ hprefix.1).resolve_left hprefix.2
  exact fun hp => hne (List.prefix_nil.mp hp)

theorem Ready.depth_eq_zero (ha : a.Ready ss) : a.depth = 0 := by
  rw [depth, ha.outer]
  obtain ⟨hs, -⟩ | ⟨s, hs, -⟩ := ha.last
  · rw [hs]
    rfl
  · rw [Stage.levels_of_statement? hs]
    rfl

end Assembly

/-- A list of tokens is cut before a text in one way for each number of texts before the cut. -/
theorem append_inj_of_texts {us us' vs vs' : List LayoutToken} {t t' : LayoutToken}
    (h : us ++ t :: vs = us' ++ t' :: vs') (ht : t.tag = .text) (ht' : t'.tag = .text)
    (hn : (textsOf us).length = (textsOf us').length) : us = us' ∧ t = t' ∧ vs = vs' := by
  have hnil : ∀ {u : LayoutToken} {ws xs ys : List LayoutToken}, u :: xs = ws ++ ys →
      u.tag = .text → (textsOf ws).length = 0 → ws = [] := by
    intro u ws xs ys he hu hlen
    cases ws with
    | nil => rfl
    | cons w ws =>
      obtain ⟨rfl, -⟩ := List.cons.inj he
      rw [textsOf_cons_of_text hu] at hlen
      cases hlen
  obtain ⟨ws, rfl, hvs⟩ | ⟨ws, rfl, hvs⟩ := List.append_eq_append_iff.mp h
  · rw [textsOf_append, List.length_append] at hn
    obtain rfl := hnil hvs ht (by omega)
    exact ⟨(List.append_nil us).symm, List.cons.inj hvs⟩
  · rw [textsOf_append, List.length_append] at hn
    obtain rfl := hnil hvs ht' (by omega)
    obtain ⟨rfl, rfl⟩ := List.cons.inj hvs
    exact ⟨List.append_nil us', rfl, rfl⟩

/-! Texts are cut before a content line. -/

/-- The offset at which the line starts that holds the given offset. -/
def Text.lineStart (cs : List Char) (offset : Nat) : Nat :=
  (cs.take offset).length - tailLength (cs.take offset)

theorem Text.lineStart_append {a b : List Char} (ha : a = [] ∨ a.getLast? = some '\n') {n : Nat}
    (hn : '\n' ∉ b.take n) : lineStart (a ++ b) (a.length + n) = a.length := by
  have htail : tailLength (b.take n) = (b.take n).length := by
    rw [tailLength, List.takeWhile_eq_self_iff.mpr, List.length_reverse]
    intro c hc
    have hne : c ≠ '\n' := fun he => hn (he ▸ List.mem_reverse.mp hc)
    simp [hne]
  rw [lineStart, List.take_length_add_append, tailLength_append ha, htail, List.length_append,
    Nat.add_sub_cancel]

theorem contentLines_of_not_mem {line : List Char} (h : '\n' ∉ line) :
    contentLines line = (ContentLine.ofLine? 1 0 line).toList := by
  rw [contentLines, Text.lines_of_not_mem h, contentLinesFrom]
  cases ContentLine.ofLine? 1 0 line <;> rfl

theorem contentLines_cons {line : List Char} (h : '\n' ∉ line) (b : List Char) :
    contentLines (line ++ '\n' :: b) = (ContentLine.ofLine? 1 0 line).toList ++
      (contentLines b).map (ContentLine.later (line ++ ['\n'])) := by
  have hline : contentLines (line ++ ['\n']) = (ContentLine.ofLine? 1 0 line).toList := by
    rw [contentLines, Text.lines_append, Text.lines_of_not_mem h, List.singleton_append,
      contentLinesFrom]
    cases ContentLine.ofLine? 1 0 line <;> rfl
  rw [← hline, ← contentLines_join (.inr (by simp)), List.append_assoc, List.singleton_append]

theorem ContentLine.later_later (p q : List Char) (l : ContentLine) :
    (l.later q).later p = l.later (p ++ q) := by
  simp only [later, ContentLine.mk.injEq, List.count_append, List.length_append, and_true]
  omega

/-- The text `a ++ b` is cut where the line of the content line `l` starts, and the content lines
before that are `ls`. -/
structure Cut (a b : List Char) (ls : List ContentLine) (l : ContentLine) : Prop where
  feed : a = [] ∨ a.getLast? = some '\n'
  before : contentLines a = ls
  first : ∃ line m ms, ContentLine.ofLine? 1 0 line = some m ∧ line <+: b ∧ '\n' ∉ line ∧
    contentLines b = m :: ms ∧ l = m.later a

theorem cut_nil {b line : List Char} {m : ContentLine} {ms : List ContentLine}
    (hm : ContentLine.ofLine? 1 0 line = some m) (hp : line <+: b) (hline : '\n' ∉ line)
    (hb : contentLines b = m :: ms) : Cut [] b [] m :=
  ⟨.inl rfl, rfl, line, m, ms, hm, hp, hline, hb, rfl⟩

theorem Cut.cons {a b line : List Char} {ls : List ContentLine} {l : ContentLine}
    (h : Cut a b ls l) (hline : '\n' ∉ line) :
    Cut (line ++ '\n' :: a) b ((ContentLine.ofLine? 1 0 line).toList ++
      ls.map (ContentLine.later (line ++ ['\n']))) (l.later (line ++ ['\n'])) := by
  obtain ⟨ha, rfl, line', m, ms, hm, hp, hline', hb, rfl⟩ := h
  refine ⟨.inr ?_, contentLines_cons hline a, line', m, ms, hm, hp, hline', hb, ?_⟩
  · obtain rfl | ha := ha
    · simp
    · obtain ⟨u, rfl⟩ := List.getLast?_eq_some_iff.mp ha
      simp [List.getLast?_append, List.getLast?_cons]
  · rw [ContentLine.later_later, List.append_assoc, List.singleton_append]

theorem exists_cut {text : List Char} {ls ms : List ContentLine} {l : ContentLine}
    (h : contentLines text = ls ++ l :: ms) : ∃ a b, text = a ++ b ∧ Cut a b ls l := by
  induction hn : text.length using Nat.strongRecOn generalizing text ls ms l with
  | ind n ih =>
    by_cases hmem : '\n' ∈ text
    · obtain ⟨line, text', rfl, hline⟩ := List.eq_append_cons_of_mem hmem
      -- A line behind the first line feed is cut off within the text behind it.
      have hlater : ∀ {ls : List ContentLine},
          (contentLines text').map (ContentLine.later (line ++ ['\n'])) = ls ++ l :: ms →
          ∃ a b, line ++ '\n' :: text' = a ++ b ∧
            Cut a b ((ContentLine.ofLine? 1 0 line).toList ++ ls) l := by
        intro ls hls
        obtain ⟨ls', ls'', hsplit, rfl, htail⟩ := List.map_eq_append_iff.mp hls
        obtain ⟨l', ms', rfl, rfl, rfl⟩ := List.map_eq_cons_iff.mp htail
        obtain ⟨a, b, rfl, hcut⟩ := ih text'.length (by simp [← hn]; omega) hsplit rfl
        exact ⟨line ++ '\n' :: a, b, by simp, hcut.cons hline⟩
      have hc := contentLines_cons hline text'
      cases hl : ContentLine.ofLine? 1 0 line with
      | none =>
        rw [hl] at hc hlater
        exact hlater (hc.symm.trans h)
      | some m =>
        rw [hl] at hc hlater
        cases ls with
        | nil =>
          obtain ⟨rfl, -⟩ := List.cons.inj (hc.symm.trans h)
          exact ⟨[], _, rfl, cut_nil hl (List.prefix_append _ _) hline hc⟩
        | cons l' ls =>
          obtain ⟨rfl, htail⟩ := List.cons.inj (hc.symm.trans h)
          exact hlater htail
    · have hc := contentLines_of_not_mem hmem
      cases hl : ContentLine.ofLine? 1 0 text with
      | none => simp [hl, h] at hc
      | some m =>
        rw [hl] at hc
        cases ls with
        | nil =>
          obtain ⟨rfl, -⟩ := List.cons.inj (hc.symm.trans h)
          exact ⟨[], text, rfl, cut_nil hl List.prefix_rfl hmem hc⟩
        | cons l' ls => simp [h] at hc

namespace Script

variable {rules : LayoutRules} {text a b : List Char} {file : Option Path} {e f g : SourceFile}
  {ss ts : List Statement} {s : Statement} {us vs : List LayoutToken} {t : LayoutToken}
  {l m : ContentLine} {ls ms : List ContentLine} {place : Place} {c d : Assembly} {x : Head}

theorem texts_frontOf (hb : (linesOf rules a).breakdown = none) (m : ContentLine) :
    textsOf (frontOf rules a m) = (contentLines a).map ContentLine.token := by
  have hclosing : textsOf ((linesOf rules a).state.closing (m.later a).place.opening) = [] := by
    refine textsOf_eq_nil fun t ht => ?_
    rw [LayoutToken.tag]
    obtain he | he := Offside.mark_of_mem_closing ht <;> rw [he] <;> decide
  rw [frontOf, textsOf_append, hclosing, List.append_nil]
  exact (Offside.lines_split hb).1

/-- The layout of a text that is cut before a line without indentation. -/
theorem layout_of_cut (h : 1 ≤ rules.tabWidth)
    (hl : layout rules (a ++ b) = .ok (us ++ l.token :: (vs ++ [⟨.eof, place⟩])))
    (hcut : Cut a b ls l) (hus : textsOf us = ls.map ContentLine.token)
    (hw : rules.width l.indent = .ok 0) (hm : Offside.mixedFaults rules l = []) :
    ∃ m ms, contentLines b = m :: ms ∧ l = m.later a ∧ (linesOf rules a).breakdown = none ∧
      us = frontOf rules a m ∧ layout rules b = .ok (m.token ::
        (vs.map (LayoutToken.moved (Distance.past a).back) ++
          [LayoutToken.moved (Distance.past a).back ⟨.eof, place⟩])) := by
  obtain ⟨ha, rfl, -, m, ms, -, -, -, hb, rfl⟩ := hcut
  have hbreak := breakdown_linesOf_of_append ha (layout_eq_linesOf.mp hl).1
  have hm' : Offside.mixedFaults rules m = [] := by
    rwa [Offside.mixedFaults_later, List.map_eq_nil_iff] at hm
  have hjoin := layout_join h ha hbreak hb hw hm'
  rw [hl] at hjoin
  cases hlb : layout rules b with
  | error e => rw [hlb] at hjoin; cases hjoin
  | ok tokens =>
    obtain ⟨tokens, rfl⟩ : ∃ rest, tokens = m.token :: rest := by
      obtain ⟨-, rfl⟩ := layout_eq_linesOf.mp hlb
      rw [linesOf_of_first hb hw hm']
      exact ⟨_, rfl⟩
    rw [hlb] at hjoin
    have hsplit := Except.ok.inj hjoin
    simp only [List.map_cons, ← ContentLine.token_later] at hsplit
    obtain ⟨hfront, -, hrest⟩ := append_inj_of_texts hsplit rfl rfl (by
      rw [hus, texts_frontOf hbreak])
    refine ⟨m, ms, hb, rfl, hbreak, hfront, ?_⟩
    have hback : (tokens.map (LayoutToken.moved (.past a))).map
        (LayoutToken.moved (Distance.past a).back) = tokens := by
      rw [List.map_map]
      exact (List.map_congr_left fun t _ => t.moved_back _).trans (List.map_id _)
    rw [← hback, ← hrest, List.map_append]
    rfl

/-- Lines after which a script is ready are a script. -/
theorem parse_of_ready (file : Option Path) (hb : (linesOf rules a).breakdown = none)
    (hrun : Assembly.initial.run (frontOf rules a m) = some d) (hready : d.Ready ss)
    (hne : ss ≠ []) : parse rules a file = .ok ⟨ss, file, Parser.extentOf ss⟩ := by
  have hlayout := layout_eq_linesOf.mpr ⟨hb, rfl⟩
  rw [Offside.tokens_finish, ← List.append_assoc] at hlayout
  refine parse_of_run file hlayout ?_ (hready.complete hne rfl)
  rw [frontOf, Assembly.run_append] at hrun
  obtain ⟨c, hc, hd⟩ := Option.bind_eq_some_iff.mp hrun
  rw [Assembly.run_append, hc, Option.bind_some, ← hd]
  exact Assembly.run_closing _ _ _

/-- Lines that complete a script after other statements are a script on their own. -/
theorem exists_parse_of_after (file : Option Path) (k : Distance)
    (hl : layout rules b = .ok (t.moved k :: (vs.map (LayoutToken.moved k) ++
      [LayoutToken.moved k ⟨.eof, place⟩])))
    (hr : t.Reads Reader.head x) (hrun : Assembly.run ⟨x.stage, ss, []⟩ vs = some c)
    (hc : c.move ⟨.eof, place⟩ = .complete ts) : ∃ g, parse rules b file = .ok g := by
  rw [← Assembly.after_mk, Assembly.run_after fun t ht => Assembly.ne_eof_of_mem_run hrun ht,
    Option.map_eq_some_iff] at hrun
  obtain ⟨c, hrun, rfl⟩ := hrun
  have hall : Assembly.initial.run (t :: vs) = some c :=
    Assembly.run_cons.mpr ⟨_, Assembly.move_of_step (.first rfl hr), hrun⟩
  obtain ⟨us, hus⟩ := Assembly.exists_complete_of_after hc (Assembly.begun_of_run hall)
  obtain ⟨x', c', hr', hrun', hus'⟩ := Assembly.exists_elsewhere k hr hrun hus
  have hall' : Assembly.initial.run (t.moved k :: vs.map (LayoutToken.moved k)) = some c' :=
    Assembly.run_cons.mpr ⟨_, Assembly.move_of_step (.first rfl hr'), hrun'⟩
  exact ⟨_, parse_of_run file hl hall' hus'⟩

/-- Before a statement that follows another one a script is cut into two scripts. -/
theorem exists_cut_of_parse (h : 1 ≤ rules.tabWidth) (he : parse rules text file = .ok e)
    (hs : e.statements = ss ++ s :: ts) (hne : ss ≠ []) : ∃ a b ls l f g, text = a ++ b ∧
      Cut a b ls l ∧ a.getLast? = some '\n' ∧ parse rules a file = .ok f ∧
      parse rules b file = .ok g ∧ f.statements = ss ∧
      g.statements.map (Statement.moved (.past a)) = s :: ts := by
  obtain ⟨front, place, c, hl, -, hrun, hcomplete, -, -⟩ := exists_run_of_parse he
  obtain ⟨st, hlevels⟩ := levels_of_layout h hl (firstFault?_of_run hrun)
  have hcomplete' := hcomplete
  rw [hs] at hcomplete'
  obtain ⟨us, t, vs, d, x, rfl, hus, hready, hr, hvs⟩ :=
    Assembly.exists_moment_of_complete hrun hcomplete' hne
  have hrise : riseOf us = 0 := by
    have hdepth := Assembly.depth_of_run hus
    rw [hready.depth_eq_zero] at hdepth
    exact (Int.zero_add _).symm.trans hdepth.symm
  obtain ⟨ls, l, ms, hlines, rfl, htexts, hw, hm⟩ := hlevels.exists_line hrise hr.tag
  obtain ⟨a, b, rfl, hcut⟩ := exists_cut hlines
  have hl' := hl
  rw [List.append_assoc, List.cons_append] at hl'
  obtain ⟨m, ms', hb, rfl, hbreak, rfl, hlb⟩ := layout_of_cut h hl' hcut htexts hw hm
  have hf := parse_of_ready file hbreak hus hready hne
  obtain ⟨g, hg⟩ : ∃ g, parse rules b file = .ok g := by
    rw [← m.token.moved_back (.past a), ← ContentLine.token_later] at hlb
    exact exists_parse_of_after file (Distance.past a).back hlb hr hvs hcomplete
  have ha : a.getLast? = some '\n' := by
    refine hcut.feed.resolve_left ?_
    rintro rfl
    obtain ⟨l, ls, _, _, _, _, hnil, -⟩ := first_of_parse h hf
    cases hnil
  obtain ⟨e', he', hstat⟩ := parse_append h ha hf hg
  obtain rfl : e = e' := Except.ok.inj (he.symm.trans he')
  rw [hs] at hstat
  exact ⟨a, b, ls, _, _, g, rfl, hcut, ha, hf, hg, rfl, (List.append_cancel_left hstat).symm⟩

/-- The first statement of a script starts after the blanks of the first content line. -/
theorem start_of_first (hg : parse rules b file = .ok g) (hs : g.statements = s :: ts)
    (hb : contentLines b = m :: ms) : s.span.start = m.token.place.start + m.token.blanks := by
  obtain ⟨front, place, -, hshows, hshape⟩ := shows_of_parse hg
  obtain ⟨ps, hps⟩ := s.flat_eq_cons
  have hflat : ∃ qs, g.flat = .line (some s.span.start) s.heading :: qs := by
    rw [SourceFile.flat, hs, flatAll, List.flatMap_cons, hps]
    exact ⟨_, rfl⟩
  obtain ⟨qs, hflat⟩ := hflat
  rw [hflat] at hshows
  obtain ⟨t, front, hshow, -, rfl⟩ := List.forall₂_cons_right_iff.mp hshows
  have htexts := hshape.texts
  rw [hb, List.cons_append, textsOf_cons_of_text hshow.tag, List.map_cons] at htexts
  obtain ⟨rfl, -⟩ := List.cons.inj htexts
  exact hshow.start _ _ rfl

/-- A script is cut where the line of its statement starts. -/
theorem lineStart_of_cut (hcut : Cut a b ls l) (hg : parse rules b file = .ok g)
    (hgs : g.statements.map (Statement.moved (.past a)) = s :: ts) :
    Text.lineStart (a ++ b) s.span.start.toNat = a.length := by
  obtain ⟨ha, -, line, m, ms, hm, hp, hline, hb, -⟩ := hcut
  obtain ⟨s, ts, hs, rfl, rfl⟩ := List.map_eq_cons_iff.mp hgs
  have hstart := start_of_first hg hs hb
  obtain ⟨body, hbody, rfl, -, -⟩ := ContentLine.exists_of_ofLine? hm
  generalize hk : LayoutToken.blanks _ = k at hstart
  have hle : (body.takeWhile Text.isIndent).length + k ≤ body.length := by
    have hblanks : k ≤ (body.dropWhile Text.isIndent).length := by
      rw [← hk]
      exact (List.takeWhile_prefix _).length_le
    have hbody := congrArg List.length (body.takeWhile_append_dropWhile (p := Text.isIndent))
    rw [List.length_append] at hbody
    omega
  have hn : (s.moved (.past a)).span.start.toNat =
      a.length + ((body.takeWhile Text.isIndent).length + k) := by
    rw [Statement.moved_span]
    simp only [Span.moved, Distance.past, hstart, ContentLine.token, ContentLine.place,
      ContentLine.start]
    omega
  rw [hn]
  refine Text.lineStart_append ha fun hmem => hline ?_
  -- The blanks and the white space before them belong to the line.
  have htake : b.take ((body.takeWhile Text.isIndent).length + k) <+: line := by
    refine List.prefix_of_prefix_length_le (List.take_prefix _ _) hp ?_
    have := hbody.length_le
    have := List.length_take_le ((body.takeWhile Text.isIndent).length + k) b
    omega
  exact htake.subset hmem

/-- Two scripts in a row are a script of the statements of both, where the second ones stand
further on by the lines and characters of the first script. And a script that is cut where the line
of one of its statements starts, but not the first one, is two scripts in a row. -/
theorem parse_append_and_cut (rules : LayoutRules) (h : 1 ≤ rules.tabWidth) (file : Option Path) :
    (∀ (a b : List Char) (f g : SourceFile), a.getLast? = some '\n' →
      parse rules a file = .ok f → parse rules b file = .ok g →
      ∃ e, parse rules (a ++ b) file = .ok e ∧
        e.statements = f.statements ++ g.statements.map (Statement.moved (.past a))) ∧
    ∀ (text : List Char) (e : SourceFile) (ss ts : List Statement) (s : Statement),
      parse rules text file = .ok e → e.statements = ss ++ s :: ts → ss ≠ [] →
      let n := Text.lineStart text s.span.start.toNat
      (text.take n).getLast? = some '\n' ∧
      ∃ f g, parse rules (text.take n) file = .ok f ∧ parse rules (text.drop n) file = .ok g ∧
        f.statements = ss ∧
        g.statements.map (Statement.moved (.past (text.take n))) = s :: ts := by
  refine ⟨fun a b f g ha hf hg => parse_append h ha hf hg, fun text e ss ts s he hs hne => ?_⟩
  obtain ⟨a, b, ls, l, f, g, rfl, hcut, ha, hf, hg, hss, hst⟩ := exists_cut_of_parse h he hs hne
  simp only [lineStart_of_cut hcut hg hst, List.take_left, List.drop_left]
  exact ⟨ha, f, g, hf, hg, hss, hst⟩

/-- A script that ends in a block. -/
def branchScript : List Char := "if x:\n  eve 'hi'\n".toList

def jumpScript : List Char := "jump start\n".toList

theorem parse_append_and_cut_branchScript :
    (∃ f g e, parse {} branchScript = .ok f ∧ parse {} jumpScript = .ok g ∧
      parse {} (branchScript ++ jumpScript) = .ok e ∧
      e.statements = f.statements ++ g.statements.map (Statement.moved (.past branchScript))) ∧
    ∃ e ss s ts f g, parse {} (branchScript ++ jumpScript) = .ok e ∧
      e.statements = ss ++ s :: ts ∧ ss ≠ [] ∧
      parse {} ((branchScript ++ jumpScript).take
        (Text.lineStart (branchScript ++ jumpScript) s.span.start.toNat)) = .ok f ∧
      parse {} ((branchScript ++ jumpScript).drop
        (Text.lineStart (branchScript ++ jumpScript) s.span.start.toNat)) = .ok g ∧
      f.statements = ss := by
  obtain ⟨f, hf⟩ := exists_of_toBool (x := parse {} branchScript) (by cbv)
  obtain ⟨g, hg⟩ := exists_of_toBool (x := parse {} jumpScript) (by cbv)
  obtain ⟨happend, hcut⟩ := parse_append_and_cut {} (by decide) none
  obtain ⟨e, he, hstat⟩ := happend branchScript jumpScript f g (by decide) hf hg
  obtain ⟨-, -, -, -, -, -, hne⟩ := ready_of_parse hf
  obtain ⟨-, -, -, -, -, -, hne'⟩ := ready_of_parse hg
  obtain ⟨s, ts, hs⟩ := List.exists_cons_of_ne_nil hne'
  have hsplit := hstat
  rw [hs, List.map_cons] at hsplit
  obtain ⟨-, f', g', hf', hg', hss, -⟩ := hcut _ e _ _ _ he hsplit hne
  exact ⟨⟨f, g, e, hf, hg, he, hstat⟩, e, _, _, _, f', g', he, hsplit, hne, hf', hg', hss⟩

end Script

end NovelScript
