import NovelScript.Proofs.Pointing
import NovelScript.Proofs.Reindenting

/-!
# The line that an excerpt marks

The lines of a script are numbered by its line feeds, but an excerpt is cut at every line boundary
of Unicode. It shows the line of its fault as long as no other boundary stands above the end of that
line. Numbers and marker are right in any case.
-/

namespace NovelScript

namespace Text

/-- No line ends within the text. -/
def Unbroken (line : List Char) : Prop := ∀ c ∈ line, isLineBoundary c = false

variable {c : Char} {cs line m u text shown : List Char} {ms : List (List Char)} {i : Nat}

theorem isBlank_of_isLineBoundary (h : isLineBoundary c) : isBlank c := by
  simp only [isLineBoundary, isBlank, Bool.or_eq_true, Bool.and_eq_true, decide_eq_true_eq,
    beq_iff_eq] at h ⊢
  omega

/-- The lines with one more character in front. -/
def consLine (c : Char) (ls : List (List Char)) : List (List Char) :=
  if isLineBoundary c then [] :: ls
  else match ls with
    | l :: ls => (c :: l) :: ls
    | [] => [[c]]

theorem consLine_of_not_boundary (hc : isLineBoundary c = false) :
    consLine c (m :: ms) = (c :: m) :: ms := by
  rw [consLine, hc]
  rfl

theorem consLine_append (h : ms ≠ []) (ls : List (List Char)) :
    consLine c (ms ++ ls) = consLine c ms ++ ls := by
  cases ms with
  | nil => exact absurd rfl h
  | cons m ms =>
    unfold consLine
    split <;> rfl

theorem boundaryLines_cons (h : c = '\r' → cs.head? ≠ some '\n') :
    boundaryLines (c :: cs) = consLine c (boundaryLines cs) := by
  rw [boundaryLines]
  · rfl
  · rintro ds rfl rfl
    exact h rfl rfl

theorem boundaryLines_ne_nil (h : cs ≠ []) : boundaryLines cs ≠ [] := by
  fun_cases boundaryLines cs <;> simp_all

/-- A line feed ends a line, whatever follows. -/
theorem boundaryLines_append (h : '\n' ∉ u) (v : List Char) :
    boundaryLines (u ++ '\n' :: v) = boundaryLines (u ++ ['\n']) ++ boundaryLines v := by
  induction u with
  | nil => rfl
  | cons c u ih =>
    obtain ⟨-, hu⟩ := List.ne_and_not_mem_of_not_mem_cons h
    by_cases hpair : c = '\r' ∧ u = []
    · obtain ⟨rfl, rfl⟩ := hpair
      rfl
    · have hapart : ∀ w, c = '\r' → (u ++ '\n' :: w).head? ≠ some '\n' := by
        rintro w hc he
        cases u with
        | nil => exact hpair ⟨hc, rfl⟩
        | cons d u =>
          obtain rfl : d = '\n' := by simpa using he
          exact hu List.mem_cons_self
      rw [List.cons_append, List.cons_append, boundaryLines_cons (hapart v),
        boundaryLines_cons (hapart []), ih hu, consLine_append (boundaryLines_ne_nil (by simp))]

theorem Unbroken.boundaryLines_append (h : Unbroken line) (hcs : boundaryLines cs = m :: ms) :
    boundaryLines (line ++ cs) = (line ++ m) :: ms := by
  induction line with
  | nil => exact hcs
  | cons c line ih =>
    have hc : isLineBoundary c = false := h c List.mem_cons_self
    have hreturn : c ≠ '\r' := by
      rintro rfl
      cases hc
    rw [List.cons_append, boundaryLines_cons fun he => absurd he hreturn,
      ih fun d hd => h d (List.mem_cons_of_mem _ hd), consLine_of_not_boundary hc]
    rfl

theorem Unbroken.boundaryLines_ended (h : Unbroken line) (hcs : boundaryLines cs = [[]]) :
    boundaryLines (line ++ cs) = [line] := by
  rw [h.boundaryLines_append hcs, List.append_nil]

theorem Unbroken.boundaryLines_eq (h : Unbroken line) (hne : line ≠ []) :
    boundaryLines line = [line] := by
  obtain ⟨front, c, rfl⟩ : ∃ front c, line = front ++ [c] :=
    ⟨_, _, (List.dropLast_append_getLast hne).symm⟩
  obtain ⟨hfront, hlast⟩ := List.forall_mem_append.mp h
  have hc : isLineBoundary c = false := hlast c List.mem_cons_self
  have hend : boundaryLines [c] = [[c]] := by
    rw [boundaryLines_cons fun _ => by simp, boundaryLines, consLine, hc]
    rfl
  exact Unbroken.boundaryLines_append hfront hend

/-- A line without boundaries but for its own end is one line. -/
theorem boundaryLines_line (h : Unbroken (body line)) (hne : line ≠ []) :
    boundaryLines line = [body line] := by
  obtain hline | hline := eq_body_or line
  · have hbody := h.boundaryLines_eq (hline ▸ hne)
    rwa [← hline] at hbody ⊢
  · have hend := h.boundaryLines_ended (rfl : boundaryLines ['\r'] = [[]])
    rwa [← hline] at hend

theorem boundaryLines_feed (h : Unbroken (body line)) :
    boundaryLines (line ++ ['\n']) = [body line] := by
  obtain hline | hline := eq_body_or line
  · have hend := h.boundaryLines_ended (rfl : boundaryLines ['\n'] = [[]])
    rwa [← hline] at hend ⊢
  · have hend := h.boundaryLines_ended (rfl : boundaryLines ['\r', '\n'] = [[]])
    rwa [← List.singleton_append, ← List.append_assoc, ← hline] at hend

/-- Nothing but the boundaries is lost between the lines. -/
theorem flatten_boundaryLines (cs : List Char) :
    (boundaryLines cs).flatten = cs.filter fun c => !isLineBoundary c := by
  fun_induction boundaryLines cs with
  | case1 => rfl
  | case2 cs ih => exact ih
  | case3 c cs hpair hc ih => rw [List.flatten_cons, ih, List.filter_cons_of_neg (by simpa)]; rfl
  | case4 c cs hpair hc l ls hls ih =>
    rw [List.filter_cons_of_pos (by simpa using hc), ← ih, hls]
    rfl
  | case5 c cs hpair hc hls ih =>
    rw [List.filter_cons_of_pos (by simpa using hc), ← ih, hls]
    rfl

theorem unbroken_of_mem_boundaryLines (h : line ∈ boundaryLines cs) : Unbroken line := by
  intro c hc
  have hmem : c ∈ (boundaryLines cs).flatten := List.mem_flatten_of_mem h hc
  rw [flatten_boundaryLines] at hmem
  simpa using (List.mem_filter.mp hmem).2

/-- Every line of the text that is not empty has its number among the lines it is cut into. The line
with this number is the right one if neither it nor any line above it is broken. -/
theorem exists_boundaryLine {ls : List (List Char)} (hls : ∀ l ∈ ls, '\n' ∉ l) {i : Nat}
    (h : ls[i]? = some line) (hne : line ≠ []) :
    ∃ shown, (boundaryLines (joinWith ['\n'] ls))[i]? = some shown ∧
      ((∀ l ∈ ls.take (i + 1), Unbroken (body l)) → shown = body line) := by
  induction ls generalizing i with
  | nil => cases h
  | cons l ls ih =>
    obtain ⟨hl, hrest⟩ := List.forall_mem_cons.mp hls
    cases ls with
    | nil =>
      obtain ⟨rfl, rfl⟩ : i = 0 ∧ l = line := by
        cases i with
        | zero => exact ⟨rfl, Option.some.inj h⟩
        | succ i => cases h
      obtain ⟨shown, rest, hcut⟩ := List.exists_cons_of_ne_nil (boundaryLines_ne_nil hne)
      rw [joinWith]
      refine ⟨shown, by rw [hcut]; rfl, fun hplain => ?_⟩
      rw [boundaryLines_line (hplain l List.mem_cons_self) hne] at hcut
      exact (List.cons.inj hcut).1.symm
    | cons k ks =>
      obtain ⟨first, more, hcut⟩ :=
        List.exists_cons_of_ne_nil (boundaryLines_ne_nil (List.concat_ne_nil '\n' l))
      have hsplit : boundaryLines (joinWith ['\n'] (l :: k :: ks)) =
          first :: (more ++ boundaryLines (joinWith ['\n'] (k :: ks))) := by
        rw [joinWith_cons _ (List.cons_ne_nil k ks), List.append_assoc, List.singleton_append,
          boundaryLines_append hl, hcut, List.cons_append]
      -- A first line that is broken shifts the numbers of all lines after it.
      have hplain : Unbroken (body l) → first = body l ∧ more = [] := fun hbody => by
        rw [boundaryLines_feed hbody] at hcut
        exact ⟨(List.cons.inj hcut).1.symm, (List.cons.inj hcut).2.symm⟩
      rw [hsplit]
      cases i with
      | zero =>
        obtain rfl : l = line := Option.some.inj h
        exact ⟨first, rfl, fun hall => (hplain (hall l List.mem_cons_self)).1⟩
      | succ i =>
        obtain ⟨shown, hshown, himp⟩ := ih hrest h
        obtain ⟨hlt, -⟩ := List.getElem?_eq_some_iff.mp hshown
        have hlt : i < (more ++ boundaryLines (joinWith ['\n'] (k :: ks))).length := by
          rw [List.length_append]
          omega
        refine ⟨_, List.getElem?_eq_getElem hlt, fun hall => ?_⟩
        obtain ⟨hbody, hlater⟩ := List.forall_mem_cons.mp hall
        obtain ⟨-, rfl⟩ := hplain hbody
        rw [← himp hlater]
        exact (List.getElem?_eq_some_iff.mp hshown).2

/-- An excerpt is the line itself and up to two lines on either side. -/
theorem excerpt_eq (h : (boundaryLines text)[i]? = some shown) :
    excerpt text (i + 1) = joinWith ['\n']
      (((boundaryLines text).take i).drop (i - 2) ++
        shown :: ((boundaryLines text).drop (i + 1)).take 2) := by
  obtain ⟨hlt, hshown⟩ := List.getElem?_eq_some_iff.mp h
  generalize hls : boundaryLines text = ls at *
  have hlast : ¬ min (ls.length : Int) (i + 1 + 2) < 0 := by omega
  have hstop : (min (ls.length : Int) (i + 1 + 2)).toNat = min ls.length (i + 3) := by omega
  have hstart : (max 1 ((i : Int) + 1 - 2) - 1).toNat = i - 2 := by omega
  have htake : ls.take (min ls.length (i + 3)) = ls.take (i + 3) := by
    rw [Nat.min_comm, ← List.take_take, List.take_length]
  have hsplit : ls.take (i + 3) = ls.take i ++ shown :: (ls.drop (i + 1)).take 2 := by
    rw [List.take_add, ← List.getElem_cons_drop hlt, hshown]
    rfl
  simp only [excerpt, excerptMargin, excerptStart, hls, if_neg hlast, hstop, hstart]
  rw [htake, hsplit, List.drop_append_of_le_length]
  rw [List.length_take]
  omega

theorem lines_excerpt (h : (boundaryLines text)[i]? = some shown) :
    lines (excerpt text (i + 1)) = ((boundaryLines text).take i).drop (i - 2) ++
      shown :: ((boundaryLines text).drop (i + 1)).take 2 := by
  rw [excerpt_eq h]
  refine lines_joinWith (by simp) fun l hl => ?_
  have hmem : l ∈ boundaryLines text := by
    obtain hl | hl := List.mem_append.mp hl
    · exact List.mem_of_mem_take (List.mem_of_mem_drop hl)
    · obtain rfl | hl := List.mem_cons.mp hl
      · exact List.mem_of_getElem? h
      · exact List.mem_of_mem_drop (List.mem_of_mem_take hl)
  intro hfeed
  cases unbroken_of_mem_boundaryLines hmem _ hfeed

theorem joinWith_ne_nil {sep : List Char} {ls : List (List Char)} (hs : sep ≠ [])
    (hne : ls ≠ []) (h : ls ≠ [[]]) : joinWith sep ls ≠ [] := by
  cases ls with
  | nil => exact absurd rfl hne
  | cons l ls =>
    cases ls with
    | nil => exact fun hnil => h (congrArg (fun l => [l]) hnil)
    | cons k ks =>
      rw [joinWith_cons _ (List.cons_ne_nil k ks)]
      simp [hs]

/-- There is an excerpt unless the text is a single line boundary. -/
theorem excerpt_ne_nil (h : (boundaryLines text)[i]? = some shown) {c : Char} (hc : c ∈ text)
    (hin : isLineBoundary c = false) : excerpt text (i + 1) ≠ [] := by
  rw [excerpt_eq h]
  refine joinWith_ne_nil (List.cons_ne_nil _ _) (by simp) fun hone => ?_
  have hmem : c ∈ (boundaryLines text).flatten := by
    rw [flatten_boundaryLines]
    exact List.mem_filter.mpr ⟨hc, by simp [hin]⟩
  obtain ⟨hlt, -⟩ := List.getElem?_eq_some_iff.mp h
  have hlen := congrArg List.length hone
  simp only [List.length_append, List.length_drop, List.length_take, List.length_cons,
    List.length_nil] at hlen
  obtain rfl : i = 0 := by omega
  obtain ⟨l, hl⟩ := List.length_eq_one_iff.mp (by omega : (boundaryLines text).length = 1)
  rw [hl] at h hmem hone
  obtain rfl : l = shown := Option.some.inj h
  obtain rfl : l = [] := (List.cons.inj hone).1
  cases hmem

theorem isDigit_of_mem_toString {n : Int} {c : Char} (h : c ∈ (toString n).toList) :
    c.isDigit ∨ c = '-' := by
  have hnat : ∀ k : Nat, c ∈ k.repr.toList → c.isDigit := fun k hk => by
    rw [Nat.toList_repr] at hk
    exact Nat.isDigit_of_mem_toDigits (by decide) (by decide) hk
  rw [Int.toString_eq_repr, Int.repr_eq_if] at h
  split at h
  · exact .inl (hnat _ h)
  · rw [String.toList_append, List.mem_append] at h
    obtain h | h := h
    · exact .inr (List.mem_singleton.mp h)
    · exact .inl (hnat _ h)

end Text

namespace Context

variable {c : Context} {spot : Spot} {n : Int} {line : List Char} {ls ms : List (List Char)}

/-- The location as `file:line:column`. -/
def location (c : Context) : List Char :=
  let file := match c.file with
    | some path => toString path
    | none => "<string>"
  s!"{file}:{c.spot.line}:{c.spot.column}".toList

/-- Lines with their numbers, the first of them with number `n`. -/
def labelled : Int → List (List Char) → List (List Char)
  | _, [] => []
  | n, l :: ls => (lineLabel n ++ l) :: labelled (n + 1) ls

/-- Spaces and a marker. -/
def marker (k : Nat) : List Char := List.replicate k ' ' ++ "^^^".toList

theorem text_of_excerpt {shown : List Char} (h : c.excerpt = some shown) (hne : shown ≠ []) :
    c.text = c.location ++ '\n' ::
      Text.joinWith ['\n'] (numbered c.spot (excerptStart c.spot.line) (Text.lines shown)) := by
  cases shown with
  | nil => exact absurd rfl hne
  | cons d ds =>
    simp only [text, h]
    rfl

theorem numbered_append (spot : Spot) (n : Int) (ls ms : List (List Char)) :
    numbered spot n (ls ++ ms) = numbered spot n ls ++ numbered spot (n + ls.length) ms := by
  induction ls generalizing n with
  | nil => simp [numbered]
  | cons l ls ih =>
    have hn : n + 1 + (ls.length : Int) = n + ((l :: ls).length : Nat) := by
      rw [List.length_cons]
      omega
    rw [List.cons_append, numbered, numbered, ih, hn, List.append_assoc]

theorem numbered_of_ne (h : ∀ k : Nat, k < ls.length → n + k ≠ spot.line) :
    numbered spot n ls = labelled n ls := by
  induction ls generalizing n with
  | nil => rfl
  | cons l ls ih =>
    have hfirst : n ≠ spot.line := by
      have := h 0 (Nat.zero_lt_succ _)
      omega
    have hrest : ∀ k : Nat, k < ls.length → n + 1 + k ≠ spot.line := fun k hk => by
      have := h (k + 1) (Nat.succ_lt_succ hk)
      omega
    rw [numbered, if_neg hfirst, ih hrest]
    rfl

theorem numbered_line (hc : 1 ≤ spot.column) : numbered spot spot.line (line :: ls) =
    (lineLabel spot.line ++ line) ::
      marker ((lineLabel spot.line).length + (spot.column - 1).toNat) ::
        labelled (spot.line + 1) ls := by
  have hwidth : ((lineLabel spot.line).length + spot.column - 1).toNat =
      (lineLabel spot.line).length + (spot.column - 1).toNat := by omega
  rw [numbered, if_pos rfl, numbered_of_ne fun k _ => by omega, hwidth]
  rfl

theorem numbered_around (line : List Char) (above below : List (List Char))
    (hc : 1 ≤ spot.column) :
    numbered spot (spot.line - above.length) (above ++ line :: below) =
      labelled (spot.line - above.length) above ++
        [lineLabel spot.line ++ line,
          marker ((lineLabel spot.line).length + (spot.column - 1).toNat)] ++
        labelled (spot.line + 1) below := by
  rw [numbered_append, numbered_of_ne fun k hk => by omega, Int.sub_add_cancel, numbered_line hc]
  simp

theorem newline_not_mem_lineLabel (n : Int) : '\n' ∉ lineLabel n := by
  have hdigits : '\n' ∉ (toString n).toList := fun h =>
    absurd (Text.isDigit_of_mem_toString h) (by decide)
  simp only [lineLabel, List.mem_append, List.mem_replicate, not_or]
  exact ⟨⟨fun h => absurd h.2 (by decide), hdigits⟩, by decide⟩

theorem newline_not_mem_numbered (h : ∀ l ∈ ls, '\n' ∉ l) :
    ∀ l ∈ numbered spot n ls, '\n' ∉ l := by
  induction ls generalizing n with
  | nil => exact nofun
  | cons l ls ih =>
    obtain ⟨hl, hls⟩ := List.forall_mem_cons.mp h
    have hline : '\n' ∉ lineLabel n ++ l := fun hm =>
      (List.mem_append.mp hm).elim (newline_not_mem_lineLabel n) hl
    have hmarker : ∀ k, '\n' ∉ marker k := fun k hm => by
      obtain hm | hm := List.mem_append.mp hm
      · exact absurd (List.mem_replicate.mp hm).2 (by decide)
      · exact absurd hm (by decide)
    rw [numbered]
    refine List.forall_mem_append.mpr ⟨?_, ih hls⟩
    split
    · exact List.forall_mem_cons.mpr ⟨hline, List.forall_mem_singleton.mpr (hmarker _)⟩
    · exact List.forall_mem_singleton.mpr hline

/-- A numbered line is no marker. -/
theorem ne_marker_of_mem_labelled (h : line ∈ labelled n ls) (k : Nat) : line ≠ marker k := by
  induction ls generalizing n with
  | nil => cases h
  | cons l ls ih =>
    obtain rfl | h := List.mem_cons.mp h
    · intro he
      have hbar : '|' ∈ marker k := by
        rw [← he, lineLabel]
        exact List.mem_append_left _ (List.mem_append_right _ (by decide))
      obtain hbar | hbar := List.mem_append.mp hbar
      · exact absurd (List.mem_replicate.mp hbar).2 (by decide)
      · exact absurd hbar (by decide)
    · exact ih h

end Context

open Context Text

/-- The lines of a report are its location, an excerpt and its message. The excerpt shows the given
line under the number of its spot, and right below it a marker under the column of the spot. Around
them are other lines with their numbers, but no other marker. -/
def Report.Marks (r : Report) (c : Context) (line : List Char) : Prop :=
  ∃ above below : List (List Char),
    Text.lines r.text = Text.lines c.location ++
        (labelled (c.spot.line - above.length) above ++
          [lineLabel c.spot.line ++ line,
            marker ((lineLabel c.spot.line).length + (c.spot.column - 1).toNat)] ++
          labelled (c.spot.line + 1) below) ++
        Text.lines r.message.toList ∧
      ∀ l ∈ labelled (c.spot.line - above.length) above ++ labelled (c.spot.line + 1) below,
        ∀ k, l ≠ marker k

theorem Report.marks_of_excerpt {r : Report} {c : Context} {text line : List Char} {i : Nat}
    (hr : r.context = some c) (he : c.excerpt = some (excerpt text c.spot.line))
    (hi : c.spot.line = i + 1) (hcol : 1 ≤ c.spot.column)
    (hline : (boundaryLines text)[i]? = some line) {d : Char} (hd : d ∈ text)
    (hin : isLineBoundary d = false) : r.Marks c line := by
  have hne := excerpt_ne_nil hline hd hin
  have hlines := lines_excerpt hline
  rw [← hi] at hne hlines
  have hstart : excerptStart c.spot.line =
      c.spot.line - (((boundaryLines text).take i).drop (i - 2)).length := by
    obtain ⟨hlt, -⟩ := List.getElem?_eq_some_iff.mp hline
    rw [List.length_drop, List.length_take_of_le (by omega), excerptStart, excerptMargin]
    omega
  generalize ((boundaryLines text).take i).drop (i - 2) = above at hlines hstart
  generalize ((boundaryLines text).drop (i + 1)).take 2 = below at hlines
  have hnumbered := numbered_around line above below hcol
  refine ⟨above, below, ?_, List.forall_mem_append.mpr
    ⟨fun l hl => ne_marker_of_mem_labelled hl, fun l hl => ne_marker_of_mem_labelled hl⟩⟩
  have hfeed : ∀ l ∈ numbered c.spot (c.spot.line - above.length) (above ++ line :: below),
      '\n' ∉ l := by
    refine newline_not_mem_numbered fun l hl => ?_
    rw [← hlines] at hl
    exact not_mem_of_mem_lines hl
  rw [Report.text, hr]
  simp only
  rw [Text.lines_append, text_of_excerpt he hne, hlines, hstart, Text.lines_append,
    lines_joinWith (by rw [hnumbered]; simp) hfeed, hnumbered]

namespace Script

variable {rules : LayoutRules} {text : List Char} {file : Option Path} {r : Report}

/-- An error marks the column of its spot below a line with the right number. This line is the one
of the text, without the carriage return at its end, if no other line boundary stands in the text up
to there. -/
theorem marks_of_parse_eq_error (rules : LayoutRules) (h : 1 ≤ rules.tabWidth) (text : List Char)
    (file : Option Path) (hp : parse rules text file = .error (.refused r)) :
    ∃ c, r.context = some c ∧ 1 ≤ c.spot.line ∧ 1 ≤ c.spot.column ∧
      ∀ (i : Nat) line, c.spot.line = i + 1 → (Text.lines text)[i]? = some line →
        line.all isBlank = false →
          ∃ shown, (boundaryLines text)[i]? = some shown ∧ r.Marks c shown ∧
            ((∀ l ∈ (Text.lines text).take (i + 1), Unbroken (body l)) → shown = body line) := by
  obtain ⟨f, rfl, hspot⟩ := exists_fault_of_parse_eq_error h hp
  obtain ⟨k, -, hstands⟩ := hspot.offset
  refine ⟨_, rfl, hstands.pos.1, hstands.pos.2, fun i line hi hline hblank => ?_⟩
  obtain ⟨d, hd, hdblank⟩ : ∃ d ∈ line, isBlank d = false := by simpa using hblank
  have hne : line ≠ [] := List.ne_nil_of_mem hd
  have hmem := List.mem_of_getElem? hline
  obtain ⟨shown, hshown, hbody⟩ := exists_boundaryLine (fun l => not_mem_of_mem_lines) hline hne
  rw [joinWith_lines] at hshown
  have hdtext : d ∈ text := (infix_of_mem_lines hmem).subset hd
  have hdin : isLineBoundary d = false := by
    by_contra hb
    rw [isBlank_of_isLineBoundary (Bool.not_eq_false _ ▸ hb)] at hdblank
    cases hdblank
  refine ⟨shown, hshown, ?_, hbody⟩
  refine Report.marks_of_excerpt rfl ?_ hi hstands.pos.2 hshown hdtext hdin
  cases text with
  | nil => cases hdtext
  | cons x xs => rfl

/-- A second line that ends too early. -/
def hurriedJump : List Char := "pass\njump\n".toList

theorem marks_of_parse_hurriedJump : ∃ r c, 1 ≤ ({} : LayoutRules).tabWidth ∧
    parse {} hurriedJump = .error (.refused r) ∧ r.context = some c ∧
      r.Marks c "jump".toList := by
  have hl : layout {} hurriedJump = .ok [⟨.text "pass".toList, ⟨1, 1, 0, 4⟩⟩,
      ⟨.newline, ⟨2, 1, 5, 5⟩⟩, ⟨.text "jump".toList, ⟨2, 1, 5, 9⟩⟩, ⟨.newline, ⟨3, 1, 10, 10⟩⟩,
      ⟨.eof, ⟨3, 1, 10, 10⟩⟩] := by cbv
  have hp := parse_of_refused none hl (by cbv) (by cbv : _ = Except.error
    ⟨.unexpected "label name" .endOfLine, ⟨2, 5, some 9, some 2, some 5⟩⟩)
  have hrules : 1 ≤ ({} : LayoutRules).tabWidth := by decide
  obtain ⟨c, hc, -, -, hmarks⟩ := marks_of_parse_eq_error {} hrules hurriedJump none hp
  have hline : c.spot.line = (1 : Nat) + 1 := by
    cases hc
    rfl
  obtain ⟨shown, -, hshown, hbody⟩ := hmarks 1 "jump".toList hline (by decide) (by decide)
  have hplain : ∀ l ∈ (Text.lines hurriedJump).take 2, Unbroken (body l) := by
    have hlines : (Text.lines hurriedJump).take 2 =
        [['p', 'a', 's', 's'], ['j', 'u', 'm', 'p']] := by cbv
    rw [hlines]
    simp [Unbroken, body, isLineBoundary]
  rw [hbody hplain] at hshown
  exact ⟨_, c, hrules, hp, hc, hshown⟩

end Script

end NovelScript
