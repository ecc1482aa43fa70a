import Mathlib
import NovelScript.Command.Run
import NovelScript.Proofs.Encoding
import NovelScript.Proofs.Excerpts
import NovelScript.Proofs.LineBreaks
import NovelScript.Proofs.Settings

/-!
# Listings

A listing of tokens is made from a text with unified line breaks, but a script is read with its
carriage returns left in. Both number their lines alike as long as no carriage return stands alone.
A listing then shows the layout that the script is read from, less the characters that a terminal
acts on.
-/

namespace NovelScript

namespace Text

/-- Each carriage return has a line feed right after it. -/
def Paired (text : List Char) : Prop := ∀ v, '\r' :: v <:+ text → v.head? = some '\n'

variable {c : Char} {cs text : List Char}

theorem paired_nil : Paired [] := fun v h => absurd (List.suffix_nil.mp h) (List.cons_ne_nil _ v)

theorem paired_cons (h : c ≠ '\r') : Paired (c :: cs) ↔ Paired cs := by
  constructor
  · intro hp v hv
    exact hp v (hv.trans (List.suffix_cons c cs))
  · intro hp v hv
    rcases List.suffix_cons_iff.mp hv with he | hv
    · exact absurd (List.cons.inj he).1.symm h
    · exact hp v hv

theorem paired_return : Paired ('\r' :: cs) ↔ cs.head? = some '\n' ∧ Paired cs := by
  constructor
  · intro hp
    exact ⟨hp cs List.suffix_rfl, fun v hv => hp v (hv.trans (List.suffix_cons _ cs))⟩
  · rintro ⟨hhead, hp⟩ v hv
    rcases List.suffix_cons_iff.mp hv with he | hv
    · rw [(List.cons.inj he).2]
      exact hhead
    · exact hp v hv

theorem return_not_mem_unifyLineBreaks (text : List Char) : '\r' ∉ unifyLineBreaks text := by
  fun_induction unifyLineBreaks text with
  | case1 => exact List.not_mem_nil
  | case2 cs ih => exact List.not_mem_cons_of_ne_of_not_mem (by decide) ih
  | case3 c cs _ ih =>
    refine List.not_mem_cons_of_ne_of_not_mem ?_ ih
    split
    · decide
    · next hc => exact Ne.symm hc

/-- Line feeds are only added, one for each carriage return that stands alone. -/
theorem count_unifyLineBreaks (text : List Char) :
    text.count '\n' ≤ (unifyLineBreaks text).count '\n' ∧
      ((unifyLineBreaks text).count '\n' = text.count '\n' ↔ Paired text) := by
  fun_induction unifyLineBreaks text with
  | case1 => exact ⟨Nat.le_refl _, iff_of_true rfl paired_nil⟩
  | case2 cs ih =>
    rw [paired_return, paired_cons (by decide), List.count_cons_of_ne (by decide : '\r' ≠ '\n'),
      List.count_cons_self, List.count_cons_self, ← ih.2]
    exact ⟨by omega, by simp⟩
  | case3 c cs hne ih =>
    by_cases hc : c = '\r'
    · -- This return stands alone, so it becomes a line feed that was not there.
      subst hc
      have hlone : cs.head? ≠ some '\n' := by
        intro hhead
        obtain ⟨rest, rfl⟩ := List.head?_eq_some_iff.mp hhead
        exact hne rest rfl rfl
      rw [if_pos rfl, paired_return, List.count_cons_of_ne (by decide : '\r' ≠ '\n'),
        List.count_cons_self]
      exact ⟨by omega, iff_of_false (by omega) fun h => hlone h.1⟩
    · rw [if_neg hc, paired_cons hc, List.count_cons, List.count_cons, ← ih.2]
      exact ⟨by omega, by omega⟩

instance (text : List Char) : Decidable (Paired text) :=
  decidable_of_iff _ (count_unifyLineBreaks text).2

/-- The lines are the same, less the carriage returns that belong to their ends. -/
theorem lines_unifyLineBreaks (h : Paired text) :
    lines (unifyLineBreaks text) = (lines text).map body := by
  fun_induction unifyLineBreaks text with
  | case1 => rfl
  | case2 cs ih =>
    have hp : Paired cs := (paired_cons (by decide)).mp (paired_return.mp h).2
    rw [lines, lines, lines, if_pos rfl, if_pos rfl, if_neg (by decide), ih hp]
    rfl
  | case3 c cs hne ih =>
    have hc : c ≠ '\r' := by
      rintro rfl
      obtain ⟨rest, rfl⟩ := List.head?_eq_some_iff.mp (paired_return.mp h).1
      exact hne rest rfl rfl
    rw [if_neg hc, lines, lines, ih ((paired_cons hc).mp h)]
    by_cases hn : c = '\n'
    · rw [if_pos hn, if_pos hn]
      rfl
    · obtain ⟨l, ls, hl⟩ := List.exists_cons_of_ne_nil (lines_ne_nil cs)
      have hbody : body (c :: l) = c :: body l := by
        cases l with
        | nil => exact body_of_not_mem fun hm => hc (List.mem_singleton.mp hm).symm
        | cons d l => exact body_append [c] (List.cons_ne_nil d l)
      rw [if_neg hn, if_neg hn, hl, List.map_cons, List.map_cons, hbody]

theorem parts?_body_of_mem (h : Paired text) {line : List Char} (hl : line ∈ lines text) :
    parts? (body line) = parts? line := by
  have hmem : body line ∈ lines (unifyLineBreaks text) := by
    rw [lines_unifyLineBreaks h]
    exact List.mem_map_of_mem hl
  have hreturn : '\r' ∉ body line := fun hr =>
    return_not_mem_unifyLineBreaks text ((infix_of_mem_lines hmem).subset hr)
  unfold parts?
  rw [body_of_not_mem hreturn]

/-- The last line is what stands after the last line feed. -/
theorem getLast?_lines (text : List Char) : ∃ last,
    (lines text).getLast? = some last ∧ last <:+ text ∧ tailLength text = last.length := by
  obtain ⟨front, last, rfl, hopens, hlast, hlength⟩ := exists_opens text
  refine ⟨last, ?_, List.suffix_append front last, hlength.symm⟩
  obtain rfl | ⟨u, rfl⟩ := hopens
  · rw [List.nil_append, lines_of_not_mem hlast]
    rfl
  · rw [List.append_assoc, List.singleton_append, lines_append, lines_of_not_mem hlast]
    exact List.getLast?_concat

theorem tailLength_unifyLineBreaks (h : Paired text) :
    tailLength (unifyLineBreaks text) = tailLength text := by
  obtain ⟨last, hlast, hsuffix, hlength⟩ := getLast?_lines text
  obtain ⟨last', hlast', -, hlength'⟩ := getLast?_lines (unifyLineBreaks text)
  rw [lines_unifyLineBreaks h, List.getLast?_map, hlast] at hlast'
  have hbody : body last = last := body_of_ne fun hreturn => by
    obtain ⟨u, rfl⟩ := List.getLast?_eq_some_iff.mp hreturn
    exact absurd (h [] ((List.suffix_append u ['\r']).trans hsuffix)) (by decide)
  rw [hlength, hlength', ← Option.some.inj hlast', hbody]

theorem decode_dropByteOrderMark {bytes : List UInt8} (h : decode bytes = .ok text) :
    decode (dropByteOrderMark bytes) = .ok (dropMark text) := by
  rw [eq_encode_of_decode h, dropByteOrderMark_encode, decode_encode]

end Text

/-! Columns of two texts whose lines hold the same. -/

theorem forall₂_contentLinesFrom {ls ls' : List (List Char)}
    (h : List.Forall₂ (fun l l' => Text.parts? l' = Text.parts? l) ls ls') (number : Nat)
    (lineStart lineStart' : Nat) :
    List.Forall₂ (fun l l' => l'.number = l.number ∧ l'.parts = l.parts)
      (contentLinesFrom number lineStart ls) (contentLinesFrom number lineStart' ls') := by
  induction h generalizing number lineStart lineStart' with
  | nil => exact .nil
  | @cons l l' ls ls' hl _ ih =>
    simp only [contentLinesFrom, ContentLine.ofLine?_eq, hl]
    cases Text.parts? l with
    | none => exact ih _ _ _
    | some p => exact .cons ⟨rfl, rfl⟩ (ih _ _ _)

namespace Likeness

/-- Places on the same line and in the same column. -/
def columns : Likeness where
  place p p' := p'.line = p.line ∧ p'.column = p.column
  span _ _ := True
  cause := Eq
  strict := True
  span_of_place _ := trivial
  cover _ _ := trivial

theorem lines_columns {rules : LayoutRules} (h : 1 ≤ rules.tabWidth) {l l' : ContentLine}
    (hn : l'.number = l.number) (hp : l'.parts = l.parts) : columns.Lines rules id l l' := by
  obtain ⟨_, lineStart, _, _⟩ := l
  obtain ⟨number, lineStart', indent, content⟩ := l'
  obtain rfl := hn
  obtain ⟨rfl, rfl⟩ := Prod.mk.inj hp
  obtain ⟨w, hpos, hw⟩ := rules.exists_width h indent
  refine ⟨⟨w, hw, hpos, hpos⟩, ?_, ⟨rfl, rfl⟩, ?_⟩
  · unfold Offside.mixedFaults
    change List.Forall₂ _ (if isMixed indent && !rules.allowMixed then _ else _)
      (if isMixed indent && !rules.allowMixed then _ else _)
    split
    · exact .cons (.fault rfl ⟨rfl, rfl⟩) .nil
    · exact .nil
  · have htoken : ContentLine.token ⟨number, lineStart', indent, content⟩ =
        ⟨.text (content ++ []), ContentLine.place ⟨number, lineStart', indent, content⟩⟩ := by
      rw [List.append_nil]
      rfl
    let K : columns.LinePair := ⟨content, [], ContentLine.place ⟨number, lineStart, indent, content⟩,
      ContentLine.place ⟨number, lineStart', indent, content⟩, rfl, fun _ => rfl, ⟨rfl, rfl⟩,
      fun _ => ⟨rfl, rfl⟩⟩
    rw [htoken]
    exact .line K

theorem layouts_columns {rules : LayoutRules} (h : 1 ≤ rules.tabWidth) {text : List Char}
    (hp : Text.Paired text) :
    columns.Layouts (layout rules text) (layout rules (Text.unifyLineBreaks text)) := by
  have hparts : List.Forall₂ (fun l l' => Text.parts? l' = Text.parts? l) (Text.lines text)
      (Text.lines (Text.unifyLineBreaks text)) := by
    rw [Text.lines_unifyLineBreaks hp, List.forall₂_map_right_iff]
    exact List.forall₂_same.mpr fun l hl => Text.parts?_body_of_mem hp hl
  have hlines := (forall₂_contentLinesFrom hparts 1 0 0).imp fun l l' hl =>
    lines_columns h hl.1 hl.2
  have hend : columns.place (Offside.endPlace text)
      (Offside.endPlace (Text.unifyLineBreaks text)) := by
    constructor
    · simp only [Offside.endPlace, Text.lines_unifyLineBreaks hp, List.length_map]
    · simp only [Offside.endPlace, Text.tailLength_unifyLineBreaks hp]
  exact layouts_of_equal_widths (fun _ _ => rfl) hlines hend

end Likeness

theorem getLast?_of_layout {rules : LayoutRules} {text : List Char} {ts : List LayoutToken}
    (h : layout rules text = .ok ts) : ts.getLast? = some ⟨.eof, Offside.endPlace text⟩ := by
  obtain ⟨-, rfl⟩ := layout_eq_ok.mp h
  rw [Offside.tokens_finish, ← List.append_assoc]
  exact List.getLast?_concat

namespace Command

/-- The row of a token with its whole value. -/
def fullRow (t : LayoutToken) : TokenRow :=
  match t.mark with
  | .text _ | .fault _ => { tokenRow t with value := t.value }
  | .indent | .dedent | .newline | .eof => tokenRow t

variable {t t' : LayoutToken} {ts ts' : List LayoutToken}

theorem position_fullRow (t : LayoutToken) : (fullRow t).position = (tokenRow t).position := by
  unfold fullRow
  split <;> rfl

theorem tokenRow_eq (h : Likeness.columns.Tokens t t') : tokenRow t' = tokenRow t := by
  have hrow : ∀ {m : LayoutMark} {p p' : Place}, Likeness.columns.place p p' →
      tokenRow ⟨m, p'⟩ = tokenRow ⟨m, p⟩ := by
    rintro m p p' ⟨hline, hcolumn⟩
    unfold tokenRow
    rw [hline, hcolumn]
    rfl
  cases h with
  | same _ hp => exact hrow hp
  | fault hc hp =>
    rw [show _ = _ from hc]
    exact hrow hp
  | line K =>
    rw [K.strict trivial, List.append_nil]
    exact hrow K.place

/-- A position tells the line. -/
theorem line_eq_of_position (h : (tokenRow t).position = (tokenRow t').position) :
    t.place.line = t'.place.line := by
  have hline : ∀ u : LayoutToken, (tokenRow u).position.takeWhile (· != ':') =
      (toString u.place.line).toList := by
    intro u
    have hdigits : ∀ x ∈ (toString u.place.line).toList, (x != ':') = true := by
      intro x hx
      rcases Text.isDigit_of_mem_toString hx with hx | rfl
      · simp only [bne_iff_ne, ne_eq]
        rintro rfl
        exact absurd hx (by decide)
      · decide
    have hposition : (tokenRow u).position = (toString u.place.line).toList ++
        ':' :: (toString u.place.column).toList := by
      simp only [tokenRow, String.toList_append, List.append_assoc]
      rfl
    rw [hposition, List.takeWhile_append_of_pos hdigits, List.takeWhile_cons_of_neg (by decide),
      List.append_nil]
  have hlines := (hline t).symm.trans ((congrArg _ h).trans (hline t'))
  exact Int.repr_inj.mp (String.toList_inj.mp hlines)

/-- What a command shows that lists rows and nothing else. -/
def listing (file : Path) (rows : List TokenRow) : Outcome :=
  { shown := [.tokens file.text rows] }

theorem listing_inj {file : Path} {rows rows' : List TokenRow} :
    listing file rows = listing file rows' ↔ rows = rows' := by
  simp [listing]

theorem isTerminalControl_of_isDigit {x : Char} (h : x.isDigit) : isTerminalControl x = false := by
  have hlow : 48 ≤ x.toNat := by
    simp only [Char.isDigit, Bool.and_eq_true, decide_eq_true_eq, ge_iff_le] at h
    exact h.1
  simp only [isTerminalControl, Bool.or_eq_false_iff, beq_eq_false_iff_ne]
  omega

/-- A terminal acts on no character of a message about the layout. -/
theorem isTerminalControl_of_mem_message {cause : LayoutFault} {x : Char}
    (h : x ∈ cause.message.toList) : isTerminalControl x = false := by
  have hnumber : ∀ n : Int, x ∈ (toString n).toList → isTerminalControl x = false := by
    intro n hx
    rcases Text.isDigit_of_mem_toString hx with hx | rfl
    · exact isTerminalControl_of_isDigit hx
    · rfl
  have hwords : ∀ words : String, words.toList.all (fun y => !isTerminalControl y) →
      x ∈ words.toList → isTerminalControl x = false := by
    intro words hall hx
    simpa using List.all_eq_true.mp hall x hx
  cases cause with
  | mixed => exact hwords LayoutFault.mixed.message (by decide +kernel) h
  | inconsistent expected width =>
    have hliteral : ∀ words : String, toString words = words := fun _ => rfl
    unfold LayoutFault.message at h
    simp only [hliteral, String.toList_append, List.mem_append] at h
    rcases h with (((h | h) | h) | h) | h
    · exact hwords _ (by cbv) h
    · exact hnumber _ h
    · exact hwords _ (by cbv) h
    · exact hnumber _ h
    · exact hwords _ (by cbv) h

/-- The value of a token is shown whole unless it is a text with characters that a terminal acts
on. -/
theorem tokenRow_eq_fullRow : tokenRow t = fullRow t ↔
    ∀ content, t.mark = .text content → ∀ x ∈ content, isTerminalControl x = false := by
  obtain ⟨mark, place⟩ := t
  have hshown : ∀ cs : List Char, shownText cs = cs ↔ ∀ x ∈ cs, isTerminalControl x = false := by
    intro cs
    rw [shownText, List.filter_eq_self]
    simp
  cases mark with
  | text content => simp [tokenRow, fullRow, LayoutToken.value, hshown]
  | fault cause =>
    have hmessage := (hshown cause.message.toList).mpr fun x =>
      isTerminalControl_of_mem_message
    simp [tokenRow, fullRow, LayoutToken.value, hmessage]
  | _ => simp [fullRow]

section

variable {w : Workspace} {file configFile : Path} {c : Config} {bytes : List UInt8}
  {raw : List Char}

theorem tabWidth_pos_of_loadConfig (h : loadConfig w configFile = .ok c) :
    1 ≤ c.layout.tabWidth := by
  unfold loadConfig at h
  split at h
  · cases h
  · cases hload : Config.load w.files (w.directory.resolve configFile) with
    | error f =>
      simp only [hload] at h
      cases h
    | ok c' =>
      simp only [hload] at h
      cases h
      exact Config.tabWidth_pos_of_load hload

theorem plainText_of_decode (h : Text.decode bytes = .ok raw) :
    plainText bytes = .ok (Text.unifyLineBreaks (Text.dropMark raw)) := by
  unfold plainText
  split
  · next hstart =>
    -- Bytes of a text do not break off within a mark, so there are none.
    rcases bytes with _ | ⟨b, _ | ⟨b', _ | ⟨b'', bytes⟩⟩⟩
    · rw [Text.decode] at h
      rw [← Except.ok.inj h]
      rfl
    · have hmark : b = 0xEF := by simpa [Text.byteOrderMark] using hstart
      rw [hmark, show Text.decode [0xEF] = .error ⟨[], 0, 1, 0xEF, .unexpectedEnd⟩ by cbv] at h
      cases h
    · have hmark : b = 0xEF ∧ b' = 0xBB := by simpa [Text.byteOrderMark] using hstart
      rw [hmark.1, hmark.2,
        show Text.decode [0xEF, 0xBB] = .error ⟨[], 0, 2, 0xEF, .unexpectedEnd⟩ by cbv] at h
      cases h
    · rw [Bool.and_eq_true, decide_eq_true_eq] at hstart
      exact absurd hstart.1 (by simp only [List.length_cons]; omega)
  · rw [Text.decode_dropByteOrderMark h]
    rfl

/-- A listing shows the layout of the text with its line breaks unified. -/
theorem tokens_of_decode (hc : loadConfig w configFile = .ok c)
    (hread : w.files.read w.directory file = .ok bytes) (hdecode : Text.decode bytes = .ok raw) :
    tokens w file configFile =
      ((layout c.layout (Text.unifyLineBreaks (Text.dropMark raw))).map fun ts =>
        listing file (ts.map tokenRow)).mapError fun b => crashed (.layout b) := by
  simp only [tokens, hc, hread, plainText_of_decode hdecode, bind, Except.bind]
  cases layout c.layout (Text.unifyLineBreaks (Text.dropMark raw)) <;> rfl

/-- The rows of a layout are those of the layout with unified line breaks. -/
theorem map_tokenRow_unifyLineBreaks {rules : LayoutRules} {text : List Char}
    (h : 1 ≤ rules.tabWidth) (hp : Text.Paired text) (hts : layout rules text = .ok ts) :
    ∃ ts', layout rules (Text.unifyLineBreaks text) = .ok ts' ∧
      ts'.map tokenRow = ts.map tokenRow := by
  have hlayouts := Likeness.layouts_columns h hp
  rw [hts] at hlayouts
  generalize layout rules (Text.unifyLineBreaks text) = result at hlayouts
  cases hlayouts with
  | read hrows => exact ⟨_, rfl, (map_eq_of_forall₂ hrows fun _ _ ht => (tokenRow_eq ht).symm).symm⟩

/-- The end of a text whose line breaks are unified lies further down if a carriage return stood
alone. -/
theorem paired_of_positions {rules : LayoutRules} {text : List Char}
    (hts : layout rules text = .ok ts) (hts' : layout rules (Text.unifyLineBreaks text) = .ok ts')
    (h : ts'.map (fun t => (tokenRow t).position) = ts.map fun t => (tokenRow t).position) :
    Text.Paired text := by
  have hlast := congrArg List.getLast? h
  rw [List.getLast?_map, List.getLast?_map, getLast?_of_layout hts', getLast?_of_layout hts] at hlast
  have hline := line_eq_of_position (Option.some.inj hlast)
  simp only [Offside.endPlace, Text.length_lines] at hline
  exact (Text.count_unifyLineBreaks text).2.mp (by omega)

/-- Rows that tell the same positions are those of a listing exactly if no carriage return stands
alone and they are the rows of the tokens. -/
theorem tokens_eq_listing_map_iff (hc : loadConfig w configFile = .ok c)
    (hread : w.files.read w.directory file = .ok bytes) (hdecode : Text.decode bytes = .ok raw)
    (hts : layout c.layout (Text.dropMark raw) = .ok ts) {row : LayoutToken → TokenRow}
    (hrow : ∀ t, (row t).position = (tokenRow t).position) :
    tokens w file configFile = .ok (listing file (ts.map row)) ↔
      Text.Paired (Text.dropMark raw) ∧ ∀ t ∈ ts, tokenRow t = row t := by
  have hwidth := tabWidth_pos_of_loadConfig hc
  rw [tokens_of_decode hc hread hdecode]
  generalize Text.dropMark raw = text at hts
  constructor
  · intro h
    cases hts' : layout c.layout (Text.unifyLineBreaks text) with
    | error b =>
      rw [hts'] at h
      cases h
    | ok ts' =>
      rw [hts'] at h
      have hrows : ts'.map tokenRow = ts.map row := listing_inj.mp (Except.ok.inj h)
      have hp : Text.Paired text := by
        apply paired_of_positions hts hts'
        have hpositions := congrArg (List.map TokenRow.position) hrows
        rw [List.map_map, List.map_map] at hpositions
        exact hpositions.trans (List.map_congr_left fun t _ => hrow t)
      obtain ⟨us, hus, heq⟩ := map_tokenRow_unifyLineBreaks hwidth hp hts
      obtain rfl : ts' = us := Except.ok.inj (hts'.symm.trans hus)
      exact ⟨hp, List.map_inj_left.mp (heq.symm.trans hrows)⟩
  · rintro ⟨hp, heq⟩
    obtain ⟨ts', hts', hrows⟩ := map_tokenRow_unifyLineBreaks hwidth hp hts
    rw [hts', ← List.map_congr_left heq, ← hrows]
    rfl

/-- A script is read from the text of its bytes without the mark in front. The listing of its tokens
shows the layout of that text exactly if no carriage return stands alone in it, and then it breaks
off where that layout does. Values are shown whole exactly if there are no characters in the texts
of its lines that a terminal acts on. -/
theorem tokens_eq_listing_iff (hc : loadConfig w configFile = .ok c)
    (hread : w.files.read w.directory file = .ok bytes) (hdecode : Text.decode bytes = .ok raw) :
    Script.parseBytes c.layout bytes file = Script.parse c.layout (Text.dropMark raw) file ∧
    (∀ b, layout c.layout (Text.dropMark raw) = .error b → Text.Paired (Text.dropMark raw) →
      tokens w file configFile = .error (crashed (.layout b))) ∧
    ∀ ts, layout c.layout (Text.dropMark raw) = .ok ts →
      (tokens w file configFile = .ok (listing file (ts.map tokenRow)) ↔
        Text.Paired (Text.dropMark raw)) ∧
      (tokens w file configFile = .ok (listing file (ts.map fullRow)) ↔
        Text.Paired (Text.dropMark raw) ∧
          ∀ t ∈ ts, ∀ content, t.mark = .text content →
            ∀ x ∈ content, isTerminalControl x = false) := by
  refine ⟨?_, fun b hb hp => ?_, fun ts hts => ⟨?_, ?_⟩⟩
  · rw [Script.parseBytes, Text.decode_dropByteOrderMark hdecode]
  · have hlayouts := Likeness.layouts_columns (tabWidth_pos_of_loadConfig hc) hp
    rw [tokens_of_decode hc hread hdecode]
    generalize layout c.layout (Text.unifyLineBreaks (Text.dropMark raw)) = result at hlayouts
    rw [hb] at hlayouts
    cases hlayouts
    rfl
  · rw [tokens_eq_listing_map_iff hc hread hdecode hts fun _ => rfl]
    exact and_iff_left fun _ _ => rfl
  · rw [tokens_eq_listing_map_iff hc hread hdecode hts position_fullRow]
    simp only [tokenRow_eq_fullRow]

/-- A workspace with a script whose one line ends with a carriage return. -/
def lonelyReturn : Workspace where
  files := .ofEntries [(["p".toList, "a.rpy".toList], .file [0x70, 0x61, 0x73, 0x73, 0x0D])]
  directory := .ofText "/p".toList
  platform := []

theorem tokens_lonelyReturn :
    Text.decode [0x70, 0x61, 0x73, 0x73, 0x0D] = .ok "pass\r".toList ∧
    ∃ ts, layout {} "pass\r".toList = .ok ts ∧
      tokens lonelyReturn (.ofText "a.rpy".toList) (.ofText Config.fileName.toList) ≠
        .ok (listing (.ofText "a.rpy".toList) (ts.map tokenRow)) := by
  have hc : loadConfig lonelyReturn (.ofText Config.fileName.toList) =
      .ok { directory := .ofText "/p".toList } := by cbv
  have hread : lonelyReturn.files.read lonelyReturn.directory (.ofText "a.rpy".toList) =
      .ok [0x70, 0x61, 0x73, 0x73, 0x0D] := by cbv
  have hdecode : Text.decode [0x70, 0x61, 0x73, 0x73, 0x0D] = .ok "pass\r".toList := by cbv
  have hmark : Text.dropMark "pass\r".toList = "pass\r".toList := by cbv
  obtain ⟨ts, hts⟩ := Script.exists_of_toBool (x := layout {} "pass\r".toList) (by cbv)
  have hlisting := (tokens_eq_listing_iff hc hread hdecode).2.2 ts (by rw [hmark]; exact hts)
  refine ⟨hdecode, ts, hts, fun h => ?_⟩
  have hpaired := hlisting.1.mp h
  rw [hmark] at hpaired
  exact absurd hpaired (by decide)

end

end Command

end NovelScript
