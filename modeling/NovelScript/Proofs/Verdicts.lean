import NovelScript.Proofs.Accesses
import NovelScript.Proofs.Listings

/-!
# Verdicts

A check reads each of its files on its own, and its answer is the sum of these readings: the exit
code tells whether all of them came to a tree, and every other file has one report. Only a file whose
layout breaks down ends the check before the files that come after it are read.
-/

namespace NovelScript.Command

/-- Whether a reading came to a tree. -/
def Reading.isTree : Reading → Bool
  | .tree _ => true
  | .refused _ | .unreadable _ | .breakdown _ => false

/-- The form of output that an editor reads, or the one that people read. -/
def formatName (editor : Bool) : List Char :=
  if editor then "vscode".toList else "human".toList

/-- The last line for people, from the number of files that failed and the number of all files. -/
def summary (failed total : Nat) : String :=
  if failed = 0 then s!"✓ {total} file(s) parsed"
  else s!"✗ {failed} of {total} file(s) failed to parse"

variable {w : Workspace} {c : Config} {paths files front back : List Path} {configFile f : Path}
  {editor : Bool} {b : Breakdown}

/-- Whether a file is no script in order. -/
def fails (w : Workspace) (c : Config) (f : Path) : Bool := !(readScript w c.layout f).isTree

/-- The report on a file, from its own reading. -/
def Reports (w : Workspace) (c : Config) (editor : Bool) (f : Path) (report : List Char) : Prop :=
  fileReport c editor f (readScript w c.layout f) = some report

/-- The reading of a file comes to an end. -/
def Ends (w : Workspace) (c : Config) (f : Path) : Prop :=
  (readScript w c.layout f).breakdown? = none

/-- What a check of the files answers. -/
structure Verdict (w : Workspace) (c : Config) (files : List Path) (editor : Bool) (o : Outcome) :
    Prop where
  exit_le : o.exit ≤ 1
  exit_zero : o.exit = 0 ↔ files ≠ [] ∧ ∀ f ∈ files, fails w c f = false
  nothing : files = [] → o = failed "No script files found"
  /-- All files are read, and those that fail are reported in their order. -/
  whole : files ≠ [] → (∀ f ∈ files, Ends w c f) →
    ∃ reports, List.Forall₂ (Reports w c editor) (files.filter (fails w c)) reports ∧
      o = { exit := if reports.length = 0 then 0 else 1
            out := if editor then [] else lineOf (summary reports.length files.length).toList
            err := reports.flatMap lineOf }
  /-- The first file whose layout breaks down ends the check. -/
  broken : ∀ front f back b, files = front ++ f :: back → (∀ g ∈ front, Ends w c g) →
    readScript w c.layout f = .breakdown b →
    ∃ reports, List.Forall₂ (Reports w c editor) (front.filter (fails w c)) reports ∧
      o = { crashed (.layout b) with err := reports.flatMap lineOf }

/-- Of the files that are read to their ends, just those that fail have a report. -/
theorem forall₂_reports (h : ∀ f ∈ files, Ends w c f) :
    List.Forall₂ (Reports w c editor) (files.filter (fails w c))
      (files.filterMap fun f => fileReport c editor f (readScript w c.layout f)) := by
  induction files with
  | nil => exact .nil
  | cons f files ih =>
    obtain ⟨hf, hfiles⟩ := List.forall_mem_cons.mp h
    have hrest := ih hfiles
    unfold Ends at hf
    rw [List.filter_cons, List.filterMap_cons, fails]
    cases hr : readScript w c.layout f with
    | tree t => exact hrest
    | refused r => exact .cons (by rw [Reports, hr]; rfl) hrest
    | unreadable e => exact .cons (by rw [Reports, hr]; rfl) hrest
    | breakdown b =>
      rw [hr] at hf
      cases hf

theorem fails_of_breakdown (h : readScript w c.layout f = .breakdown b) : fails w c f = true := by
  rw [fails, h]
  rfl

/-- Either all files are read to their ends, or one is the first that is not. -/
theorem ends_or_breaks (files : List Path) : (∀ f ∈ files, Ends w c f) ∨
    ∃ front f back b, files = front ++ f :: back ∧ (∀ g ∈ front, Ends w c g) ∧
      readScript w c.layout f = .breakdown b := by
  induction files with
  | nil => exact .inl (List.forall_mem_nil _)
  | cons f files ih =>
    cases hr : (readScript w c.layout f).breakdown? with
    | some b =>
      refine .inr ⟨[], f, files, b, rfl, List.forall_mem_nil _, ?_⟩
      generalize readScript w c.layout f = r at hr
      cases r with
      | breakdown b' => rw [Option.some.inj hr]
      | _ => cases hr
    | none =>
      rcases ih with hall | ⟨front, g, back, b, rfl, hfront, hg⟩
      · exact .inl (List.forall_mem_cons.mpr ⟨hr, hall⟩)
      · exact .inr ⟨f :: front, g, back, b, rfl, List.forall_mem_cons.mpr ⟨hr, hfront⟩, hg⟩

theorem breakdown?_of_mem_map (h : ∀ f ∈ files, Ends w c f) :
    ∀ r ∈ files.map fun f => (f, readScript w c.layout f), r.2.breakdown? = none := by
  intro r hr
  obtain ⟨f, hf, rfl⟩ := List.mem_map.mp hr
  exact h f hf

section

variable (hc : loadConfig w configFile = .ok c) (hfiles : checkedFiles w c paths = .ok files)

include hc hfiles

/-- The answer to a check, once its files are known. -/
theorem answer_check : answer w (.check paths (formatName editor) configFile) =
    if files = [] then failed "No script files found"
    else
      let readings := files.map fun f => (f, readScript w c.layout f)
      let reports := (readings.takeWhile fun r => r.2.breakdown?.isNone).filterMap fun r =>
        fileReport c editor r.1 r.2
      match readings.findSome? fun r => r.2.breakdown? with
      | some b => { crashed (.layout b) with err := reports.flatMap lineOf }
      | none =>
        { exit := if reports.length = 0 then 0 else 1
          out := if editor then [] else lineOf (summary reports.length files.length).toList
          err := reports.flatMap lineOf } := by
  have hformat : checkFormat (formatName editor) ["human", "vscode"] = .ok () := by
    cases editor <;> rfl
  have heditor : formatName editor = "vscode".toList ↔ editor = true := by
    cases editor <;> decide
  rw [answer, check, hformat]
  change settled (loadConfig w configFile >>= _) = _
  rw [hc]
  change settled ((checkedFiles w c paths).mapError _ >>= _) = _
  rw [hfiles]
  by_cases hnil : files = []
  · subst hnil
    rfl
  · change settled (if files.isEmpty = true then _ else _) = _
    rw [if_neg hnil, if_neg (by simpa using hnil)]
    simp only [heditor, Bool.decide_eq_true, List.isEmpty_iff_length_eq_zero]
    generalize List.findSome? _ _ = broken
    cases broken <;> rfl

theorem answer_check_of_ends (editor : Bool) (hne : files ≠ []) (h : ∀ f ∈ files, Ends w c f) :
    ∃ reports, List.Forall₂ (Reports w c editor) (files.filter (fails w c)) reports ∧
      answer w (.check paths (formatName editor) configFile) =
        { exit := if reports.length = 0 then 0 else 1
          out := if editor then [] else lineOf (summary reports.length files.length).toList
          err := reports.flatMap lineOf } := by
  have hends := breakdown?_of_mem_map h
  have htake := List.takeWhile_eq_self_iff.mpr fun r hr => Option.isNone_iff_eq_none.mpr (hends r hr)
  refine ⟨_, forall₂_reports h, ?_⟩
  rw [answer_check hc hfiles, if_neg hne]
  simp only [htake, List.findSome?_eq_none_iff.mpr hends, List.filterMap_map]
  rfl

theorem answer_check_of_breaks (editor : Bool) (hsplit : files = front ++ f :: back)
    (h : ∀ g ∈ front, Ends w c g) (hf : readScript w c.layout f = .breakdown b) :
    ∃ reports, List.Forall₂ (Reports w c editor) (front.filter (fails w c)) reports ∧
      answer w (.check paths (formatName editor) configFile) =
        { crashed (.layout b) with err := reports.flatMap lineOf } := by
  have hends := breakdown?_of_mem_map h
  have htake : ((files.map fun f => (f, readScript w c.layout f)).takeWhile fun r =>
      r.2.breakdown?.isNone) = front.map fun f => (f, readScript w c.layout f) := by
    rw [hsplit, List.map_append, List.map_cons, List.takeWhile_append_of_pos fun r hr =>
      Option.isNone_iff_eq_none.mpr (hends r hr), hf]
    exact List.append_nil _
  have hfind : ((files.map fun f => (f, readScript w c.layout f)).findSome? fun r =>
      r.2.breakdown?) = some b := by
    rw [hsplit, List.map_append, List.map_cons, List.findSome?_append,
      List.findSome?_eq_none_iff.mpr hends, hf]
    rfl
  have hne : files ≠ [] := by
    rw [hsplit]
    exact List.append_ne_nil_of_right_ne_nil _ (List.cons_ne_nil f back)
  refine ⟨_, forall₂_reports h, ?_⟩
  rw [answer_check hc hfiles, if_neg hne]
  simp only [htake, hfind, List.filterMap_map]
  rfl

theorem verdict (editor : Bool) :
    Verdict w c files editor (answer w (.check paths (formatName editor) configFile)) := by
  have hnothing : files = [] →
      answer w (.check paths (formatName editor) configFile) = failed "No script files found" :=
    fun hnil => by rw [answer_check hc hfiles, if_pos hnil]
  have hexit : (answer w (.check paths (formatName editor) configFile)).exit =
      if files ≠ [] ∧ ∀ f ∈ files, fails w c f = false then 0 else 1 := by
    by_cases hne : files = []
    · rw [hnothing hne, if_neg fun h => h.1 hne]
      rfl
    · rcases ends_or_breaks (w := w) (c := c) files with hall | ⟨front, f, back, b, hs, hfront, hf⟩
      · obtain ⟨reports, hreports, he⟩ := answer_check_of_ends hc hfiles editor hne hall
        have hlength : reports.length = 0 ↔ ∀ f ∈ files, fails w c f = false := by
          rw [← hreports.length_eq, List.length_eq_zero_iff, List.filter_eq_nil_iff]
          simp only [Bool.not_eq_true]
        rw [he]
        simp only [hlength, ne_eq, hne, not_false_eq_true, true_and]
      · obtain ⟨reports, -, he⟩ := answer_check_of_breaks hc hfiles editor hs hfront hf
        -- The file that breaks down is one that fails.
        have hmem : f ∈ files := by
          rw [hs]
          exact List.mem_append_right _ List.mem_cons_self
        rw [he, if_neg fun h => Bool.false_ne_true ((h.2 f hmem).symm.trans (fails_of_breakdown hf))]
        rfl
  constructor
  · rw [hexit]
    split <;> omega
  · rw [hexit]
    split
    · next h => exact iff_of_true rfl h
    · next h => exact iff_of_false Nat.one_ne_zero h
  · exact hnothing
  · exact answer_check_of_ends hc hfiles editor
  · exact fun _ _ _ _ => answer_check_of_breaks hc hfiles editor

end

/-- Reading a file breaks down exactly if it holds a text with a line that is too wide to be told. -/
theorem readScript_eq_breakdown (h : 1 ≤ c.layout.tabWidth) :
    readScript w c.layout f = .breakdown b ↔ b = .longWidth ∧
      ∃ bytes text, w.files.read w.directory f = .ok bytes ∧
        Text.decode (Text.dropByteOrderMark bytes) = .ok text ∧ LongDedent c.layout text := by
  unfold readScript
  cases hread : w.files.read w.directory f with
  | error e => exact iff_of_false nofun fun h => by obtain ⟨-, _, _, ⟨⟩, -⟩ := h
  | ok bytes =>
    unfold Script.parseBytes
    cases hdecode : Text.decode (Text.dropByteOrderMark bytes) with
    | error e => simp [hdecode]
    | ok text =>
      have hparse : Script.parse c.layout text (some f) = .error (.breakdown b) ↔
          b = .longWidth ∧ LongDedent c.layout text :=
        Script.parse_eq_breakdown.trans (layout_eq_error_iff h text b)
      have hunique : (∃ bytes' text', (.ok bytes : Except AccessFault _) = .ok bytes' ∧
          Text.decode (Text.dropByteOrderMark bytes') = .ok text' ∧ LongDedent c.layout text') ↔
          LongDedent c.layout text := by
        constructor
        · rintro ⟨_, text', ⟨⟩, htext, hlong⟩
          obtain rfl : text = text' := Except.ok.inj (hdecode.symm.trans htext)
          exact hlong
        · exact fun hlong => ⟨bytes, text, rfl, hdecode, hlong⟩
      rw [hunique, ← hparse]
      simp only [hdecode]
      generalize Script.parse c.layout text (some f) = result
      cases result with
      | ok t => exact iff_of_false nofun nofun
      | error e => cases e <;> simp

/-- A check answers with the sum of the readings of its files, in both forms alike. It breaks off
only at a file with a line that is too wide to be told. -/
theorem check_eq_sum (hc : loadConfig w configFile = .ok c)
    (hfiles : checkedFiles w c paths = .ok files) :
    (∀ editor, Verdict w c files editor (answer w (.check paths (formatName editor) configFile))) ∧
    (answer w (.check paths (formatName true) configFile)).exit =
      (answer w (.check paths (formatName false) configFile)).exit ∧
    ∀ f, ¬Ends w c f ↔ ∃ bytes text, w.files.read w.directory f = .ok bytes ∧
      Text.decode (Text.dropByteOrderMark bytes) = .ok text ∧ LongDedent c.layout text := by
  have hverdict := verdict hc hfiles
  refine ⟨hverdict, ?_, fun f => ?_⟩
  · have heditor := hverdict true
    have hreader := hverdict false
    have hzero := heditor.exit_zero.trans hreader.exit_zero.symm
    have hle := heditor.exit_le
    have hle' := hreader.exit_le
    omega
  · have hbreaks : ¬Ends w c f ↔ ∃ b, readScript w c.layout f = .breakdown b := by
      unfold Ends
      cases readScript w c.layout f <;> simp [Reading.breakdown?]
    rw [hbreaks]
    simp only [readScript_eq_breakdown (tabWidth_pos_of_loadConfig hc), exists_eq_left]

/-- A workspace with a script in order and a file that is no text. -/
def twoFiles : Workspace where
  files := .ofEntries [(["p".toList, "a".toList], .file [0x70, 0x61, 0x73, 0x73, 0x0A]),
    (["p".toList, "b".toList], .file [0xFF])]
  directory := .ofText "/p".toList
  platform := []

theorem check_twoFiles :
    (∃ reports : List (List Char), reports.length = 2 ∧
      answer twoFiles (.check [.ofText ['a'], .ofText ['b'], .ofText ['c']] "human".toList
          (.ofText Config.fileName.toList)) =
        { exit := 1
          out := lineOf "✗ 2 of 3 file(s) failed to parse".toList
          err := reports.flatMap lineOf }) ∧
    (answer twoFiles (.check [.ofText ['a'], .ofText ['b'], .ofText ['c']] "vscode".toList
      (.ofText Config.fileName.toList))).exit = 1 := by
  let path (name : Char) : Path := ⟨.absolute, [['p'], [name]]⟩
  let c : Config := { directory := .ofText "/p".toList }
  have hc : loadConfig twoFiles (.ofText Config.fileName.toList) = .ok c := by cbv
  have hfiles : checkedFiles twoFiles c [.ofText ['a'], .ofText ['b'], .ofText ['c']] =
      .ok [path 'a', path 'b', path 'c'] := by cbv
  obtain ⟨hverdict, hsame, -⟩ := check_eq_sum hc hfiles
  -- The first file is in order, the second one is no text and the third one is missing.
  have ha : ∃ t, readScript twoFiles {} (path 'a') = .tree t := by
    have hread : twoFiles.files.read twoFiles.directory (path 'a') =
        .ok [0x70, 0x61, 0x73, 0x73, 0x0A] := by cbv
    obtain ⟨t, ht⟩ := Script.exists_of_toBool (x := Script.parseBytes {}
      [0x70, 0x61, 0x73, 0x73, 0x0A] (path 'a')) (by cbv)
    simp only [readScript, hread, ht]
    exact ⟨t, rfl⟩
  have hb : ∃ r, readScript twoFiles {} (path 'b') = .refused r := by
    have hread : twoFiles.files.read twoFiles.directory (path 'b') = .ok [0xFF] := by cbv
    have hdecode : Text.decode (Text.dropByteOrderMark [0xFF]) =
        .error ⟨[], 0, 1, 0xFF, .invalidStart⟩ := by cbv
    simp only [readScript, hread, Script.parseBytes, hdecode]
    exact ⟨_, rfl⟩
  have hmissing : readScript twoFiles {} (path 'c') = .unreadable .notFound := by
    have hread : twoFiles.files.read twoFiles.directory (path 'c') = .error .notFound := by cbv
    simp only [readScript, hread]
  obtain ⟨⟨t, ha⟩, r, hb⟩ := ha, hb
  have hlayout : c.layout = {} := rfl
  have hends : ∀ f ∈ [path 'a', path 'b', path 'c'], Ends twoFiles c f := by
    simp [Ends, hlayout, ha, hb, hmissing, Reading.breakdown?]
  obtain ⟨reports, hreports, he⟩ := (hverdict false).whole (by simp) hends
  have hlength : 2 = reports.length := by
    simpa [fails, hlayout, ha, hb, hmissing, Reading.isTree] using hreports.length_eq
  have hsummary : summary 2 [path 'a', path 'b', path 'c'].length =
      "✗ 2 of 3 file(s) failed to parse" := by cbv
  rw [← hlength, hsummary] at he
  refine ⟨⟨reports, hlength.symm, he⟩, hsame.trans ?_⟩
  rw [he]
  rfl

end NovelScript.Command
