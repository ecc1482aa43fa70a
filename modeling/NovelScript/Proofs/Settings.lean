import Mathlib
import NovelScript.Project.Config

/-!
# What a configuration file sets

A configuration that is loaded has every setting from the file, or its default if the file does not
have the key. A file that is refused is refused for the first thing in it that is wrong. Most faults
are reported, but some of them stop the program.
-/

namespace NovelScript.Config

open Toml (Value)

variable {α : Type} {put : α → Value} {read? : Value → Option α} {type : SettingType}
  {entries document : List (List Char × Value)} {key name : String} {default a : α} {v : Value}
  {f : ConfigFault} {c : Config} {directory : Path}

/-! Sections and settings. -/

/-- The entries are those of a section, or there are none because the section is missing. -/
def HasSection (document : List (List Char × Value)) (name : String)
    (entries : List (List Char × Value)) : Prop :=
  document.lookup name.toList = some (.table entries) ∨
    document.lookup name.toList = none ∧ entries = []

/-- Something other than a table stands where a section has to stand. -/
def NoSection (document : List (List Char × Value)) (name : String) : Prop :=
  ∃ v, document.lookup name.toList = some v ∧ ∀ entries, v ≠ .table entries

/-- The setting is the value of its key, or the default because the key is missing. -/
def Sets (put : α → Value) (entries : List (List Char × Value)) (key : String)
    (default a : α) : Prop :=
  entries.lookup key.toList = some (put a) ∨ entries.lookup key.toList = none ∧ a = default

/-- The value of a key is of another type than the setting. -/
def Missets (put : α → Value) (entries : List (List Char × Value)) (key : String)
    (v : Value) : Prop :=
  entries.lookup key.toList = some v ∧ ∀ a, v ≠ put a

/-- Texts as a value. -/
def ofTexts (ts : List (List Char)) : Value := .array (ts.map .string)

theorem noSection_or (document : List (List Char × Value)) (name : String) :
    NoSection document name ∨ ∃ entries, HasSection document name entries := by
  cases h : document.lookup name.toList with
  | none => exact .inr ⟨[], .inr ⟨h, rfl⟩⟩
  | some v =>
    by_cases hv : ∃ entries, v = .table entries
    · obtain ⟨entries, rfl⟩ := hv
      exact .inr ⟨entries, .inl h⟩
    · exact .inl ⟨v, h, not_exists.mp hv⟩

theorem missets_or (put : α → Value) (entries : List (List Char × Value)) (key : String)
    (default : α) : (∃ v, Missets put entries key v) ∨ ∃ a, Sets put entries key default a := by
  cases h : entries.lookup key.toList with
  | none => exact .inr ⟨default, .inr ⟨h, rfl⟩⟩
  | some v =>
    by_cases hv : ∃ a, v = put a
    · obtain ⟨a, rfl⟩ := hv
      exact .inr ⟨a, .inl h⟩
    · exact .inl ⟨v, h, not_exists.mp hv⟩

theorem sectionOf_of_hasSection (h : HasSection document name entries) :
    sectionOf document name = .ok entries := by
  obtain h | ⟨h, rfl⟩ := h <;> rw [sectionOf, h]

theorem sectionOf_of_noSection (h : NoSection document name) :
    sectionOf document name = .error (.notTable name) := by
  obtain ⟨v, h, hv⟩ := h
  rw [sectionOf, h]
  cases v with
  | table entries => exact absurd rfl (hv entries)
  | _ => rfl

theorem setting_of_sets (hr : ∀ v a, read? v = some a ↔ v = put a)
    (h : Sets put entries key default a) : setting type read? entries key default = .ok a := by
  obtain h | ⟨h, rfl⟩ := h
  · rw [setting, h]
    simp only [(hr _ a).mpr rfl]
  · rw [setting, h]

theorem setting_of_missets (hr : ∀ v a, read? v = some a ↔ v = put a)
    (h : Missets put entries key v) :
    setting type read? entries key default = .error (.wrongType key type v) := by
  obtain ⟨h, hv⟩ := h
  have hnone : read? v = none := Option.eq_none_iff_forall_ne_some.mpr fun a ha =>
    hv a ((hr v a).mp ha)
  rw [setting, h]
  simp only [hnone]

theorem integer?_eq_some {n : Int} : integer? v = some n ↔ v = .integer n := by
  cases v <;> simp [integer?]

theorem boolean?_eq_some {b : Bool} : boolean? v = some b ↔ v = .boolean b := by
  cases v <;> simp [boolean?]

theorem texts?_eq_some {ts : List (List Char)} : texts? v = some ts ↔ v = ofTexts ts := by
  have htext : ∀ {v : Value} {t : List Char}, text? v = some t ↔ v = .string t := fun {v t} => by
    cases v <;> simp [text?]
  have hall : ∀ (items : List Value) (ts : List (List Char)),
      items.mapM text? = some ts ↔ items = ts.map .string := by
    intro items
    induction items with
    | nil => intro ts; cases ts <;> simp
    | cons v items ih =>
      intro ts
      cases ts with
      | nil => simp [Option.bind_eq_some_iff]
      | cons t ts => simp [Option.bind_eq_some_iff, htext, ih]
  cases v with
  | array items => simp [texts?, ofTexts, hall]
  | _ => simp [texts?, ofTexts]

/-! Documents. -/

/-- The document gives these rules for the layout of scripts. -/
inductive GivesLayout (document : List (List Char × Value)) : LayoutRules → Prop
  | mk {entries : List (List Char × Value)} {width : Int} {mixed : Bool}
    (hs : HasSection document "parser" entries) (hw : Sets .integer entries "tab_width" 4 width)
    (hpos : 1 ≤ width) (hm : Sets .boolean entries "allow_mixed_indentation" false mixed) :
    GivesLayout document ⟨width, mixed⟩

/-- The document says that the scripts are found there. -/
inductive GivesPaths (document : List (List Char × Value)) : ScriptPaths → Prop
  | mk {entries : List (List Char × Value)} {paths extensions : List (List Char)}
    (hs : HasSection document "project" entries)
    (hp : Sets ofTexts entries "paths" ["game/".toList] paths)
    (he : Sets ofTexts entries "extensions" [".rpy".toList] extensions) :
    GivesPaths document ⟨paths, extensions⟩

/-- Every setting of the configuration is that of the document, or its default. -/
structure Describes (document : List (List Char × Value)) (c : Config) : Prop where
  layout : GivesLayout document c.layout
  scripts : GivesPaths document c.scripts

/-- The fault is the first thing in the document that is wrong. -/
inductive Spoils (document : List (List Char × Value)) : ConfigFault → Prop
  | parser (h : NoSection document "parser") : Spoils document (.notTable "parser")
  | width {entries : List (List Char × Value)} {v : Value}
    (hs : HasSection document "parser" entries) (h : Missets .integer entries "tab_width" v) :
    Spoils document (.wrongType "tab_width" .integer v)
  | narrow {entries : List (List Char × Value)} {width : Int}
    (hs : HasSection document "parser" entries) (hw : Sets .integer entries "tab_width" 4 width)
    (h : width < 1) : Spoils document (.narrowTab width)
  | mixed {entries : List (List Char × Value)} {width : Int} {v : Value}
    (hs : HasSection document "parser" entries) (hw : Sets .integer entries "tab_width" 4 width)
    (hpos : 1 ≤ width) (h : Missets .boolean entries "allow_mixed_indentation" v) :
    Spoils document (.wrongType "allow_mixed_indentation" .boolean v)
  | project {rules : LayoutRules} (hl : GivesLayout document rules)
    (h : NoSection document "project") : Spoils document (.notTable "project")
  | paths {rules : LayoutRules} {entries : List (List Char × Value)} {v : Value}
    (hl : GivesLayout document rules) (hs : HasSection document "project" entries)
    (h : Missets ofTexts entries "paths" v) : Spoils document (.wrongType "paths" .texts v)
  | extensions {rules : LayoutRules} {entries : List (List Char × Value)}
    {paths : List (List Char)} {v : Value} (hl : GivesLayout document rules)
    (hs : HasSection document "project" entries)
    (hp : Sets ofTexts entries "paths" ["game/".toList] paths)
    (h : Missets ofTexts entries "extensions" v) :
    Spoils document (.wrongType "extensions" .texts v)

/-- A document describes a configuration, or something in it is wrong. -/
theorem describes_or_spoils (document : List (List Char × Value)) (directory : Path) :
    (∃ c, Describes document c ∧ c.directory = directory) ∨ ∃ f, Spoils document f := by
  obtain h | ⟨layout, hs⟩ := noSection_or document "parser"
  · exact .inr ⟨_, .parser h⟩
  obtain ⟨v, h⟩ | ⟨width, hw⟩ := missets_or .integer layout "tab_width" 4
  · exact .inr ⟨_, .width hs h⟩
  obtain h | hpos := Int.lt_or_le width 1
  · exact .inr ⟨_, .narrow hs hw h⟩
  obtain ⟨v, h⟩ | ⟨mixed, hm⟩ := missets_or .boolean layout "allow_mixed_indentation" false
  · exact .inr ⟨_, .mixed hs hw hpos h⟩
  have hl := GivesLayout.mk hs hw hpos hm
  obtain h | ⟨scripts, hs'⟩ := noSection_or document "project"
  · exact .inr ⟨_, .project hl h⟩
  obtain ⟨v, h⟩ | ⟨paths, hp⟩ := missets_or ofTexts scripts "paths" ["game/".toList]
  · exact .inr ⟨_, .paths hl hs' h⟩
  obtain ⟨v, h⟩ | ⟨extensions, he⟩ := missets_or ofTexts scripts "extensions" [".rpy".toList]
  · exact .inr ⟨_, .extensions hl hs' hp h⟩
  exact .inl ⟨⟨_, _, directory⟩, ⟨hl, .mk hs' hp he⟩, rfl⟩

theorem ok_bind {β : Type} (a : α) (g : α → Except ConfigFault β) : (.ok a >>= g) = g a := rfl

theorem error_bind {β : Type} (f : ConfigFault) (g : α → Except ConfigFault β) :
    (.error f >>= g) = .error f := rfl

/-- What is left to do once the layout of scripts is known. -/
theorem ofDocument_of_givesLayout {rules : LayoutRules} (h : GivesLayout document rules) :
    ofDocument document directory = do
      let scripts ← sectionOf document "project"
      let paths ← setting .texts texts? scripts "paths" ["game/".toList]
      let extensions ← setting .texts texts? scripts "extensions" [".rpy".toList]
      return ⟨rules, ⟨paths, extensions⟩, directory⟩ := by
  obtain ⟨hs, hw, hpos, hm⟩ := h
  rw [ofDocument, sectionOf_of_hasSection hs, ok_bind,
    setting_of_sets (fun _ _ => integer?_eq_some) hw, ok_bind, if_neg (by omega)]
  change (setting _ _ _ _ _ >>= _) = _
  rw [setting_of_sets (fun _ _ => boolean?_eq_some) hm, ok_bind]

theorem ofDocument_of_describes (h : Describes document c) :
    ofDocument document c.directory = .ok c := by
  obtain ⟨rules, ⟨paths, extensions⟩, directory⟩ := c
  obtain ⟨hl, hs, hp, he⟩ := h
  rw [ofDocument_of_givesLayout hl, sectionOf_of_hasSection hs, ok_bind,
    setting_of_sets (fun _ _ => texts?_eq_some) hp, ok_bind,
    setting_of_sets (fun _ _ => texts?_eq_some) he, ok_bind]
  rfl

theorem ofDocument_of_spoils (h : Spoils document f) :
    ofDocument document directory = .error f := by
  cases h with
  | parser h => rw [ofDocument, sectionOf_of_noSection h, error_bind]
  | width hs h =>
    rw [ofDocument, sectionOf_of_hasSection hs, ok_bind,
      setting_of_missets (fun _ _ => integer?_eq_some) h, error_bind]
  | narrow hs hw h =>
    rw [ofDocument, sectionOf_of_hasSection hs, ok_bind,
      setting_of_sets (fun _ _ => integer?_eq_some) hw, ok_bind, if_pos h]
    rfl
  | mixed hs hw hpos h =>
    rw [ofDocument, sectionOf_of_hasSection hs, ok_bind,
      setting_of_sets (fun _ _ => integer?_eq_some) hw, ok_bind, if_neg (by omega)]
    change (setting _ _ _ _ _ >>= _) = _
    rw [setting_of_missets (fun _ _ => boolean?_eq_some) h, error_bind]
  | project hl h =>
    rw [ofDocument_of_givesLayout hl, sectionOf_of_noSection h, error_bind]
  | paths hl hs h =>
    rw [ofDocument_of_givesLayout hl, sectionOf_of_hasSection hs, ok_bind,
      setting_of_missets (fun _ _ => texts?_eq_some) h, error_bind]
  | extensions hl hs hp h =>
    rw [ofDocument_of_givesLayout hl, sectionOf_of_hasSection hs, ok_bind,
      setting_of_sets (fun _ _ => texts?_eq_some) hp, ok_bind,
      setting_of_missets (fun _ _ => texts?_eq_some) h, error_bind]

theorem ofDocument_eq_ok :
    ofDocument document directory = .ok c ↔ Describes document c ∧ c.directory = directory := by
  constructor
  · intro h
    obtain ⟨c', hc, rfl⟩ | ⟨f, hf⟩ := describes_or_spoils document directory
    · rw [ofDocument_of_describes hc] at h
      cases h
      exact ⟨hc, rfl⟩
    · rw [ofDocument_of_spoils hf] at h
      cases h
  · rintro ⟨h, rfl⟩
    exact ofDocument_of_describes h

theorem ofDocument_eq_error : ofDocument document directory = .error f ↔ Spoils document f := by
  refine ⟨fun h => ?_, ofDocument_of_spoils⟩
  obtain ⟨c', hc, rfl⟩ | ⟨f', hf⟩ := describes_or_spoils document directory
  · rw [ofDocument_of_describes hc] at h
    cases h
  · rw [ofDocument_of_spoils hf] at h
    cases h
    exact hf

/-! Files. -/

section

variable {bytes : List UInt8} {files : FileTree} {path : Path}

/-- The bytes of a file are a document. -/
def IsDocument (bytes : List UInt8) (document : List (List Char × Value)) : Prop :=
  ∃ text, Text.decode bytes = .ok text ∧ Toml.parse (Text.unifyLineBreaks text) = .ok document

/-- The fault is the first thing in the bytes of a file that is wrong. -/
inductive Corrupts (bytes : List UInt8) : ConfigFault → Prop
  | notUtf8 {fault : Text.Utf8Fault} (h : Text.decode bytes = .error fault) :
    Corrupts bytes .notUtf8
  | malformed {text : List Char} (hd : Text.decode bytes = .ok text)
    (h : Toml.parse (Text.unifyLineBreaks text) = .error .malformed) : Corrupts bytes .malformed
  | longInteger {text : List Char} (hd : Text.decode bytes = .ok text)
    (h : Toml.parse (Text.unifyLineBreaks text) = .error .longInteger) :
    Corrupts bytes .longInteger
  | document {document : List (List Char × Value)} {f : ConfigFault}
    (hd : IsDocument bytes document) (h : Spoils document f) : Corrupts bytes f

/-- What is wrong with the bytes of a file stops the program instead of being reported. -/
inductive Crashes (bytes : List UInt8) : Prop
  | notUtf8 {fault : Text.Utf8Fault} (h : Text.decode bytes = .error fault)
  | longInteger {text : List Char} (hd : Text.decode bytes = .ok text)
    (h : Toml.parse (Text.unifyLineBreaks text) = .error .longInteger)
  | parser {document : List (List Char × Value)} (hd : IsDocument bytes document)
    (h : NoSection document "parser")
  | project {document : List (List Char × Value)} {rules : LayoutRules}
    (hd : IsDocument bytes document) (hl : GivesLayout document rules)
    (h : NoSection document "project")
  | unwritable {document : List (List Char × Value)} {key : String} {type : SettingType}
    {got : Value} (hd : IsDocument bytes document) (h : Spoils document (.wrongType key type got))
    (hg : got.isWritable = false)

theorem ofBytes_of_isDocument (h : IsDocument bytes document) :
    ofBytes bytes directory = ofDocument document directory := by
  obtain ⟨text, hd, ht⟩ := h
  rw [ofBytes, hd]
  simp only [ht]

/-- The bytes of a file are a document, or something is wrong with them. -/
theorem isDocument_or (bytes : List UInt8) (directory : Path) :
    (∃ document, IsDocument bytes document) ∨
      ∃ f, Corrupts bytes f ∧ ofBytes bytes directory = .error f := by
  cases hd : Text.decode bytes with
  | error fault => exact .inr ⟨_, .notUtf8 hd, by rw [ofBytes, hd]⟩
  | ok text =>
    cases ht : Toml.parse (Text.unifyLineBreaks text) with
    | ok document => exact .inl ⟨document, text, hd, ht⟩
    | error refusal =>
      cases refusal with
      | malformed => exact .inr ⟨_, .malformed hd ht, by rw [ofBytes, hd]; simp only [ht]⟩
      | longInteger => exact .inr ⟨_, .longInteger hd ht, by rw [ofBytes, hd]; simp only [ht]⟩

theorem ofBytes_of_corrupts (h : Corrupts bytes f) : ofBytes bytes directory = .error f := by
  cases h with
  | notUtf8 h => rw [ofBytes, h]
  | malformed hd h | longInteger hd h =>
    rw [ofBytes, hd]
    simp only [h]
  | document hd h => rw [ofBytes_of_isDocument hd, ofDocument_of_spoils h]

theorem ofBytes_eq_ok : ofBytes bytes directory = .ok c ↔
    ∃ document, IsDocument bytes document ∧ Describes document c ∧ c.directory = directory := by
  constructor
  · intro h
    obtain ⟨document, hd⟩ | ⟨f, -, hf⟩ := isDocument_or bytes directory
    · rw [ofBytes_of_isDocument hd] at h
      exact ⟨document, hd, ofDocument_eq_ok.mp h⟩
    · rw [hf] at h
      cases h
  · rintro ⟨document, hd, h⟩
    rw [ofBytes_of_isDocument hd]
    exact ofDocument_eq_ok.mpr h

theorem ofBytes_eq_error : ofBytes bytes directory = .error f ↔ Corrupts bytes f := by
  refine ⟨fun h => ?_, ofBytes_of_corrupts⟩
  obtain ⟨document, hd⟩ | ⟨f', hc, hf⟩ := isDocument_or bytes directory
  · rw [ofBytes_of_isDocument hd] at h
    exact .document hd (ofDocument_eq_error.mp h)
  · rw [hf] at h
    cases h
    exact hc

/-- No configuration has tab stops that are less than one character apart. -/
theorem tabWidth_pos_of_load (h : load files path = .ok c) : 1 ≤ c.layout.tabWidth := by
  unfold load at h
  split at h
  · cases h
  split at h
  · cases h
    exact (by decide : (1 : Int) ≤ 4)
  · cases h
  · obtain ⟨document, -, ⟨hlayout, -⟩, -⟩ := ofBytes_eq_ok.mp h
    generalize c.layout = rules at hlayout
    cases hlayout with
    | mk _ _ hpos _ => exact hpos

/-- The faults that are not reported are those that stop the program. -/
theorem exists_corrupts_iff :
    (∃ f, Corrupts bytes f ∧ f.message? path = none) ↔ Crashes bytes := by
  have hwrong : ∀ {key : String} {type : SettingType} {got : Value},
      (ConfigFault.wrongType key type got).message? path = none ↔ got.isWritable = false := by
    intro key type got
    cases h : got.isWritable <;> simp [ConfigFault.message?, h]
  constructor
  · rintro ⟨f, hf, hmessage⟩
    cases hf with
    | notUtf8 h => exact .notUtf8 h
    | malformed hd h => cases hmessage
    | longInteger hd h => exact .longInteger hd h
    | document hd h =>
      cases h with
      | parser h => exact .parser hd h
      | project hl h => exact .project hd hl h
      | narrow hs hw h => cases hmessage
      | width hs h => exact .unwritable hd (.width hs h) (hwrong.mp hmessage)
      | mixed hs hw hpos h => exact .unwritable hd (.mixed hs hw hpos h) (hwrong.mp hmessage)
      | paths hl hs h => exact .unwritable hd (.paths hl hs h) (hwrong.mp hmessage)
      | extensions hl hs hp h =>
        exact .unwritable hd (.extensions hl hs hp h) (hwrong.mp hmessage)
  · intro h
    cases h with
    | notUtf8 h => exact ⟨_, .notUtf8 h, rfl⟩
    | longInteger hd h => exact ⟨_, .longInteger hd h, rfl⟩
    | parser hd h => exact ⟨_, .document hd (.parser h), rfl⟩
    | project hd hl h => exact ⟨_, .document hd (.project hl h), rfl⟩
    | unwritable hd h hg => exact ⟨_, .document hd h, hwrong.mpr hg⟩

/-- A configuration file is loaded exactly if its bytes describe a configuration. Otherwise the
first thing in it that is wrong is reported, unless the program stops there. -/
theorem load_of_file (hlong : files.findsTooLong path path = false)
    (hfile : files.find? path.names = some (.file bytes)) :
    (∀ c, load files path = .ok c ↔
      ∃ document, IsDocument bytes document ∧ Describes document c ∧ c.directory = path.parent) ∧
    (∀ f, load files path = .error f ↔ Corrupts bytes f) ∧
    ((∃ f, load files path = .error f ∧ f.message? path = none) ↔ Crashes bytes) := by
  have hload : load files path = ofBytes bytes path.parent := by
    rw [load, hlong, if_neg Bool.false_ne_true, hfile]
  have herror : ∀ f, load files path = .error f ↔ Corrupts bytes f := fun f => by
    rw [hload, ofBytes_eq_error]
  refine ⟨fun c => by rw [hload, ofBytes_eq_ok], herror, ?_⟩
  simp only [herror]
  exact exists_corrupts_iff

/-- A file that sets some things and leaves others to their defaults. -/
def sparseFile : List UInt8 :=
  "[parser]\nallow_mixed_indentation = true\n[project]\npaths = ['src/']\n".toList.map
    fun x => x.toNat.toUInt8

/-- The path of a configuration in a directory below the root. -/
def configPath : Path := .ofText "/p/renparse.toml".toList

theorem load_sparseFile :
    load (.ofEntries [(configPath.names, .file sparseFile)]) configPath =
      .ok ⟨⟨4, true⟩, ⟨["src/".toList], [".rpy".toList]⟩, configPath.parent⟩ := by
  have hlong : (FileTree.ofEntries [(configPath.names, .file sparseFile)]).findsTooLong configPath
      configPath = false := by cbv
  have hfile : (FileTree.ofEntries [(configPath.names, .file sparseFile)]).find?
      configPath.names = some (.file sparseFile) := by cbv
  have hdocument : IsDocument sparseFile
      [("parser".toList, .table [("allow_mixed_indentation".toList, .boolean true)]),
        ("project".toList, .table [("paths".toList, .array [.string "src/".toList])])] :=
    ⟨"[parser]\nallow_mixed_indentation = true\n[project]\npaths = ['src/']\n".toList,
      by cbv, by cbv⟩
  refine ((load_of_file hlong hfile).1 _).mpr ⟨_, hdocument, ⟨?_, ?_⟩, rfl⟩
  · exact .mk (.inl rfl) (.inr ⟨rfl, rfl⟩) (by decide) (.inl rfl)
  · exact .mk (.inl rfl) (.inl rfl) (.inr ⟨rfl, rfl⟩)

end

end NovelScript.Config
