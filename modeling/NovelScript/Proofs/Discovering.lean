import NovelScript.Project.Discovery
import NovelScript.Proofs.Patterns

/-!
# What is discovered

Discovery lists each thing once and in the order of names, so its answer depends on nothing but what
is found. For extensions without a meaning in patterns this is every script of the project: each
file that is named, and each file below a named directory whose name ends with an extension. A
directory below a named one is taken for a script if its name ends with an extension.
-/

namespace NovelScript

theorem mapM_eq_ok {ε α β : Type} {f : α → Except ε β} {as : List α} {bs : List β} :
    as.mapM f = .ok bs ↔ List.Forall₂ (fun a b => f a = .ok b) as bs := by
  induction as generalizing bs with
  | nil =>
    rw [List.mapM_nil, List.forall₂_nil_left_iff]
    exact ⟨fun h => (Except.ok.inj h).symm, fun h => h ▸ rfl⟩
  | cons a as ih =>
    rw [List.mapM_cons]
    constructor
    · intro h
      cases hb : f a with
      | error e =>
        rw [hb] at h
        cases h
      | ok b =>
        cases hbs : as.mapM f with
        | error e =>
          rw [hb, hbs] at h
          cases h
        | ok bs' =>
          rw [hb, hbs] at h
          cases h
          exact .cons hb (ih.mp hbs)
    · rintro (_ | ⟨hb, hbs⟩)
      rw [hb, ih.mpr hbs]
      rfl

theorem exists_mapM_eq_ok {ε α β : Type} {f : α → Except ε β} {as : List α} :
    (∃ bs, as.mapM f = .ok bs) ↔ ∀ a ∈ as, ∃ b, f a = .ok b := by
  simp only [mapM_eq_ok]
  induction as with
  | nil => exact iff_of_true ⟨[], .nil⟩ (List.forall_mem_nil _)
  | cons a as ih =>
    rw [List.forall_mem_cons, ← ih]
    constructor
    · rintro ⟨_, _ | ⟨hb, hbs⟩⟩
      exact ⟨⟨_, hb⟩, _, hbs⟩
    · rintro ⟨⟨b, hb⟩, bs, hbs⟩
      exact ⟨b :: bs, .cons hb hbs⟩

theorem mem_flatten_of_mapM {ε α β : Type} {f : α → Except ε (List β)} {as : List α}
    {bs : List (List β)} (h : as.mapM f = .ok bs) {x : β} :
    x ∈ bs.flatten ↔ ∃ a ∈ as, ∃ b, f a = .ok b ∧ x ∈ b := by
  have hparts := mapM_eq_ok.mp h
  clear h
  induction hparts with
  | nil => simp
  | @cons a b as bs hb _ ih =>
    rw [List.flatten_cons, List.mem_append, List.exists_mem_cons_iff, hb]
    simp only [Except.ok.injEq, exists_eq_left', ih]

/-! Order. -/

variable {a b : List (List Char)} {found found' : List (List (List Char))}

theorem precedes_iff_lt : Path.precedes a b = true ↔ a < b := by
  rw [Path.precedes, List.lex_eq_true_iff_lex]
  simp only [List.lex_eq_true_iff_lex, decide_eq_true_eq]
  exact Iff.rfl

theorem nodup_eraseDups {α : Type} [BEq α] [LawfulBEq α] (as : List α) : as.eraseDups.Nodup := by
  match as with
  | [] => exact List.nodup_nil
  | a :: as =>
    rw [List.eraseDups_cons]
    refine List.nodup_cons.mpr ⟨?_, nodup_eraseDups _⟩
    simp
termination_by as.length
decreasing_by
  have hle := List.length_filter_le (fun b => !b == a) as
  simp only [List.length_cons]
  omega

theorem mem_inOrder : a ∈ inOrder found ↔ a ∈ found := by
  rw [inOrder, List.mem_mergeSort, List.mem_eraseDups]

/-- Each comes before all that follow it, so none comes twice. -/
theorem pairwise_inOrder (found : List (List (List Char))) :
    (inOrder found).Pairwise fun a b => a < b := by
  have hle : ∀ a b : List (List Char), (!Path.precedes b a) = true ↔ a ≤ b := by
    intro a b
    rw [Bool.not_eq_true', ← Bool.not_eq_true, precedes_iff_lt, not_lt]
  have hsorted : (inOrder found).Pairwise fun a b => (!Path.precedes b a) = true := by
    apply List.pairwise_mergeSort
    · intro a b c hab hbc
      exact (hle a c).mpr (((hle a b).mp hab).trans ((hle b c).mp hbc))
    · intro a b
      rw [Bool.or_eq_true, hle, hle]
      exact le_total a b
  have hnodup : (inOrder found).Nodup :=
    (List.mergeSort_perm _ _).nodup_iff.mpr (nodup_eraseDups found)
  exact (hsorted.and hnodup).imp fun h => lt_of_le_of_ne ((hle _ _).mp h.1) h.2

theorem inOrder_congr (h : ∀ a, a ∈ found ↔ a ∈ found') : inOrder found = inOrder found' := by
  have hsorted := pairwise_inOrder found
  have hsorted' := pairwise_inOrder found'
  apply List.Subset.antisymm_of_pairwise (r := (· < ·)) hsorted hsorted'
  · intro a ha
    exact mem_inOrder.mpr ((h a).mp (mem_inOrder.mp ha))
  · intro a ha
    exact mem_inOrder.mpr ((h a).mpr (mem_inOrder.mp ha))

/-! What is looked for. -/

/-- The names from the root on that a path of a project stands for. -/
def placeOf (root : Path) (p : List Char) : List (List Char) := (root.resolve (.ofText p)).names

/-- The names lie at some depth below the directory, and the last of them ends with one of the
extensions. -/
def LiesBelow (extensions : List (List Char)) (directory names : List (List Char)) : Prop :=
  ∃ inner name, names = inner ++ [name] ∧ directory <+: inner ∧ ∃ e ∈ extensions, e <:+ name

/-- The names lie below a directory that the project names, and end like a script. -/
def IsBelow (files : FileTree) (root : Path) (scripts : ScriptPaths)
    (names : List (List Char)) : Prop :=
  ∃ p ∈ scripts.paths, files.find? (placeOf root p) = some .directory ∧
    LiesBelow scripts.extensions (placeOf root p) names

/-- A file that the project names, or that ends like a script and lies below a directory that the
project names. -/
def IsScript (files : FileTree) (root : Path) (scripts : ScriptPaths)
    (names : List (List Char)) : Prop :=
  (∃ bytes, files.find? names = some (.file bytes)) ∧
    ((∃ p ∈ scripts.paths, names = placeOf root p) ∨ IsBelow files root scripts names)

/-- A directory that ends like a script and lies below a directory that the project names. -/
def IsMistaken (files : FileTree) (root : Path) (scripts : ScriptPaths)
    (names : List (List Char)) : Prop :=
  files.find? names = some .directory ∧ IsBelow files root scripts names

/-- The system can say what the path of a project stands for. -/
def IsAnswered (files : FileTree) (root : Path) (p : List Char) : Prop :=
  (Path.ofText p).holdsNull = false ∧
    files.findsTooLong (root.resolve (.ofText p)) (root.resolve (.ofText p)) = false

variable {files : FileTree} {root : Path} {scripts : ScriptPaths} {p e : List Char}
  {extensions : List (List Char)} {names directory : List (List Char)}

theorem withExtension_of_plain (he : IsPlain e) : withExtension files directory e =
    .ok (Glob.selectBelow files ⟨[.fitting (.any :: e.map .char)], false⟩ directory) := by
  have hseeks : Glob.seeksLongName files ⟨[.fitting (.any :: e.map .char)], false⟩ directory =
      false := rfl
  rw [withExtension, Glob.parse?_star he]
  simp only [hseeks, Bool.false_eq_true, if_false]

/-- What the names of one path stand for is found in the tree. -/
theorem scriptsAt_of_answered {base : Path} (ht : files.IsTree)
    (hext : ∀ e ∈ extensions, IsPlain e) (hb : ['.', '.'] ∉ base.names)
    (hlong : files.findsTooLong base base = false) :
    ∃ found, scriptsAt files extensions base = .ok found ∧ ∀ names, names ∈ found ↔
      (∃ e, files.find? names = some e) ∧
        ((∃ bytes, files.find? base.names = some (.file bytes)) ∧ names = base.names ∨
          files.find? base.names = some .directory ∧ LiesBelow extensions base.names names) := by
  rw [scriptsAt, hlong]
  simp only [Bool.false_eq_true, if_false]
  cases hfind : files.find? base.names with
  | none => exact ⟨[], rfl, fun names => by simp⟩
  | some entry =>
    cases entry with
    | file bytes =>
      refine ⟨_, rfl, fun names => ?_⟩
      rw [List.mem_singleton]
      constructor
      · rintro rfl
        exact ⟨⟨_, hfind⟩, .inl ⟨⟨bytes, rfl⟩, rfl⟩⟩
      · rintro ⟨-, ⟨-, rfl⟩ | ⟨⟨⟩, -⟩⟩
        rfl
    | directory =>
      have hall : ∀ e ∈ extensions, ∃ part, withExtension files base.names e = .ok part :=
        fun e he => ⟨_, withExtension_of_plain (hext e he)⟩
      obtain ⟨parts, hparts⟩ := exists_mapM_eq_ok.mpr hall
      refine ⟨parts.flatten, by simp only [hparts]; rfl, fun names => ?_⟩
      rw [mem_flatten_of_mapM hparts]
      constructor
      · rintro ⟨e, he, part, hpart, hmem⟩
        rw [withExtension_of_plain (hext e he)] at hpart
        cases hpart
        obtain ⟨inner, name, rfl, hpre, hentry, hfits⟩ := (Glob.mem_selectBelow ht hb).mp hmem
        refine ⟨hentry, .inr ⟨rfl, inner, name, rfl, hpre, e, he, ?_⟩⟩
        exact GlobPiece.fits_any_chars.mp hfits
      · rintro ⟨hentry, ⟨⟨_, ⟨⟩⟩, -⟩ | ⟨-, inner, name, rfl, hpre, e, he, hend⟩⟩
        refine ⟨e, he, _, withExtension_of_plain (hext e he), ?_⟩
        exact (Glob.mem_selectBelow ht hb).mpr
          ⟨inner, name, rfl, hpre, hentry, GlobPiece.fits_any_chars.mpr hend⟩

/-- What one path of a project comes to. -/
def found? (files : FileTree) (root : Path) (extensions : List (List Char)) (p : List Char) :
    Except DiscoveryFault (List (List (List Char))) :=
  let path := Path.ofText p
  if path.holdsNull then throw (.path path)
  else scriptsAt files extensions (root.resolve path)

theorem discover_eq (files : FileTree) (root : Path) (scripts : ScriptPaths) :
    discover files root scripts = (scripts.paths.mapM (found? files root scripts.extensions)).map
      fun parts => (inOrder parts.flatten).map fun names => ⟨.absolute, names⟩ := by
  rw [discover]
  change (scripts.paths.mapM (found? files root scripts.extensions) >>= _) = _
  cases scripts.paths.mapM (found? files root scripts.extensions) <;> rfl

theorem found?_of_answered (ht : files.IsTree) (hext : ∀ e ∈ extensions, IsPlain e)
    (hp : IsAnswered files root p) :
    ∃ part, found? files root extensions p = .ok part ∧ ∀ names, names ∈ part ↔
      (∃ e, files.find? names = some e) ∧
        ((∃ bytes, files.find? (placeOf root p) = some (.file bytes)) ∧ names = placeOf root p ∨
          files.find? (placeOf root p) = some .directory ∧
            LiesBelow extensions (placeOf root p) names) := by
  rw [found?]
  simp only [hp.1, Bool.false_eq_true, if_false]
  exact scriptsAt_of_answered ht hext (Path.forward_collapse _) hp.2

theorem answered_of_found? {part : List (List (List Char))}
    (h : found? files root extensions p = .ok part) : IsAnswered files root p := by
  rw [found?] at h
  cases hnull : (Path.ofText p).holdsNull with
  | true =>
    simp only [hnull, if_true] at h
    cases h
  | false =>
    refine ⟨hnull, ?_⟩
    simp only [hnull, Bool.false_eq_true, if_false, scriptsAt] at h
    by_contra hlong
    rw [if_pos (by simpa using hlong)] at h
    cases h

/-- What is found under all paths together: the scripts, and the directories that end like one. -/
theorem mem_found_iff (ht : files.IsTree) (hext : ∀ e ∈ scripts.extensions, IsPlain e)
    {parts : List (List (List (List Char)))}
    (h : scripts.paths.mapM (found? files root scripts.extensions) = .ok parts) :
    names ∈ parts.flatten ↔
      IsScript files root scripts names ∨ IsMistaken files root scripts names := by
  rw [mem_flatten_of_mapM h]
  constructor
  · rintro ⟨p, hp, part, hpart, hmem⟩
    obtain ⟨part', hpart', hiff⟩ := found?_of_answered ht hext (answered_of_found? hpart)
    obtain rfl : part = part' := Except.ok.inj (hpart.symm.trans hpart')
    obtain ⟨⟨entry, he⟩, ⟨⟨bytes, hfile⟩, rfl⟩ | ⟨hdirectory, hbelow⟩⟩ := (hiff names).mp hmem
    · exact .inl ⟨⟨bytes, hfile⟩, .inl ⟨p, hp, rfl⟩⟩
    · cases entry with
      | file bytes => exact .inl ⟨⟨bytes, he⟩, .inr ⟨p, hp, hdirectory, hbelow⟩⟩
      | directory => exact .inr ⟨he, p, hp, hdirectory, hbelow⟩
  · intro hnames
    have hall : ∀ p ∈ scripts.paths, IsAnswered files root p := by
      intro p hp
      obtain ⟨part, hpart⟩ := exists_mapM_eq_ok.mp ⟨parts, h⟩ p hp
      exact answered_of_found? hpart
    have hfound : ∃ p ∈ scripts.paths, (∃ e, files.find? names = some e) ∧
        ((∃ bytes, files.find? (placeOf root p) = some (.file bytes)) ∧ names = placeOf root p ∨
          files.find? (placeOf root p) = some .directory ∧
            LiesBelow scripts.extensions (placeOf root p) names) := by
      rcases hnames with ⟨⟨bytes, he⟩, ⟨p, hp, rfl⟩ | ⟨p, hp, hbelow⟩⟩ | ⟨he, p, hp, hbelow⟩
      · exact ⟨p, hp, ⟨_, he⟩, .inl ⟨⟨bytes, he⟩, rfl⟩⟩
      · exact ⟨p, hp, ⟨_, he⟩, .inr hbelow⟩
      · exact ⟨p, hp, ⟨_, he⟩, .inr hbelow⟩
    obtain ⟨p, hp, hnames⟩ := hfound
    obtain ⟨part, hpart, hiff⟩ := found?_of_answered ht hext (hall p hp)
    exact ⟨p, hp, part, hpart, (hiff names).mpr hnames⟩

theorem discover_eq_ok_iff {found : List Path} : discover files root scripts = .ok found ↔
    ∃ parts, scripts.paths.mapM (found? files root scripts.extensions) = .ok parts ∧
      found = (inOrder parts.flatten).map fun names => ⟨.absolute, names⟩ := by
  rw [discover_eq]
  cases scripts.paths.mapM (found? files root scripts.extensions) with
  | error f => exact iff_of_false nofun (by rintro ⟨_, ⟨⟩, -⟩)
  | ok parts =>
    constructor
    · intro h
      exact ⟨parts, rfl, (Except.ok.inj h).symm⟩
    · rintro ⟨_, ⟨⟩, rfl⟩
      rfl

theorem exists_parts_iff (ht : files.IsTree) (hext : ∀ e ∈ scripts.extensions, IsPlain e) :
    (∃ parts, scripts.paths.mapM (found? files root scripts.extensions) = .ok parts) ↔
      ∀ p ∈ scripts.paths, IsAnswered files root p := by
  rw [exists_mapM_eq_ok]
  refine forall₂_congr fun p _ => ⟨fun ⟨part, hpart⟩ => answered_of_found? hpart, fun hp => ?_⟩
  obtain ⟨part, hpart, -⟩ := found?_of_answered ht hext hp
  exact ⟨part, hpart⟩

/-- Discovery answers exactly if every path of the project is answered for. It then lists, in the
order of names and each once, the scripts of the project and the directories that it takes for
scripts, and it does not matter in which order or how often paths and extensions are given. -/
theorem discover_eq_ok (ht : files.IsTree) (hext : ∀ e ∈ scripts.extensions, IsPlain e) :
    ((∃ found, discover files root scripts = .ok found) ↔
      ∀ p ∈ scripts.paths, IsAnswered files root p) ∧
    ∀ found, discover files root scripts = .ok found →
      found.Pairwise (fun a b => Path.precedes a.names b.names) ∧ found.Nodup ∧
      (∀ q, q ∈ found ↔ q.root = .absolute ∧
        (IsScript files root scripts q.names ∨ IsMistaken files root scripts q.names)) ∧
      ∀ scripts' : ScriptPaths, (∀ p, p ∈ scripts'.paths ↔ p ∈ scripts.paths) →
        (∀ e, e ∈ scripts'.extensions ↔ e ∈ scripts.extensions) →
        discover files root scripts' = .ok found := by
  constructor
  · rw [← exists_parts_iff ht hext]
    simp only [discover_eq_ok_iff]
    exact ⟨fun ⟨_, parts, hparts, _⟩ => ⟨parts, hparts⟩, fun ⟨parts, hparts⟩ =>
      ⟨_, parts, hparts, rfl⟩⟩
  · intro found h
    obtain ⟨parts, hparts, rfl⟩ := discover_eq_ok_iff.mp h
    have hsorted := pairwise_inOrder parts.flatten
    refine ⟨?_, ?_, ?_, ?_⟩
    · rw [List.pairwise_map]
      exact hsorted.imp precedes_iff_lt.mpr
    · refine List.Nodup.map (fun a b hab => ?_) (hsorted.imp ne_of_lt)
      exact congrArg Path.names hab
    · intro q
      rw [List.mem_map, ← mem_found_iff ht hext hparts]
      constructor
      · rintro ⟨names, hnames, rfl⟩
        exact ⟨rfl, mem_inOrder.mp hnames⟩
      · rintro ⟨hroot, hnames⟩
        refine ⟨q.names, mem_inOrder.mpr hnames, ?_⟩
        rw [← hroot]
    · intro scripts' hpaths hextensions
      have hext' : ∀ e ∈ scripts'.extensions, IsPlain e := fun e he =>
        hext e ((hextensions e).mp he)
      have hanswered : ∀ p ∈ scripts'.paths, IsAnswered files root p := fun p hp =>
        (exists_parts_iff ht hext).mp ⟨parts, hparts⟩ p ((hpaths p).mp hp)
      obtain ⟨parts', hparts'⟩ := (exists_parts_iff ht hext').mpr hanswered
      have hsame : inOrder parts.flatten = inOrder parts'.flatten := by
        apply inOrder_congr
        intro names
        rw [mem_found_iff ht hext hparts, mem_found_iff ht hext' hparts']
        simp only [IsScript, IsMistaken, IsBelow, LiesBelow, hpaths, hextensions]
      exact discover_eq_ok_iff.mpr ⟨parts', hparts', by rw [hsame]⟩

/-- A project with a script and a directory whose name ends like one. -/
def scriptDirectory : FileTree := .ofEntries [
  (["p".toList, "game".toList, "d.rpy".toList], .directory),
  (["p".toList, "game".toList, "a.rpy".toList], .file [])]

theorem discover_scriptDirectory :
    ∃ found, discover scriptDirectory (.ofText "/p".toList) {} = .ok found ∧
      .ofText "/p/game/a.rpy".toList ∈ found ∧ .ofText "/p/game/d.rpy".toList ∈ found := by
  have ht : scriptDirectory.IsTree := ⟨by decide +kernel, by decide +kernel⟩
  have hext : ∀ e ∈ ({} : ScriptPaths).extensions, IsPlain e := by
    intro e he
    rw [List.mem_singleton.mp he]
    decide
  have hanswered : ∀ p ∈ ({} : ScriptPaths).paths,
      IsAnswered scriptDirectory (.ofText "/p".toList) p := by
    intro p hp
    rw [List.mem_singleton.mp hp]
    exact ⟨by cbv, by cbv⟩
  have hplace : placeOf (.ofText "/p".toList) "game/".toList = ["p".toList, "game".toList] := by cbv
  have hbelow : ∀ name : List Char, ".rpy".toList <:+ name →
      IsBelow scriptDirectory (.ofText "/p".toList) {} ["p".toList, "game".toList, name] := by
    intro name hname
    refine ⟨"game/".toList, List.mem_singleton_self _, by rw [hplace]; cbv, ?_⟩
    rw [hplace]
    exact ⟨_, name, rfl, List.prefix_rfl, _, List.mem_singleton_self _, hname⟩
  obtain ⟨hok, hfound⟩ := discover_eq_ok ht hext
  obtain ⟨found, h⟩ := hok.mpr hanswered
  have hmem := (hfound found h).2.2.1
  refine ⟨found, h, (hmem _).mpr ⟨by cbv, .inl ⟨⟨[], by cbv⟩, .inr ?_⟩⟩,
    (hmem _).mpr ⟨by cbv, .inr ⟨by cbv, ?_⟩⟩⟩
  · exact hbelow "a.rpy".toList (by decide +kernel)
  · exact hbelow "d.rpy".toList (by decide +kernel)

end NovelScript
