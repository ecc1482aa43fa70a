import Mathlib
import NovelScript.Project.Glob

/-!
# What a pattern selects

A star and characters without a meaning of their own fit the names that end with these characters.
In a file tree such a pattern selects what has such a name and lies in a directory or at any depth
below it, files and directories alike.
-/

namespace NovelScript

/-- Every name of the tree lies in a directory of the tree, and none leads back. -/
structure FileTree.IsTree (t : FileTree) : Prop where
  parents : ∀ e ∈ t.entries, ∀ n < e.1.length, t.find? (e.1.take n) = some .directory
  forward : ∀ e ∈ t.entries, ['.', '.'] ∉ e.1

/-- Whether no character has a meaning in patterns or separates names. -/
def IsPlain (cs : List Char) : Prop := ∀ c ∈ cs, c ≠ '*' ∧ c ≠ '?' ∧ c ≠ '[' ∧ c ≠ '/'

instance (cs : List Char) : Decidable (IsPlain cs) := List.decidableBAll _ cs

variable {t : FileTree} {cs ext name : List Char} {directory names : List (List Char)}

theorem IsPlain.star_not_mem (h : IsPlain cs) : '*' ∉ cs := fun hm => (h _ hm).1 rfl

theorem IsPlain.slash_not_mem (h : IsPlain cs) : '/' ∉ cs := fun hm => (h _ hm).2.2.2 rfl

/-! Patterns for one name. -/

namespace GlobPiece

theorem parse_of_plain (h : IsPlain cs) : parse cs = cs.map char := by
  induction cs with
  | nil => rw [parse, List.map_nil]
  | cons c cs ih =>
    obtain ⟨⟨hstar, hone, hopen, -⟩, hrest⟩ := List.forall_mem_cons.mp h
    rw [parse, if_neg hstar, if_neg hone, if_neg hopen, ih hrest, List.map_cons]

theorem parse_star (h : IsPlain ext) : parse ('*' :: ext) = any :: ext.map char := by
  rw [parse, if_pos rfl, parse_of_plain h]

theorem fits_chars : fits (ext.map char) name = true ↔ name = ext := by
  induction ext generalizing name with
  | nil => cases name <;> simp [fits]
  | cons d ext ih => cases name <;> simp [fits, ih]

/-- A star fits all that is before the end of the name. -/
theorem fits_any_chars : fits (any :: ext.map char) name = true ↔ ext <:+ name := by
  induction name with
  | nil => rw [fits, fits_chars, List.suffix_nil, eq_comm]
  | cons c name ih => rw [fits, Bool.or_eq_true, fits_chars, ih, List.suffix_cons_iff, eq_comm]

end GlobPiece

namespace Path

theorem pieces_of_not_mem (h : '/' ∉ cs) : pieces cs = [cs] := by
  induction cs with
  | nil => rfl
  | cons c cs ih =>
    obtain ⟨hc, hrest⟩ := List.ne_and_not_mem_of_not_mem_cons h
    rw [pieces, if_neg (Ne.symm hc), ih hrest]

/-- What names come to when they are followed one after the other, innermost first. -/
theorem foldl_collapse (h : ['.', '.'] ∉ names) (up : List (List Char)) :
    names.foldl (fun up n => if n = ['.', '.'] then up.tail else n :: up) up =
      names.reverse ++ up := by
  induction names generalizing up with
  | nil => rfl
  | cons n names ih =>
    obtain ⟨hn, hrest⟩ := List.ne_and_not_mem_of_not_mem_cons h
    rw [List.foldl_cons, if_neg (Ne.symm hn), ih hrest, List.reverse_cons, List.append_assoc]
    rfl

theorem collapse_of_forward (h : ['.', '.'] ∉ names) : collapse names = names := by
  rw [collapse, foldl_collapse h, List.append_nil, List.reverse_reverse]

theorem forward_collapse (names : List (List Char)) : ['.', '.'] ∉ collapse names := by
  have hfold : ∀ up : List (List Char), ['.', '.'] ∉ up →
      ['.', '.'] ∉ names.foldl (fun up n => if n = ['.', '.'] then up.tail else n :: up) up := by
    induction names with
    | nil => exact fun _ hup => hup
    | cons n names ih =>
      intro up hup
      apply ih
      dsimp only
      split
      · exact fun hm => hup (List.mem_of_mem_tail hm)
      · next hn => exact List.not_mem_cons_of_ne_of_not_mem (Ne.symm hn) hup
  rw [collapse, List.mem_reverse]
  exact hfold [] List.not_mem_nil

end Path

namespace Glob

theorem hasDoubleStar_of_not_mem (h : '*' ∉ cs) : hasDoubleStar cs = false := by
  fun_induction hasDoubleStar cs with
  | case1 => exact absurd List.mem_cons_self h
  | case2 c cs _ ih => exact ih fun hm => h (List.mem_cons_of_mem c hm)
  | case3 => rfl

theorem level?_star (h : IsPlain ext) :
    level? ('*' :: ext) = some (.fitting (.any :: ext.map .char)) := by
  have hstar := h.star_not_mem
  have hne : '*' :: ext ≠ ['*', '*'] := by
    intro he
    rw [(List.cons.inj he).2] at hstar
    exact hstar List.mem_cons_self
  have hdouble : hasDoubleStar ('*' :: ext) = false := by
    cases ext with
    | nil => rfl
    | cons c cs =>
      rw [hasDoubleStar]
      · exact hasDoubleStar_of_not_mem hstar
      · intro tail _ he
        exact hstar ((List.cons.inj he).1 ▸ List.mem_cons_self)
  rw [level?, if_neg hne, hdouble, if_neg Bool.false_ne_true, if_pos (by rfl),
    GlobPiece.parse_star h]

theorem parse?_star (h : IsPlain ext) :
    parse? ('*' :: ext) = some ⟨[.fitting (.any :: ext.map .char)], false⟩ := by
  have hslash : '/' ∉ '*' :: ext := List.not_mem_cons_of_ne_of_not_mem (by decide) h.slash_not_mem
  have hlast : ('*' :: ext).getLast? ≠ some '/' := fun he => hslash (List.mem_of_getLast? he)
  have hnames : Path.namesOf ('*' :: ext) = ['*' :: ext] := by
    rw [Path.namesOf, Path.pieces_of_not_mem hslash]
    cases ext <;> rfl
  rw [parse?, hnames, List.mapM_cons, level?_star h, List.mapM_nil]
  simp [hlast]

/-! Selections in a tree. -/

theorem mem_keys : names ∈ t.entries.map Prod.fst ↔ ∃ e, t.find? names = some e := by
  rw [← Option.isSome_iff_exists, FileTree.find?, List.lookup_isSome_iff]
  simp only [List.mem_map, beq_iff_eq]
  exact exists_congr fun e => and_congr_right fun _ => eq_comm

theorem mem_below : names ∈ below t directory ↔
    (∃ e, t.find? names = some e) ∧ directory <+: names ∧ directory.length < names.length := by
  rw [below, List.mem_filter, mem_keys, Bool.and_eq_true, decide_eq_true_eq,
    List.isPrefixOf_iff_prefix, and_comm (a := directory.length < names.length)]

theorem mem_children : name ∈ children t directory ↔ ∃ e, t.find? (directory ++ [name]) = some e := by
  simp only [children, List.mem_filterMap, List.mem_filter, mem_below, decide_eq_true_eq]
  constructor
  · rintro ⟨names, ⟨⟨he, ⟨rest, rfl⟩, -⟩, hlength⟩, hlast⟩
    obtain ⟨n, rfl⟩ : ∃ n, rest = [n] := by
      rw [List.length_append] at hlength
      exact List.length_eq_one_iff.mp (by omega)
    rw [List.getLast?_concat] at hlast
    rwa [← Option.some.inj hlast]
  · intro he
    refine ⟨_, ⟨⟨he, List.prefix_append _ _, ?_⟩, List.length_append⟩, List.getLast?_concat⟩
    rw [List.length_append, List.length_singleton]
    omega

theorem mem_select_fitting {pieces : List GlobPiece} :
    names ∈ select t false [.fitting pieces] directory ↔
      ∃ name ∈ children t (Path.collapse directory), GlobPiece.fits pieces name = true ∧
        names = directory ++ [name] := by
  simp only [select, List.isEmpty_nil, Bool.not_false, Bool.and_self, Bool.true_or, List.mem_flatMap,
    List.mem_filter, List.mem_singleton, and_true, and_assoc]

variable {pieces : List GlobPiece}

/-- The directories that a search goes through: the one it starts from and all below it. -/
theorem mem_within {inner : List (List Char)} :
    inner ∈ directory :: ((below t directory).filter t.isDirectory).map
        (fun names => directory ++ names.drop directory.length) ↔
      inner = directory ∨ t.find? inner = some .directory ∧ directory <+: inner ∧
        directory.length < inner.length := by
  rw [List.mem_cons, List.mem_map]
  apply or_congr_right
  constructor
  · rintro ⟨names, hnames, rfl⟩
    obtain ⟨hbelow, hdirectory⟩ := List.mem_filter.mp hnames
    obtain ⟨-, hpre, hlength⟩ := mem_below.mp hbelow
    rw [List.prefix_iff_eq_append.mp hpre]
    exact ⟨of_decide_eq_true hdirectory, hpre, hlength⟩
  · rintro ⟨he, hpre, hlength⟩
    refine ⟨inner, List.mem_filter.mpr ⟨?_, decide_eq_true he⟩, ?_⟩
    · exact mem_below.mpr ⟨⟨_, he⟩, hpre, hlength⟩
    · exact List.prefix_iff_eq_append.mp hpre

/-- What lies below a directory lies right in it or in one of the directories below it. -/
theorem mem_selectBelow (ht : t.IsTree) (hd : ['.', '.'] ∉ directory) :
    names ∈ selectBelow t ⟨[.fitting pieces], false⟩ directory ↔
      ∃ inner name, names = inner ++ [name] ∧ directory <+: inner ∧
        (∃ e, t.find? names = some e) ∧ GlobPiece.fits pieces name = true := by
  have hcollapse : ∀ inner, inner = directory ∨ t.find? inner = some .directory ∧
      directory <+: inner ∧ directory.length < inner.length → Path.collapse inner = inner := by
    rintro inner (rfl | ⟨he, -⟩)
    · exact Path.collapse_of_forward hd
    · obtain ⟨_, hmem, rfl⟩ := List.mem_map.mp (mem_keys.mpr ⟨_, he⟩)
      exact Path.collapse_of_forward (ht.forward _ hmem)
  rw [selectBelow, select]
  simp only [hcollapse directory (.inl rfl), List.mem_flatMap, mem_within, mem_select_fitting]
  constructor
  · rintro ⟨inner, hinner, name, hname, hfits, rfl⟩
    rw [hcollapse inner hinner, mem_children] at hname
    refine ⟨inner, name, rfl, ?_, hname, hfits⟩
    rcases hinner with rfl | ⟨-, hpre, -⟩
    · exact List.prefix_rfl
    · exact hpre
  · rintro ⟨inner, name, rfl, hpre, he, hfits⟩
    -- What the name lies in is where the search starts, or a directory of the tree below it.
    have hinner : inner = directory ∨ t.find? inner = some .directory ∧ directory <+: inner ∧
        directory.length < inner.length := by
      rcases Nat.lt_or_ge directory.length inner.length with hlt | hge
      · obtain ⟨e, hmem, hkey⟩ := List.mem_map.mp (mem_keys.mpr he)
        have hparent := ht.parents e hmem inner.length (by rw [hkey, List.length_append]; simp)
        rw [hkey, List.take_left] at hparent
        exact .inr ⟨hparent, hpre, hlt⟩
      · exact .inl (hpre.eq_of_length_le hge).symm
    refine ⟨inner, hinner, name, ?_, hfits, rfl⟩
    rw [hcollapse inner hinner]
    exact mem_children.mpr he

end Glob

end NovelScript
