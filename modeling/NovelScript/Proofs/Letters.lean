import NovelScript.Line.Literal

/-!
# The letters of a literal

A literal is its letters between two marks. A letter is a character that stands for itself or one
behind a backslash, and each has a value. Reading a literal finds its letters and gives their
values, whatever follows the second mark.
-/

namespace NovelScript.Line.Literal

/-- A character between the marks of a literal, with the backslash before it, if there is one. -/
inductive Letter where
  | plain (c : Char)
  | escaped (c : Char)
  deriving DecidableEq, Repr

namespace Letter

def text : Letter → List Char
  | plain c => [c]
  | escaped c => ['\\', c]

def value : Letter → Char
  | plain c => c
  | escaped c => unescape c

/-- Whether the letter may stand between marks `q`. There neither the mark nor a backslash stands
for itself, and a backslash escapes what follows it unless it is the mark. -/
def Fits (q : Char) : Letter → Prop
  | plain c => c ≠ q ∧ c ≠ '\\'
  | escaped _ => q ≠ '\\'

end Letter

open Letter

/-- The letters of the text between two marks. -/
def letters : List Char → List Letter
  | [] => []
  | [c] => [.plain c]
  | c :: e :: rest =>
    if c = '\\' then .escaped e :: letters rest else .plain c :: letters (e :: rest)

variable {q c : Char} {cs v : List Char} {ls : List Letter} {n : Nat}

theorem letters_plain (h : c ≠ '\\') (cs : List Char) :
    letters (c :: cs) = .plain c :: letters cs := by
  cases cs with
  | nil => rfl
  | cons e rest => rw [letters, if_neg h]

/-- No letter is lost or found when letters are written one after the other. -/
theorem letters_flatMap_text (h : ∀ l ∈ ls, l.Fits q) : letters (ls.flatMap text) = ls := by
  induction ls with
  | nil => rfl
  | cons l ls ih =>
    obtain ⟨hl, hls⟩ := List.forall_mem_cons.mp h
    rw [List.flatMap_cons]
    cases l with
    | plain c => rw [text, List.singleton_append, letters_plain hl.2, ih hls]
    | escaped c =>
      have hstep : letters ('\\' :: c :: ls.flatMap text) =
          .escaped c :: letters (ls.flatMap text) := if_pos rfl
      rw [text, List.cons_append, List.singleton_append, hstep, ih hls]

theorem body?_mark (q : Char) (cs : List Char) : body? q (q :: cs) = some ([], 1) := by
  cases cs <;> exact if_pos rfl

theorem body?_plain (h : (plain c).Fits q) (cs : List Char) :
    body? q (c :: cs) = (body? q cs).map fun (v, n) => (c :: v, n + 1) := by
  cases cs with
  | nil => exact if_neg h.1
  | cons e rest => exact (if_neg h.1).trans (if_neg h.2)

theorem body?_escaped (h : q ≠ '\\') (c : Char) (cs : List Char) :
    body? q ('\\' :: c :: cs) = (body? q cs).map fun (v, n) => (unescape c :: v, n + 2) := by
  rw [body?, if_neg h.symm, if_pos rfl]

/-- Letters before a mark are read as what they stand for. -/
theorem body?_flatMap_text (h : ∀ l ∈ ls, l.Fits q) (rest : List Char) :
    body? q (ls.flatMap text ++ q :: rest) = some (ls.map value, (ls.flatMap text).length + 1) := by
  induction ls with
  | nil => exact body?_mark q rest
  | cons l ls ih =>
    obtain ⟨hl, hls⟩ := List.forall_mem_cons.mp h
    rw [List.flatMap_cons, List.append_assoc, List.map_cons]
    cases l with
    | plain c =>
      rw [text, List.singleton_append, body?_plain hl, ih hls]
      rfl
    | escaped c =>
      have hstep := body?_escaped hl c (ls.flatMap text ++ q :: rest)
      rw [ih hls] at hstep
      exact hstep

/-- Whatever is read is letters before a mark. -/
theorem exists_letters_of_body? (h : body? q cs = some (v, n)) :
    ∃ (ls : List Letter) (rest : List Char), (∀ l ∈ ls, l.Fits q) ∧
      cs = ls.flatMap text ++ q :: rest ∧ v = ls.map value ∧ n = (ls.flatMap text).length + 1 := by
  fun_induction body? q cs generalizing v n with
  | case1 => cases h
  | case2 =>
    cases h
    exact ⟨[], [], nofun, rfl, rfl, rfl⟩
  | case3 => cases h
  | case4 e rest =>
    cases h
    exact ⟨[], e :: rest, nofun, rfl, rfl, rfl⟩
  | case5 e rest hq ih =>
    obtain ⟨⟨w, m⟩, hm, hv⟩ := Option.map_eq_some_iff.1 h
    obtain ⟨ls, more, hls, rfl, rfl, rfl⟩ := ih hm
    cases hv
    exact ⟨.escaped e :: ls, more, List.forall_mem_cons.mpr ⟨Ne.symm hq, hls⟩, rfl, rfl, rfl⟩
  | case6 c e rest hc hb ih =>
    obtain ⟨⟨w, m⟩, hm, hv⟩ := Option.map_eq_some_iff.1 h
    obtain ⟨ls, more, hls, hcs, rfl, rfl⟩ := ih hm
    cases hv
    refine ⟨.plain c :: ls, more, List.forall_mem_cons.mpr ⟨⟨hc, hb⟩, hls⟩, ?_, rfl, rfl⟩
    rw [hcs]
    rfl

end NovelScript.Line.Literal
