import Mathlib
import NovelScript.Proofs.Contents
import NovelScript.Proofs.Readings

/-!
# Comments and blank lines

Lines that hold no more than white space and a comment can be put between the lines of a script, and
white space and a comment can be put at the end of a line with content. What is read stays the same.
-/

namespace NovelScript

namespace Text

/-- The line holds nothing but white space, or a comment after its indentation. -/
def Ignored (line : List Char) : Prop :=
  (∀ c ∈ line, isBlank c) ∨ (line.dropWhile isIndent).head? = some '#'

/-- The second text has one more line, which is ignored. -/
inductive Inserts (text text' : List Char) : Prop
  | mk {ls ms : List (List Char)} {line : List Char} (h : lines text = ls ++ ms)
    (h' : lines text' = ls ++ line :: ms) (hline : Ignored line)

/-- One line with content goes on with blanks and perhaps a comment before it ends. -/
inductive Extends (text text' : List Char) : Prop
  | mk {ls ms : List (List Char)} {line ending blanks comment : List Char}
    (h : lines text = ls ++ (line ++ ending) :: ms)
    (h' : lines text' = ls ++ (line ++ (blanks ++ comment) ++ ending) :: ms)
    (hcontent : (ContentLine.ofLine? 1 0 (line ++ ending)).isSome)
    (hending : ending = [] ∨ ending = ['\r']) (hblanks : ∀ c ∈ blanks, isInline c)
    (hcomment : comment = [] ∨ comment.head? = some '#')

/-- The same indentation, and the same content up to an idle tail. -/
def Tailed (p p' : List Char × List Char) : Prop :=
  p'.1 = p.1 ∧ ∃ q, Line.isOver q ∧ p'.2 = p.2 ++ q

variable {text text' line line' q : List Char} {p : List Char × List Char}

instance : Std.Refl Tailed := ⟨fun _ => ⟨rfl, [], rfl, (List.append_nil _).symm⟩⟩

theorem parts?_of_ignored (h : Ignored line) : parts? line = none := by
  refine if_pos (Bool.or_eq_true_iff.mpr ?_)
  obtain hblank | hcomment := h
  · left
    exact List.all_eq_true.mpr fun c hc =>
      hblank c ((isPrefix_body line).subset ((List.dropWhile_suffix _).subset hc))
  · right
    obtain he | he := eq_body_or line
    · rw [← he, decide_eq_true hcomment]
    · rw [he, List.dropWhile_append] at hcomment
      split at hcomment
      · cases hcomment
      · next hne =>
        rw [List.head?_append_of_ne_nil _ (by simpa using hne)] at hcomment
        exact decide_eq_true hcomment

theorem parts?_of_tail (h : parts? line = some p) (hb : body line' = body line ++ q) :
    parts? line' = some (p.1, p.2 ++ q) := by
  obtain ⟨hbody, hindent, hhead, hblank, hcomment⟩ := parts?_eq_some.mp h
  have hne := ne_nil_of_parts? h
  refine parts?_eq_some.mpr ⟨by rw [hb, hbody, List.append_assoc], hindent, ?_, ?_, ?_⟩
  · rwa [List.head?_append_of_ne_nil _ hne]
  · rw [List.all_append, hblank, Bool.false_and]
  · rwa [List.head?_append_of_ne_nil _ hne]

theorem isOver_body (h : Line.isOver q) : Line.isOver (body q) := by
  obtain he | he := eq_body_or q
  · rwa [← he]
  · rw [he, Line.isOver_append rfl] at h
    exact h

theorem exists_tail {added ending : List Char} (ha : Line.isOver added)
    (he : ending = [] ∨ ending = ['\r']) :
    ∃ q, Line.isOver q ∧ body (line ++ added ++ ending) = body (line ++ ending) ++ q := by
  obtain rfl | rfl := he
  · rw [List.append_nil, List.append_nil]
    -- What comes after the body of the line starts with its carriage return, if it has one.
    obtain ⟨v, hv, hline, hlast⟩ : ∃ v, Line.isOver v ∧ line ++ added = body line ++ v ∧
        (v = [] → line = body line) := by
      obtain he | he := eq_body_or line
      · exact ⟨added, ha, by rw [← he], fun _ => he⟩
      · refine ⟨'\r' :: added, ?_, ?_, nofun⟩
        · rwa [Line.isOver_cons, if_pos (by decide)]
        · rw [List.append_cons, ← he]
    by_cases hnil : v = []
    · rw [hline, hnil, List.append_nil]
      have hbody := congrArg body (hlast hnil)
      exact ⟨[], rfl, by rw [List.append_nil, ← hbody]⟩
    · exact ⟨body v, isOver_body hv, by rw [hline, body_append _ hnil]⟩
  · exact ⟨added, ha, by rw [body_concat, body_concat]⟩

theorem isOver_of_blanks {blanks comment : List Char} (hb : ∀ c ∈ blanks, isInline c)
    (hc : comment = [] ∨ comment.head? = some '#') : Line.isOver (blanks ++ comment) := by
  have hcomment : Line.isOver comment := by
    cases comment with
    | nil => rfl
    | cons c comment =>
      obtain rfl : c = '#' := by simpa using hc
      rfl
  rw [Line.isOver_append hcomment, Line.isOver, List.dropWhile_eq_nil_iff.mpr hb]
  rfl

theorem Inserts.contentsOf (h : Inserts text text') : contentsOf text' = contentsOf text := by
  obtain ⟨h, h', hline⟩ := h
  rw [Text.contentsOf, Text.contentsOf, h, h', List.filterMap_append, List.filterMap_append,
    List.filterMap_cons, parts?_of_ignored hline]

theorem Extends.contentsOf (h : Extends text text') :
    List.Forall₂ Tailed (contentsOf text) (contentsOf text') := by
  obtain ⟨h, h', hcontent, hending, hblanks, hcomment⟩ := h
  rw [ContentLine.ofLine?_eq, Option.isSome_map] at hcontent
  obtain ⟨p, hp⟩ := Option.isSome_iff_exists.mp hcontent
  obtain ⟨q, hq, hbody⟩ := exists_tail (isOver_of_blanks hblanks hcomment) hending
  rw [Text.contentsOf, Text.contentsOf, h, h', List.filterMap_append, List.filterMap_append,
    List.filterMap_cons_some hp, List.filterMap_cons_some (parts?_of_tail hp hbody)]
  exact List.rel_append (List.forall₂_refl _) (.cons ⟨rfl, q, hq, rfl⟩ (List.forall₂_refl _))

end Text

namespace Script

variable {rules : LayoutRules} {text text' : List Char}

/-- Texts of the same contents, up to idle tails, have layouts that correspond. -/
theorem layouts_of_contents {strict : Prop} (h : 1 ≤ rules.tabWidth)
    (hc : List.Forall₂ Text.Tailed (Text.contentsOf text) (Text.contentsOf text'))
    (hs : strict → Text.contentsOf text' = Text.contentsOf text) :
    (Likeness.lax strict Eq).Layouts (layout rules text) (layout rules text') := by
  have hlines : List.Forall₂ ((Likeness.lax strict Eq).Lines rules id) (contentLines text)
      (contentLines text') := by
    have hboth : List.Forall₂ (fun p p' => Text.Tailed p p' ∧ (strict → p' = p))
        (Text.contentsOf text) (Text.contentsOf text') := by
      by_cases hstrict : strict
      · rw [hs hstrict]
        exact List.forall₂_same.mpr fun p _ => ⟨refl p, fun _ => rfl⟩
      · exact hc.imp fun p p' hp => ⟨hp, fun h => absurd h hstrict⟩
    refine (forall₂_contentLines hboth).imp fun l l' hl => ?_
    obtain ⟨⟨hindent, q, hq, hcontent⟩, hsame⟩ := hl
    obtain ⟨w, hw, h0⟩ := rules.exists_width h l.indent
    have hindent : l'.indent = l.indent := hindent
    refine Likeness.lax_lines h0 hw (by rw [hindent]; exact hw) rfl (by rw [hindent]) hcontent hq
      fun hstrict => ?_
    have hcontent' : l'.content = l.content := congrArg Prod.snd (hsame hstrict)
    exact List.append_cancel_left (hcontent.symm.trans (hcontent'.trans (List.append_nil _).symm))
  exact Likeness.layouts_of_equal_widths (fun _ _ => rfl) hlines trivial

theorem parse_of_edit (h : 1 ≤ rules.tabWidth) (file : Option Path)
    (hedit : Text.Inserts text text' ∨ Text.Extends text text') {f : SourceFile}
    (hf : parse rules text file = .ok f) :
    ∃ f', parse rules text' file = .ok f' ∧ f'.bare = f.bare := by
  have hc : List.Forall₂ Text.Tailed (Text.contentsOf text) (Text.contentsOf text') := by
    obtain hedit | hedit := hedit
    · rw [hedit.contentsOf]
      exact List.forall₂_refl _
    · exact hedit.contentsOf
  have hlayouts : (Likeness.lax False Eq).Layouts (layout rules text) (layout rules text') :=
    layouts_of_contents h hc False.elim
  have hreadings := Likeness.readings_of_layouts hlayouts file
  rw [hf] at hreadings
  exact hreadings.exists_ok

theorem parse_of_insertion (h : 1 ≤ rules.tabWidth) (file : Option Path)
    (hedit : Text.Inserts text text') {e : Failure} (he : parse rules text file = .error e) :
    ∃ e', parse rules text' file = .error e' ∧ e'.kind = e.kind ∧ e'.message? = e.message? := by
  have hc := hedit.contentsOf
  have hlayouts : (Likeness.lax True Eq).Layouts (layout rules text) (layout rules text') :=
    layouts_of_contents h (by rw [hc]; exact List.forall₂_refl _) fun _ => hc
  have hreadings := Likeness.readings_of_layouts hlayouts file
  rw [he] at hreadings
  obtain ⟨e', he', hkind, hmessage⟩ := hreadings.exists_error trivial fun c c' hc => by rw [hc]
  exact ⟨e', he', hkind, hmessage fun _ _ hc => hc⟩

/-- Comments and blank lines do not matter. A script stays a script, with the same tree up to its
spans, when any number of lines that are ignored are put in and any number of lines with content
go on with blanks and a comment. And a text that is refused is refused for the same reason and with
the same message when any number of lines that are ignored are put in. -/
theorem parse_of_edits (rules : LayoutRules) (h : 1 ≤ rules.tabWidth) (file : Option Path)
    (text text' : List Char) :
    (Relation.ReflTransGen (fun t t' => Text.Inserts t t' ∨ Text.Extends t t') text text' →
      ∀ f, parse rules text file = .ok f →
        ∃ f', parse rules text' file = .ok f' ∧ f'.bare = f.bare) ∧
    (Relation.ReflTransGen Text.Inserts text text' → ∀ e, parse rules text file = .error e →
      ∃ e', parse rules text' file = .error e' ∧ e'.kind = e.kind ∧ e'.message? = e.message?) := by
  -- Both inductions are on the edits, the last of them apart.
  constructor
  · intro hedits f hf
    induction hedits with
    | refl => exact ⟨f, hf, rfl⟩
    | tail _ hedit ih =>
      obtain ⟨g, hg, hbare⟩ := ih
      obtain ⟨g', hg', hbare'⟩ := parse_of_edit h file hedit hg
      exact ⟨g', hg', hbare'.trans hbare⟩
  · intro hedits e he
    induction hedits with
    | refl => exact ⟨e, he, rfl, rfl⟩
    | tail _ hedit ih =>
      obtain ⟨d, hd, hkind, hmessage⟩ := ih
      obtain ⟨d', hd', hkind', hmessage'⟩ := parse_of_insertion h file hedit hd
      exact ⟨d', hd', hkind'.trans hkind, hmessage'.trans hmessage⟩

theorem parse_of_edits_jump :
    (∃ f f', parse {} "jump start\n".toList = .ok f ∧
      parse {} "# first\njump start # then\n".toList = .ok f' ∧ f'.bare = f.bare) ∧
    ∃ e e', parse {} "jump\n".toList = .error e ∧ parse {} " \t\njump\n".toList = .error e' ∧
      e'.kind = e.kind ∧ e'.message? = e.message? := by
  constructor
  · obtain ⟨f, hf⟩ := exists_of_toBool (x := parse {} "jump start\n".toList) (by cbv)
    have hinsert : Text.Inserts "jump start\n".toList "# first\njump start\n".toList :=
      ⟨(by cbv : _ = [] ++ ["jump start".toList, []]), by cbv, .inr (by cbv)⟩
    have hextend : Text.Extends "# first\njump start\n".toList
        "# first\njump start # then\n".toList :=
      ⟨(by cbv : _ = ["# first".toList] ++ ("jump start".toList ++ []) :: [[]]),
        (by cbv : _ = _ ++ ("jump start".toList ++ ([' '] ++ "# then".toList) ++ []) :: _), by cbv,
        .inl rfl, List.all_eq_true.mp (by cbv), .inr (by cbv)⟩
    obtain ⟨f', hf', hbare⟩ := (parse_of_edits {} (by decide) none _ _).1
      (.tail (.single (.inl hinsert)) (.inr hextend)) f hf
    exact ⟨f, f', hf, hf', hbare⟩
  · have hlayout : layout {} "jump\n".toList = .ok [⟨.text "jump".toList, ⟨1, 1, 0, 4⟩⟩,
        ⟨.newline, ⟨2, 1, 5, 5⟩⟩, ⟨.eof, ⟨2, 1, 5, 5⟩⟩] := by cbv
    have he := parse_of_refused none hlayout (by cbv) (by cbv : _ = Except.error
      ⟨.unexpected "label name" .endOfLine, ⟨1, 5, some 4, some 1, some 5⟩⟩)
    have hinsert : Text.Inserts "jump\n".toList " \t\njump\n".toList :=
      ⟨(by cbv : _ = [] ++ ["jump".toList, []]), by cbv, .inl (List.all_eq_true.mp (by cbv))⟩
    obtain ⟨e', he', hkind, hmessage⟩ := (parse_of_edits {} (by decide) none _ _).2
      (.single hinsert) _ he
    exact ⟨_, e', he, he', hkind, hmessage⟩

end Script

end NovelScript
