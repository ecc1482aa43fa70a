import NovelScript.Proofs.Canonical

/-!
# The tokens of a line

A line of a script is the head of a statement, a caption, a further clause or a choice. Its tokens
are its keywords and signs and the names, expressions and literals it says, in the order of the
source. `Spread` says that a text consists of given tokens with nothing but blanks between them; the
canonical form of a line is spread so.
-/

namespace NovelScript

open Text

/-! Tokens. -/

def LabelName.tokens (n : LabelName) : List (List Char) :=
  match n.scope with
  | .plain => [n.name]
  | .inner => [['.'], n.name]
  | .within scope => [scope, ['.'], n.name]

def SayAttribute.tokens (a : SayAttribute) : List (List Char) :=
  if a.negated then [['-'], a.name] else [a.name]

/-- Attributes that hold for one line, after an at sign. -/
def temporaryTokens (as : List SayAttribute) : List (List Char) :=
  if as.isEmpty then [] else ['@'] :: as.flatMap SayAttribute.tokens

def Speaker.tokens (s : Speaker) : List (List Char) :=
  s.name :: s.attributes.flatMap SayAttribute.tokens ++ temporaryTokens s.temporary

def Say.tokens (s : Say) : List (List Char) :=
  (match s.speaker with
    | some speaker => speaker.tokens
    | none => []) ++ [s.what.raw]

def ImageSpec.tokens (i : ImageSpec) : List (List Char) :=
  i.names ++ i.modifiers.flatMap fun m => m.clause.words

/-- The place to come back to from a call. -/
def siteTokens : Option LabelName → List (List Char)
  | some l => "from".toList :: l.tokens
  | none => []

def Action.tokens (a : Action) : List (List Char) :=
  let keyword := a.kind.text.toList
  match a with
  | .say line => line.tokens
  | .showImage i effect | .hideImage i effect => keyword :: (i.tokens ++ transitionWords effect)
  | .scene i effect =>
    keyword :: ((i.map ImageSpec.tokens).getD [] ++ transitionWords effect)
  | .transition effect => [keyword, effect.text]
  | .jump target => keyword :: target.tokens
  | .call target site => keyword :: (target.tokens ++ siteTokens site)
  | .leave value => keyword :: (value.map Expression.text).toList
  | .pass => [keyword]
  | .define name value | .default name value => [keyword, name, ['='], value.text]
  | .image names value => keyword :: (names ++ [['='], value.text])

/-! Lines. -/

/-- What a line of a script says. -/
inductive HeadLine where
  | action (a : Action)
  | label (name : LabelName)
  | branch (condition : Expression)
  | loop (condition : Expression)
  | menu (name : Option LabelName)
  | elif (condition : Expression)
  | otherwise
  | choice (text : StringLiteral) (condition : Option Expression)

namespace HeadLine

/-- The canonical form of the line. -/
def written : HeadLine → List Char
  | action a => a.written
  | label name => (Head.label name .blank).written
  | branch condition => (Head.branch condition .blank).written
  | loop condition => (Head.loop condition .blank).written
  | menu name => (Head.menu name .blank).written
  | elif condition => elifLine condition
  | otherwise => elseLine
  | choice text condition => choiceLine text condition

/-- The condition of a choice. -/
def conditionTokens : Option Expression → List (List Char)
  | some c => ["if".toList, c.text]
  | none => []

def tokens : HeadLine → List (List Char)
  | action a => a.tokens
  | label name => "label".toList :: (name.tokens ++ [[':']])
  | branch condition => ["if".toList, condition.text, [':']]
  | loop condition => ["while".toList, condition.text, [':']]
  | menu name => "menu".toList :: ((name.map LabelName.tokens).getD [] ++ [[':']])
  | elif condition => ["elif".toList, condition.text, [':']]
  | otherwise => ["else".toList, [':']]
  | choice text condition => text.raw :: (conditionTokens condition ++ [[':']])

end HeadLine

mutual

/-- The lines of a statement, in the order of the source. -/
def Statement.headLines : Statement → List HeadLine
  | .simple action _ => [.action action]
  | .label name body _ => .label name :: body.headLines
  | .loop condition body _ => .loop condition :: body.headLines
  | .branch condition body elifs none _ =>
    .branch condition :: (body.headLines ++ elifHeadLines elifs)
  | .branch condition body elifs (some block) _ =>
    .branch condition :: (body.headLines ++ elifHeadLines elifs ++ .otherwise :: block.headLines)
  | .menu name caption choices _ =>
    .menu name :: ((caption.map fun line => .action (.say line)).toList ++ choiceHeadLines choices)

def Block.headLines : Block → List HeadLine
  | ⟨statements, _⟩ => headLinesAll statements

/-- The lines of statements. -/
def headLinesAll : List Statement → List HeadLine
  | [] => []
  | s :: rest => s.headLines ++ headLinesAll rest

def elifHeadLines : List ElifClause → List HeadLine
  | [] => []
  | ⟨condition, body, _⟩ :: rest => .elif condition :: (body.headLines ++ elifHeadLines rest)

def choiceHeadLines : List Choice → List HeadLine
  | [] => []
  | ⟨text, condition, body, _⟩ :: rest =>
    .choice text condition :: (body.headLines ++ choiceHeadLines rest)

end

/-- The lines of a script. -/
def SourceFile.headLines (f : SourceFile) : List HeadLine := headLinesAll f.statements

mutual

theorem Statement.map_written (depth : Nat) : ∀ s : Statement,
    (s.written depth).map Prod.snd = s.headLines.map HeadLine.written
  | .simple action span => by
    rw [Statement.written, Statement.headLines]
    rfl
  | .label name body span => by
    rw [Statement.written, Statement.headLines, List.map_cons, List.map_cons,
      Block.map_written _ body]
    rfl
  | .loop condition body span => by
    rw [Statement.written, Statement.headLines, List.map_cons, List.map_cons,
      Block.map_written _ body]
    rfl
  | .branch condition body elifs none span => by
    rw [Statement.written, Statement.headLines, List.map_cons, List.map_cons, List.map_append,
      List.map_append, Block.map_written _ body, map_writtenElifs _ elifs]
    rfl
  | .branch condition body elifs (some block) span => by
    rw [Statement.written, Statement.headLines, List.map_cons, List.map_cons, List.map_append,
      List.map_append, List.map_append, List.map_append, List.map_cons, List.map_cons,
      Block.map_written _ body, map_writtenElifs _ elifs, Block.map_written _ block]
    rfl
  | .menu name caption choices span => by
    rw [Statement.written, Statement.headLines, List.map_cons, List.map_cons, List.map_append,
      List.map_append, map_writtenChoices _ choices]
    cases caption <;> rfl

theorem Block.map_written (depth : Nat) : ∀ b : Block,
    (b.written depth).map Prod.snd = b.headLines.map HeadLine.written
  | ⟨statements, span⟩ => by
    rw [Block.written, Block.headLines, map_writtenAll _ statements]

theorem map_writtenAll (depth : Nat) : ∀ ss : List Statement,
    (writtenAll depth ss).map Prod.snd = (headLinesAll ss).map HeadLine.written
  | [] => by
    rw [writtenAll, headLinesAll]
    rfl
  | s :: rest => by
    rw [writtenAll, headLinesAll, List.map_append, List.map_append, Statement.map_written _ s,
      map_writtenAll _ rest]

theorem map_writtenElifs (depth : Nat) : ∀ es : List ElifClause,
    (writtenElifs depth es).map Prod.snd = (elifHeadLines es).map HeadLine.written
  | [] => by
    rw [writtenElifs, elifHeadLines]
    rfl
  | ⟨condition, body, span⟩ :: rest => by
    rw [writtenElifs, elifHeadLines, List.map_cons, List.map_cons, List.map_append,
      List.map_append, Block.map_written _ body, map_writtenElifs _ rest]
    rfl

theorem map_writtenChoices (depth : Nat) : ∀ cs : List Choice,
    (writtenChoices depth cs).map Prod.snd = (choiceHeadLines cs).map HeadLine.written
  | [] => by
    rw [writtenChoices, choiceHeadLines]
    rfl
  | ⟨text, condition, body, span⟩ :: rest => by
    rw [writtenChoices, choiceHeadLines, List.map_cons, List.map_cons, List.map_append,
      List.map_append, Block.map_written _ body, map_writtenChoices _ rest]
    rfl

end

/-! Texts that consist of tokens. -/

/-- The line is the tokens up to the rest of it, with nothing but blanks before, between and after
them. -/
inductive Spread : List (List Char) → List Char → List Char → Prop
  | nil {b : List Char} (rest : List Char) (hb : ∀ x ∈ b, isInline x) : Spread [] (b ++ rest) rest
  | cons {t b line rest : List Char} {ts : List (List Char)} (hb : ∀ x ∈ b, isInline x)
    (h : Spread ts line rest) : Spread (t :: ts) (b ++ (t ++ line)) rest

namespace Spread

variable {ts us : List (List Char)} {b line mid rest : List Char}

theorem blanks (h : Spread ts line rest) (hb : ∀ x ∈ b, isInline x) :
    Spread ts (b ++ line) rest := by
  have happend : ∀ {b' : List Char}, (∀ x ∈ b', isInline x) → ∀ x ∈ b ++ b', isInline x :=
    fun hb' => List.forall_mem_append.mpr ⟨hb, hb'⟩
  cases h with
  | nil _ hb' =>
    rw [← List.append_assoc]
    exact .nil rest (happend hb')
  | cons hb' h =>
    rw [← List.append_assoc]
    exact .cons (happend hb') h

theorem append (h : Spread ts line mid) (h' : Spread us mid rest) : Spread (ts ++ us) line rest := by
  induction h with
  | nil mid hb => exact h'.blanks hb
  | cons hb h ih => exact .cons hb (ih h')

end Spread

/-- The text is the tokens, whatever follows it. -/
def Renders (ts : List (List Char)) (w : List Char) : Prop := ∀ rest, Spread ts (w ++ rest) rest

section

variable {ts us : List (List Char)} {v w : List Char}

theorem renders_nil : Renders [] [] := fun rest => .nil (b := []) rest nofun

theorem renders_word (w : List Char) : Renders [w] w :=
  fun rest => .cons (b := []) nofun (.nil (b := []) rest nofun)

theorem Renders.append (h : Renders ts w) (h' : Renders us v) : Renders (ts ++ us) (w ++ v) := by
  intro rest
  rw [List.append_assoc]
  exact (h _).append (h' rest)

theorem Renders.cons (t : List Char) (h : Renders us v) : Renders (t :: us) (t ++ v) :=
  (renders_word t).append h

theorem Renders.space (h : Renders ts w) : Renders ts (' ' :: w) :=
  fun rest => (h rest).blanks (b := [' ']) (by simp [isInline])

/-- Words with a space before each. -/
theorem renders_following {α : Type} {f : α → List (List Char)} {g : α → List Char}
    (as : List α) (h : ∀ a, Renders (f a) (g a)) :
    Renders (as.flatMap f) (following (as.map g)) := by
  induction as with
  | nil => exact renders_nil
  | cons a as ih =>
    rw [List.flatMap_cons, List.map_cons, following_cons]
    exact ((h a).append ih).space

theorem renders_words (ws : List (List Char)) : Renders ws (following ws) := by
  have h := renders_following ws (f := fun w => [w]) (g := id) renders_word
  rwa [List.map_id, List.flatMap_singleton'] at h

theorem renders_spaced (ws : List (List Char)) : Renders ws (spaced ws) := by
  cases ws with
  | nil => exact renders_nil
  | cons w ws =>
    rw [spaced_cons]
    exact .cons w (renders_words ws)

/-! The canonical forms of lines. -/

theorem LabelName.renders (n : LabelName) : Renders n.tokens n.text := by
  obtain ⟨scope, name, span⟩ := n
  cases scope with
  | plain => exact renders_word name
  | inner => exact .cons ['.'] (renders_word name)
  | within scope => exact .cons scope (.cons ['.'] (renders_word name))

theorem SayAttribute.renders (a : SayAttribute) : Renders a.tokens a.text := by
  unfold SayAttribute.tokens SayAttribute.text
  split
  · exact .cons ['-'] (renders_word a.name)
  · exact renders_word a.name

theorem Speaker.renders (s : Speaker) : Renders s.tokens s.summary := by
  have hattributes : ∀ as : List SayAttribute,
      Renders (as.flatMap SayAttribute.tokens) (following (as.map SayAttribute.text)) := fun as =>
    renders_following as SayAttribute.renders
  have htemporary : Renders (temporaryTokens s.temporary)
      (following (if s.temporary.isEmpty then [] else ['@'] :: s.temporary.map SayAttribute.text)) := by
    unfold temporaryTokens
    split
    · exact renders_nil
    · rw [following_cons]
      exact (Renders.cons ['@'] (hattributes s.temporary)).space
  simp only [Speaker.tokens, Speaker.summary, List.cons_append]
  rw [spaced_cons, following_append]
  exact .cons s.name ((hattributes s.attributes).append htemporary)

theorem Say.renders (s : Say) : Renders s.tokens s.written := by
  unfold Say.tokens Say.written
  cases s.speaker with
  | none => exact renders_word s.what.raw
  | some speaker => exact speaker.renders.append (renders_word s.what.raw).space

theorem ImageSpec.renders (i : ImageSpec) : Renders i.tokens i.summary := by
  unfold ImageSpec.tokens ImageSpec.summary ImageSpec.name
  rw [spaced_cons]
  exact (renders_spaced i.names).append
    (renders_following i.modifiers fun m => renders_spaced m.clause.words)

theorem Action.renders (a : Action) : Renders a.tokens a.written := by
  have hword : ∀ {us : List (List Char)} {u : List Char}, Renders us u →
      Renders us (following [u]) := by
    intro us u h
    rw [following_cons, following_nil, List.append_nil]
    exact h.space
  cases a with
  | say line => exact line.renders
  | showImage i effect | hideImage i effect =>
    simp only [Action.tokens, Action.written, Action.summary]
    rw [spaced_cons, following_cons]
    exact .cons _ (i.renders.append (renders_words _)).space
  | scene i effect =>
    simp only [Action.tokens, Action.written, Action.summary, List.cons_append]
    rw [spaced_cons, following_append]
    refine .cons _ (Renders.append ?_ (renders_words _))
    cases i with
    | none => exact renders_nil
    | some i => exact hword i.renders
  | transition effect => exact renders_spaced _
  | jump target =>
    simp only [Action.tokens, Action.written, Action.summary]
    rw [spaced_cons]
    exact .cons _ (hword target.renders)
  | call target site =>
    simp only [Action.tokens, Action.written, Action.summary]
    rw [spaced_cons, following_cons]
    refine .cons _ (target.renders.append ?_).space
    cases site with
    | none => exact renders_nil
    | some l =>
      rw [following_cons]
      exact (Renders.cons _ (hword l.renders)).space
  | leave value => exact renders_spaced _
  | pass => exact renders_word _
  | define name value | default name value => exact renders_spaced _
  | image names value =>
    simp only [Action.tokens, Action.written, Action.summary]
    rw [spaced_cons, following_cons]
    exact .cons _ ((renders_spaced names).append (renders_words _)).space

/-- The canonical form of a line is its tokens. -/
theorem HeadLine.renders (l : HeadLine) : Renders l.tokens l.written := by
  have hcolon : ∀ (us : List (List Char)) {u : List Char}, Renders us u →
      Renders (us ++ [[':']]) (u ++ [':']) := fun _ _ h => h.append (renders_word _)
  cases l with
  | action a => exact a.renders
  | label name =>
    refine hcolon (_ :: name.tokens) ?_
    rw [spaced_cons, following_cons, following_nil, List.append_nil]
    exact .cons _ name.renders.space
  | branch condition | loop condition | elif condition =>
    exact hcolon _ (renders_spaced [_, condition.text])
  | menu name =>
    refine hcolon (_ :: (name.map LabelName.tokens).getD []) ?_
    rw [spaced_cons]
    refine .cons _ ?_
    cases name with
    | none => exact renders_nil
    | some n =>
      simp only [Option.map_some, Option.toList_some, Option.getD_some, following_cons,
        following_nil, List.append_nil]
      exact n.renders.space
  | otherwise => exact hcolon _ (renders_word _)
  | choice text condition =>
    refine hcolon (text.raw :: conditionTokens condition) ?_
    cases condition <;> exact renders_spaced _

end

end NovelScript
