import NovelScript.Tree.Statement

/-!
# Equality of trees

Two trees are equal when they have the same statements with the same spans. `Statement.agrees`
compares them part by part, and `Statement.agrees_iff` says that it decides equality.
-/

namespace NovelScript

mutual

/-- Whether two statements are equal. -/
def Statement.agrees : Statement → Statement → Bool
  | .simple a s, .simple a' s' => a = a' && s = s'
  | .label n b s, .label n' b' s' => n = n' && b.agrees b' && s = s'
  | .branch c b es none s, .branch c' b' es' none s' =>
    c = c' && b.agrees b' && elifsAgree es es' && s = s'
  | .branch c b es (some o) s, .branch c' b' es' (some o') s' =>
    c = c' && b.agrees b' && elifsAgree es es' && o.agrees o' && s = s'
  | .loop c b s, .loop c' b' s' => c = c' && b.agrees b' && s = s'
  | .menu n c cs s, .menu n' c' cs' s' => n = n' && c = c' && choicesAgree cs cs' && s = s'
  | _, _ => false

/-- Whether two blocks are equal. -/
def Block.agrees : Block → Block → Bool
  | ⟨ss, s⟩, ⟨ss', s'⟩ => statementsAgree ss ss' && s = s'

/-- Whether two lists of statements are equal. -/
def statementsAgree : List Statement → List Statement → Bool
  | [], [] => true
  | s :: ss, s' :: ss' => s.agrees s' && statementsAgree ss ss'
  | _, _ => false

/-- Whether two lists of clauses are equal. -/
def elifsAgree : List ElifClause → List ElifClause → Bool
  | [], [] => true
  | ⟨c, b, s⟩ :: es, ⟨c', b', s'⟩ :: es' => c = c' && b.agrees b' && s = s' && elifsAgree es es'
  | _, _ => false

/-- Whether two lists of choices are equal. -/
def choicesAgree : List Choice → List Choice → Bool
  | [], [] => true
  | ⟨t, c, b, s⟩ :: cs, ⟨t', c', b', s'⟩ :: cs' =>
    t = t' && c = c' && b.agrees b' && s = s' && choicesAgree cs cs'
  | _, _ => false

end

/-- Whether two scripts are equal. -/
def SourceFile.agrees (f g : SourceFile) : Bool :=
  statementsAgree f.statements g.statements && f.file = g.file && f.span = g.span

mutual

theorem Statement.agrees_iff : ∀ s t : Statement, s.agrees t = true ↔ s = t
  | .simple a s, t => by cases t <;> simp [Statement.agrees]
  | .label n b s, t => by
    cases t <;> simp [Statement.agrees, Block.agrees_iff b, and_assoc]
  | .branch c b es none s, t => by
    rcases t with _ | _ | ⟨_, _, _, _ | _, _⟩ <;>
      simp [Statement.agrees, Block.agrees_iff b, elifsAgree_iff es, and_assoc]
  | .branch c b es (some o) s, t => by
    rcases t with _ | _ | ⟨_, _, _, _ | _, _⟩ <;>
      simp [Statement.agrees, Block.agrees_iff b, elifsAgree_iff es, Block.agrees_iff o, and_assoc]
  | .loop c b s, t => by
    cases t <;> simp [Statement.agrees, Block.agrees_iff b, and_assoc]
  | .menu n c cs s, t => by
    cases t <;> simp [Statement.agrees, choicesAgree_iff cs, and_assoc]

theorem Block.agrees_iff : ∀ b c : Block, b.agrees c = true ↔ b = c
  | ⟨ss, s⟩, ⟨ss', s'⟩ => by simp [Block.agrees, statementsAgree_iff ss]

theorem statementsAgree_iff : ∀ ss ts : List Statement, statementsAgree ss ts = true ↔ ss = ts
  | [], ts => by cases ts <;> simp [statementsAgree]
  | s :: ss, ts => by
    cases ts <;> simp [statementsAgree, Statement.agrees_iff s, statementsAgree_iff ss]

theorem elifsAgree_iff : ∀ es fs : List ElifClause, elifsAgree es fs = true ↔ es = fs
  | [], fs => by cases fs <;> simp [elifsAgree]
  | ⟨c, b, s⟩ :: es, fs => by
    rcases fs with _ | ⟨⟨_, _, _⟩, fs⟩
    · simp [elifsAgree]
    · simp [elifsAgree, Block.agrees_iff b, elifsAgree_iff es, and_assoc]

theorem choicesAgree_iff : ∀ cs ds : List Choice, choicesAgree cs ds = true ↔ cs = ds
  | [], ds => by cases ds <;> simp [choicesAgree]
  | ⟨t, c, b, s⟩ :: cs, ds => by
    rcases ds with _ | ⟨⟨_, _, _, _⟩, ds⟩
    · simp [choicesAgree]
    · simp [choicesAgree, Block.agrees_iff b, choicesAgree_iff cs, and_assoc]

end

theorem SourceFile.agrees_iff (f g : SourceFile) : f.agrees g = true ↔ f = g := by
  obtain ⟨ss, _, _⟩ := f
  cases g
  simp [SourceFile.agrees, statementsAgree_iff ss, and_assoc]

instance : DecidableEq Statement := fun s t => decidable_of_iff _ (s.agrees_iff t)

instance : DecidableEq Block := fun b c => decidable_of_iff _ (b.agrees_iff c)

instance : DecidableEq SourceFile := fun f g => decidable_of_iff _ (f.agrees_iff g)

end NovelScript
