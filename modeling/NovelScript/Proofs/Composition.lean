import NovelScript.Proofs.Computation

/-!
# What readers are put together from

The readers of a line are put together from a few elementary ones, in sequence, by cases and by
repetition. `Composed` says this of one reader. What holds of the elementary readers and is kept by
the ways of putting readers together thus holds of all readers that are composed. The search for a
spoken line is not: it may go back.
-/

namespace NovelScript.Reader

open Line

/-- The reader is put together from elementary readers. No sign that it looks for is a mark. -/
inductive Composed : {α : Type} → Reader α → Prop
  | pure {α : Type} (a : α) : Composed (Pure.pure a)
  | get : Composed MonadState.get
  | skip : Composed Reader.skip
  | name : Composed Reader.name
  | keyword (k : List Char) : Composed (Reader.keyword k)
  | punct {x : Char} (hx : isQuote x = false) : Composed (Reader.punct [x])
  | string : Composed Reader.string
  | number : Composed Reader.number
  | group : Composed Reader.group
  | fragment : Composed Reader.fragment
  | refuse {α : Type} (what : String) : Composed (Reader.refuse what : Reader α)
  | bind {α β : Type} {r : Reader α} {f : α → Reader β} (h : Composed r)
    (hf : ∀ a, Composed (f a)) : Composed (r >>= f)
  | map {α β : Type} {r : Reader α} (g : α → β) (h : Composed r) : Composed (g <$> r)
  | many {α : Type} {r : Reader (Option α)} (h : Composed r) : Composed (Reader.many r)

/-- Reads the line of a statement by its keyword. -/
def keyedHead : Reader Head := do
  let next ← peekName
  match StatementKind.keyed.find? fun k => next = some k.text.toList with
  | none => refuse "a statement"
  | some kind =>
    let keyword ← expectKeyword kind.text
    afterKeyword keyword.span kind

namespace Composed

variable {α : Type}

theorem ite {p : Prop} [Decidable p] {r s : Reader α} (h : Composed r) (h' : Composed s) :
    Composed (if p then r else s) := by
  by_cases hp : p
  · rwa [if_pos hp]
  · rwa [if_neg hp]

theorem required {what : String} {r : Reader (Option α)} (h : Composed r) :
    Composed (Reader.required what r) :=
  h.bind fun o => by
    cases o with
    | none => exact refuse what
    | some a => exact pure a

theorem char? : Composed Reader.char? := get.bind fun _ => pure _

theorem atEnd : Composed Reader.atEnd :=
  skip.bind fun _ => char?.bind fun o => by cases o <;> exact pure _

theorem peekName : Composed Reader.peekName := skip.bind fun _ => get.bind fun _ => pure _

theorem peekPunct (p : List Char) : Composed (Reader.peekPunct p) :=
  skip.bind fun _ => get.bind fun _ => pure _

theorem expectKeyword (k : String) : Composed (Reader.expectKeyword k) := (keyword _).required

theorem expectPunct {p : String} {x : Char} (hp : p.toList = [x]) (hx : isQuote x = false) :
    Composed (Reader.expectPunct p) := by
  unfold Reader.expectPunct
  rw [hp]
  exact (punct hx).required

theorem expectName (what : String) : Composed (Reader.expectName what) := name.required

theorem expectString (what : String) : Composed (Reader.expectString what) := string.required

theorem endOfLine (construct : String) : Composed (Reader.endOfLine construct) :=
  atEnd.bind fun _ => ite (refuse _) (pure _)

/-! Expressions. -/

theorem labelName : Composed Reader.labelName :=
  (punct rfl).bind fun dot => by
    cases dot with
    | some dot => exact (expectName _).bind fun _ => pure _
    | none =>
      exact (expectName _).bind fun _ => char?.bind fun _ =>
        ite ((punct rfl).bind fun _ => (expectName _).bind fun _ => pure _) (pure _)

theorem member : Composed Reader.member :=
  get.bind fun c => by
    split
    · exact ite ((punct rfl).bind fun _ => name) (pure _)
    · exact pure _

theorem dottedName (what : String) : Composed (Reader.dottedName what) :=
  (expectName what).bind fun _ => member.many.bind fun _ => pure _

theorem reference? : Composed Reader.reference? :=
  name.bind fun first => by
    cases first with
    | none => exact pure _
    | some first =>
      exact member.many.bind fun _ => char?.bind fun _ =>
        ite (group.bind fun _ => get.bind fun _ => pure _)
          ((pure _).bind fun _ => get.bind fun _ => pure _)

theorem simpleExpression? : Composed Reader.simpleExpression? := by
  unfold Reader.simpleExpression?
  refine string.bind fun l => ?_
  cases l with
  | some l => exact pure _
  | none =>
    refine group.bind fun l => ?_
    cases l with
    | some l => exact pure _
    | none =>
      refine number.bind fun l => ?_
      cases l with
      | some l => exact pure _
      | none => exact reference?

theorem simpleExpression (what : String) : Composed (Reader.simpleExpression what) :=
  simpleExpression?.required

theorem code? : Composed Reader.code? := fragment.bind fun _ => pure _

theorem code (what : String) : Composed (Reader.code what) := code?.required

/-! Images. -/

theorem imageWord? : Composed Reader.imageWord? :=
  peekName.bind fun n => by
    cases n with
    | none => exact pure _
    | some n => exact ite (pure _) name

theorem imageWords (what : String) : Composed (Reader.imageWords what) :=
  imageWord?.required.bind fun _ => imageWord?.many.bind fun _ => pure _

theorem modifierClause (kind : ModifierKind) : Composed (Reader.modifierClause kind) := by
  cases kind with
  | «at» | zorder => exact (simpleExpression _).bind fun _ => pure _
  | onlayer | as => exact (expectName _).bind fun _ => pure _
  | behind => exact (imageWords _).bind fun _ => pure _

theorem modifier? : Composed Reader.modifier? :=
  peekName.bind fun next => by
    split
    · exact pure _
    · exact (expectKeyword _).bind fun _ => (modifierClause _).bind fun _ => pure _

theorem imageSpec : Composed Reader.imageSpec :=
  (imageWords _).bind fun _ => modifier?.many.bind fun _ => pure _

theorem transition? : Composed Reader.transition? :=
  (keyword _).bind fun k => by
    cases k with
    | none => exact pure _
    | some _ => exact (simpleExpression _).map _

theorem sceneImage? : Composed Reader.sceneImage? :=
  atEnd.bind fun _ => peekName.bind fun _ => ite (pure _) (imageSpec.map _)

/-! Heads of statements and clauses. -/

theorem opensBlock (construct : String) : Composed (Reader.opensBlock construct) :=
  (expectPunct rfl rfl).bind fun _ => endOfLine construct

theorem condition (construct : String) : Composed (Reader.condition construct) :=
  (code _).bind fun _ => (opensBlock construct).bind fun _ => pure _

theorem assigned (construct : String) : Composed (Reader.assigned construct) :=
  (expectPunct rfl rfl).bind fun _ => (code _).bind fun _ =>
    (endOfLine construct).bind fun _ => pure _

theorem afterKeyword (keyword : Span) (kind : StatementKind) :
    Composed (Reader.afterKeyword keyword kind) := by
  cases kind with
  | say => exact refuse _
  | label => exact labelName.bind fun _ => (opensBlock _).bind fun _ => pure _
  | branch | loop => exact (condition _).bind fun _ => pure _
  | menu =>
    refine (peekPunct _).bind fun bare => ?_
    cases bare
    · exact (labelName.map _).bind fun _ => (opensBlock _).bind fun _ => pure _
    · exact (pure _).bind fun _ => (opensBlock _).bind fun _ => pure _
  | jump => exact labelName.bind fun _ => (endOfLine _).bind fun _ => pure _
  | call =>
    refine labelName.bind fun _ => (Composed.keyword _).bind fun site => ?_
    cases site with
    | none => exact (pure _).bind fun _ => (endOfLine _).bind fun _ => pure _
    | some _ => exact (labelName.map _).bind fun _ => (endOfLine _).bind fun _ => pure _
  | leave => exact code?.bind fun _ => (endOfLine _).bind fun _ => pure _
  | pass => exact (endOfLine _).bind fun _ => pure _
  | showImage | hideImage =>
    exact imageSpec.bind fun _ => transition?.bind fun _ => (endOfLine _).bind fun _ => pure _
  | scene =>
    exact sceneImage?.bind fun _ => transition?.bind fun _ => (endOfLine _).bind fun _ => pure _
  | transition => exact (simpleExpression _).bind fun _ => (endOfLine _).bind fun _ => pure _
  | define | default => exact (dottedName _).bind fun _ => (assigned _).bind fun _ => pure _
  | image =>
    exact (expectName _).bind fun _ => name.many.bind fun _ => (assigned _).bind fun _ => pure _

theorem keyedHead : Composed Reader.keyedHead :=
  peekName.bind fun next => by
    split
    · exact refuse _
    · exact (expectKeyword _).bind fun _ => afterKeyword _ _

theorem elifHead : Composed Reader.elifHead :=
  (expectKeyword _).bind fun _ => (condition _).bind fun _ => pure _

theorem elseHead : Composed Reader.elseHead := (expectKeyword _).bind fun _ => opensBlock _

theorem choiceHead : Composed Reader.choiceHead :=
  (expectString _).bind fun _ => (keyword _).bind fun k => by
    cases k with
    | none => exact (pure _).bind fun _ => (opensBlock _).bind fun _ => pure _
    | some _ => exact ((code _).map _).bind fun _ => (opensBlock _).bind fun _ => pure _

end Composed

end NovelScript.Reader
