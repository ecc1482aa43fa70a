/-!
# Repetition

A grammar repeats parts: words of an image name, statements of a block. `repeated` runs a
computation round after round until a round is the last one. Every round uses up input, which a
size of the state measures; a round that uses up none is taken to be the last.
-/

namespace NovelScript

/-- What one round of a repetition comes to. -/
inductive Round (α : Type) where
  /-- Nothing more was found. -/
  | stop
  /-- One more was found, and nothing follows it. -/
  | last (a : α)
  /-- One more was found. -/
  | more (a : α)
  deriving Repr

/-- The round of a part that may be absent. -/
def Round.ofOption {α : Type} : Option α → Round α
  | none => .stop
  | some a => .more a

variable {ε σ α : Type}

/-- Collects what the rounds of `round` find. -/
def repeated (size : σ → Nat) (round : EStateM ε σ (Round α)) : EStateM ε σ (List α) := fun s =>
  match round s with
  | .error e s' => .error e s'
  | .ok .stop s' => .ok [] s'
  | .ok (.last a) s' => .ok [a] s'
  | .ok (.more a) s' =>
    if size s' < size s then
      match repeated size round s' with
      | .error e s'' => .error e s''
      | .ok as s'' => .ok (a :: as) s''
    else .ok [a] s'
termination_by s => size s

variable {size : σ → Nat} {round : EStateM ε σ (Round α)} {s s' : σ}

theorem repeated_of_error {e : ε} (h : round s = .error e s') :
    repeated size round s = .error e s' := by
  rw [repeated, h]

theorem repeated_of_stop (h : round s = .ok .stop s') : repeated size round s = .ok [] s' := by
  rw [repeated, h]

theorem repeated_of_last {a : α} (h : round s = .ok (.last a) s') :
    repeated size round s = .ok [a] s' := by
  rw [repeated, h]

/-- A round that uses up input is followed by the others. -/
theorem repeated_of_more {a : α} (h : round s = .ok (.more a) s') (hs : size s' < size s) :
    repeated size round s = (List.cons a <$> repeated size round) s' := by
  rw [repeated, h]
  simp only [hs, ↓reduceIte, Functor.map, EStateM.map]
  cases repeated size round s' <;> rfl

end NovelScript
