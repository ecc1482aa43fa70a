import NovelScript.Line.Bracket

/-!
# The stack of open brackets

`groupStack` reads a bracket group with one stack of the brackets that are open, and says so when it
has to look at an empty stack. A group starts with its own bracket on the stack and ends when the
stack is empty, so that never happens and `group?` is what such a scan finds.
-/

namespace NovelScript.Line

/-- Why a scan with a stack of brackets stops without a group. -/
inductive StackFailure where
  /-- The stack was empty when its top was asked for. -/
  | emptyStack
  | stray (s : Stray)

/-- Reads a bracket group from position `n` on, with the given stack of closing brackets. -/
def groupStack (expected : List Char) (n : Nat) : List Char → Except StackFailure Nat
  | [] =>
    match expected with
    | [] => .error .emptyStack
    | q :: _ => .error (.stray ⟨0, .unclosedBracket q⟩)
  | c :: cs =>
    if isQuote c then
      match Literal.bodyLength? c cs with
      | none => .error (.stray ⟨n, .unterminatedString⟩)
      | some k => groupStack expected (n + 1 + k) (cs.drop k)
    else match closer? c with
      | some q => groupStack (q :: expected) (n + 1) cs
      | none =>
        if isCloser c then
          match expected with
          | [] => .error .emptyStack
          | q :: rest =>
            if c ≠ q then .error (.stray ⟨n, .mismatchedBracket c q⟩)
            else if rest.isEmpty then .ok (n + 1)
            else groupStack rest (n + 1) cs
        else groupStack expected (n + 1) cs
termination_by cs => cs.length

/-- The group at the start of the text, read with an empty stack at first. -/
def groupFrom (cs : List Char) : Except StackFailure (Option (List Char)) :=
  match cs with
  | [] => .ok none
  | c :: _ =>
    if (closer? c).isSome then (groupStack [] 0 cs).map fun n => some (cs.take n)
    else .ok none

/-- While a bracket is open, the stack is not empty. -/
theorem groupStack_cons (inner : Char) (outer : List Char) (n : Nat) (cs : List Char) :
    groupStack (inner :: outer) n cs = (groupEnd inner outer n cs).mapError .stray := by
  fun_induction groupEnd inner outer n cs with
  | case1 inner outer n => rw [groupStack]; rfl
  | case2 inner outer n c cs hq hb => rw [groupStack, if_pos hq, hb]; rfl
  | case3 inner outer n c cs hq k hb ih => rw [groupStack, if_pos hq, hb]; exact ih
  | case4 inner outer n c cs hq q hc ih => rw [groupStack, if_neg hq, hc]; exact ih
  | case5 inner outer n c cs hq hc hcl hne =>
    rw [groupStack, if_neg hq, hc]
    simp only [hcl, if_true, hne, ne_eq, not_false_eq_true]
    rfl
  | case6 inner n c cs hq hc hcl hne =>
    rw [groupStack, if_neg hq, hc]
    simp only [hcl, if_true, hne, if_false, List.isEmpty_nil]
    rfl
  | case7 inner n c cs hq hc hcl hne q rest ih =>
    rw [groupStack, if_neg hq, hc]
    simp only [hcl, if_true, hne, if_false, List.isEmpty_cons, Bool.false_eq_true]
    exact ih
  | case8 inner outer n c cs hq hc hcl ih =>
    rw [groupStack, if_neg hq, hc]
    simp only [hcl, Bool.false_eq_true, if_false]
    exact ih

/-- A scan of a group never looks at an empty stack. -/
theorem groupFrom_eq (cs : List Char) : groupFrom cs = (group? cs).mapError .stray := by
  cases cs with
  | nil => rfl
  | cons c rest =>
    rw [groupFrom, group?]
    cases hc : closer? c with
    | none => rfl
    | some q =>
      have hq : isQuote c = false := isQuote_of_closer? hc
      have hfirst : groupStack [] 0 (c :: rest) = groupStack [q] 1 rest := by
        rw [groupStack, if_neg (by simp [hq]), hc]
      simp only [Option.isSome_some, if_true, hfirst, groupStack_cons]
      cases groupEnd q [] 1 rest <;> rfl

end NovelScript.Line
