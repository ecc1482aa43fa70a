import NovelScript.Line.Literal
import NovelScript.Fault

/-!
# Bracket groups and fragments

The expressions of a script are pieces of another language, of which only the extent is found. A
bracket group runs from an opening bracket to the bracket that closes it. A fragment runs up to a
colon outside all brackets, a comment or the end of the line. Brackets, colons and comment signs
within string literals do not count.
-/

namespace NovelScript.Line

/-- The bracket that closes an opening bracket. -/
def closer? : Char → Option Char
  | '(' => some ')'
  | '[' => some ']'
  | '{' => some '}'
  | _ => none

theorem isQuote_of_closer? {c q : Char} (h : closer? c = some q) : isQuote c = false := by
  unfold closer? at h
  split at h
  all_goals first | rfl | cases h

/-- Whether the character closes a bracket. -/
def isCloser (c : Char) : Bool := c == ')' || c == ']' || c == '}'

/-- A failure to find an end: where it is noticed, counted from the start, and its cause. -/
structure Stray where
  position : Nat
  cause : Cause
  deriving DecidableEq, Repr

/-- The end of a bracket group. The innermost open bracket is closed by `inner`, the brackets
around it by `outer`, and `n` characters of the group were read. -/
def groupEnd (inner : Char) (outer : List Char) (n : Nat) : List Char → Except Stray Nat
  | [] => .error ⟨0, .unclosedBracket inner⟩
  | c :: cs =>
    if isQuote c then
      match Literal.bodyLength? c cs with
      | none => .error ⟨n, .unterminatedString⟩
      | some k => groupEnd inner outer (n + 1 + k) (cs.drop k)
    else match closer? c with
      | some q => groupEnd q (inner :: outer) (n + 1) cs
      | none =>
        if isCloser c then
          if c ≠ inner then .error ⟨n, .mismatchedBracket c inner⟩
          else match outer with
            | [] => .ok (n + 1)
            | q :: rest => groupEnd q rest (n + 1) cs
        else groupEnd inner outer (n + 1) cs
termination_by cs => cs.length

/-- The bracket group at the start of the text. -/
def group? (cs : List Char) : Except Stray (Option (List Char)) :=
  match cs with
  | [] => .ok none
  | c :: rest =>
    match closer? c with
    | none => .ok none
    | some q => (groupEnd q [] 1 rest).map fun n => some (cs.take n)

/-- Where a fragment stops, when `depth` brackets are open and `n` characters were read. A bracket
that closes nothing is passed over. -/
def fragmentEnd (depth n : Nat) : List Char → Except Stray Nat
  | [] => .ok n
  | c :: cs =>
    if isQuote c then
      match Literal.bodyLength? c cs with
      | none => .error ⟨n, .unterminatedString⟩
      | some k => fragmentEnd depth (n + 1 + k) (cs.drop k)
    else if c = '#' then .ok n
    else if (closer? c).isSome then fragmentEnd (depth + 1) (n + 1) cs
    else if isCloser c then fragmentEnd (depth - 1) (n + 1) cs
    else if c = ':' && depth = 0 then .ok n
    else fragmentEnd depth (n + 1) cs
termination_by cs => cs.length

/-- The fragment at the start of the text, without the blanks at its end. -/
def fragment? (cs : List Char) : Except Stray (Option (List Char)) :=
  (fragmentEnd 0 0 cs).map fun n =>
    let source := Text.trimEnd (cs.take n)
    if source.isEmpty then none else some source

end NovelScript.Line
