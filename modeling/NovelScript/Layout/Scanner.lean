import NovelScript.Layout.Offside

/-!
# Scanners

A scanner holds the state of the offside rule and all tokens that it has emitted. It reads its text
as often as it is asked to, and it takes single steps of the rule as well. A call that breaks down
leaves the tokens and the state that it has come to.
-/

namespace NovelScript

/-- The width of white space, and whether it mixes tabs and spaces. -/
def LayoutRules.measure (rules : LayoutRules) (indent : List Char) :
    Except Breakdown (Int × Bool) :=
  (rules.width indent).map fun w => (w, isMixed indent)

/-- A scanner: the state it is in and what it has emitted. -/
structure Scanner where
  state : Offside := .initial
  tokens : List LayoutToken := []
  deriving DecidableEq, Repr

namespace Scanner

/-- What a scanner can be asked to do. -/
inductive Call where
  /-- To measure white space. -/
  | measure (indent : List Char)
  /-- To relate a line of a width to the open blocks. -/
  | indentTo (w : Int) (place : Place)
  /-- To take it that a line was seen, or that none was. -/
  | setStarted (started : Bool)
  /-- To close the blocks at the end of the text, of which the last line has the number. -/
  | finish (lastLine : Int)
  /-- To read the whole text. -/
  | scan
  deriving DecidableEq, Repr

/-- What a call comes to. -/
def Call.emission (rules : LayoutRules) (text : List Char) (s : Offside) : Call → Emission
  | measure indent =>
    match rules.measure indent with
    | .ok _ => ⟨[], s, none⟩
    | .error b => ⟨[], s, some b⟩
  | indentTo w place => s.indentTo w place
  | setStarted started => ⟨[], { s with started := started }, none⟩
  | finish lastLine => s.finish text lastLine
  | scan => s.scan rules text

/-- The scanner after a call. -/
def call (rules : LayoutRules) (text : List Char) (s : Scanner) (c : Call) : Scanner :=
  let e := c.emission rules text s.state
  ⟨e.state, s.tokens ++ e.tokens⟩

/-- A new scanner after calls, one after the other. -/
def after (rules : LayoutRules) (text : List Char) (calls : List Call) : Scanner :=
  calls.foldl (call rules text) {}

end Scanner

end NovelScript
