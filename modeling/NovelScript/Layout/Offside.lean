import NovelScript.Layout.ContentLine
import NovelScript.Fault
import NovelScript.Numeral

/-!
# The offside rule

White space at the start of a line says how deep the line lies. A line deeper than the one before
opens a block, a line of the same depth continues it, and a shallower line closes every block that
is deeper than itself. `Offside` is the state of this rule: the widths of the open blocks and
whether a line was seen. Each step emits tokens of the layout.

A tab width below one is not ruled out here, so a step can also break down: there is no next stop
for tabs when the width is zero, and a line with a negative width closes even the outermost block.
Whatever the tab width, a step breaks down where it had to tell a width that is too long to be
written.
-/

namespace NovelScript

/-- How leading white space is read. -/
structure LayoutRules where
  /-- A tab goes on to the next multiple of this width. -/
  tabWidth : Int := 4
  /-- Whether a line may be indented with tabs and spaces together. -/
  allowMixed : Bool := false
  deriving DecidableEq, Repr

/-- Why the layout of a script could not be read to its end. -/
inductive Breakdown where
  /-- A tab was met and the tab width is zero. -/
  | noTabStop
  /-- The outermost block was closed. -/
  | noOpenBlock
  /-- A width that is part of a message has too many digits. -/
  | longWidth
  deriving DecidableEq, Repr

namespace LayoutRules

/-- The width after the given white space that starts at width `w`. Characters other than space and
tab have no width. -/
def widthFrom (rules : LayoutRules) (w : Int) : List Char → Except Breakdown Int
  | [] => .ok w
  | c :: cs =>
    if c = ' ' then rules.widthFrom (w + 1) cs
    else if c = '\t' then
      if rules.tabWidth = 0 then .error .noTabStop
      else rules.widthFrom ((w.fdiv rules.tabWidth + 1) * rules.tabWidth) cs
    else rules.widthFrom w cs

/-- The width of leading white space. -/
def width (rules : LayoutRules) (indent : List Char) : Except Breakdown Int :=
  rules.widthFrom 0 indent

end LayoutRules

/-- Whether white space holds both tabs and spaces. -/
def isMixed (indent : List Char) : Bool :=
  indent.contains '\t' && indent.contains ' '

/-- The state of the offside rule: the widths of the open blocks, innermost first, and whether a
content line was seen. -/
structure Offside where
  widths : List Int
  started : Bool
  deriving DecidableEq, Repr

/-- The state before the first line: only the outermost block is open. -/
def Offside.initial : Offside := ⟨[0], false⟩

/-- What a step of the offside rule comes to: tokens, the next state, and the reason if the step
broke down. -/
structure Emission where
  tokens : List LayoutToken
  state : Offside
  breakdown : Option Breakdown := none
  deriving DecidableEq, Repr

namespace Emission

/-- Puts tokens in front of an emission. -/
def after (tokens : List LayoutToken) (e : Emission) : Emission :=
  { e with tokens := tokens ++ e.tokens }

/-- Continues with the next step, unless this one broke down. -/
def andThen (e : Emission) (next : Offside → Emission) : Emission :=
  match e.breakdown with
  | some _ => e
  | none => (next e.state).after e.tokens

/-- The tokens of an emission that did not break down. -/
def toExcept (e : Emission) : Except Breakdown (List LayoutToken) :=
  match e.breakdown with
  | some b => .error b
  | none => .ok e.tokens

end Emission

namespace Offside

/-- Relates a line of width `w` that starts at `place` to the open blocks. -/
def indentTo (s : Offside) (w : Int) (place : Place) : Emission :=
  match s.widths with
  | [] => ⟨[], s, some .noOpenBlock⟩
  | inner :: _ =>
    if inner < w then ⟨[⟨.indent, place⟩], { s with widths := w :: s.widths }, none⟩
    else if inner = w then ⟨if s.started then [⟨.newline, place⟩] else [], s, none⟩
    else
      let dedents := (s.widths.takeWhile (w < ·)).map fun _ => LayoutToken.mk .dedent place
      match s.widths.dropWhile (w < ·) with
      | [] => ⟨dedents, { s with widths := [] }, some .noOpenBlock⟩
      | outer :: rest =>
        let s' := { s with widths := outer :: rest }
        if outer = w then ⟨dedents, s', none⟩
        else if Numeral.isShort outer && Numeral.isShort w then
          ⟨dedents ++ [⟨.fault (.inconsistent outer w), place⟩], s', none⟩
        else ⟨dedents, s', some .longWidth⟩

/-- Reads one content line. -/
def line (rules : LayoutRules) (l : ContentLine) (s : Offside) : Emission :=
  match rules.width l.indent with
  | .error b => ⟨[], s, some b⟩
  | .ok w =>
    let mixed :=
      if isMixed l.indent && !rules.allowMixed then
        [LayoutToken.mk (.fault .mixed) l.indentPlace]
      else []
    ((s.indentTo w l.place.opening).after mixed).andThen fun s' =>
      ⟨[⟨.text l.content, l.place⟩], { s' with started := true }, none⟩

/-- Reads content lines one after the other. -/
def lines (rules : LayoutRules) : List ContentLine → Offside → Emission
  | [], s => ⟨[], s, none⟩
  | l :: ls, s => (s.line rules l).andThen (lines rules ls)

/-- The states after each of the content lines, up to a breakdown. -/
def trace (rules : LayoutRules) : List ContentLine → Offside → List Offside
  | [], _ => []
  | l :: ls, s =>
    let e := s.line rules l
    match e.breakdown with
    | some _ => []
    | none => e.state :: trace rules ls e.state

/-- Closes all blocks but the outermost and ends the layout at the end of the text. The last line
has the given number. -/
def finish (text : List Char) (lastLine : Int) (s : Offside) : Emission :=
  let place : Place := ⟨max lastLine 1, Text.tailLength text + 1, text.length, text.length⟩
  let close :=
    if s.widths.length > 1 then
      List.replicate (s.widths.length - 1) (LayoutToken.mk .dedent place)
    else if s.started then [⟨.newline, place⟩]
    else []
  ⟨close ++ [⟨.eof, place⟩], { s with widths := s.widths.drop (s.widths.length - 1) }, none⟩

/-- Reads the layout of a whole text. -/
def scan (rules : LayoutRules) (text : List Char) (s : Offside) : Emission :=
  (s.lines rules (contentLines text)).andThen
    (finish text (Text.lines text).length)

end Offside

/-- The layout of a script. Faults of the indentation are tokens of it. -/
def layout (rules : LayoutRules) (text : List Char) : Except Breakdown (List LayoutToken) :=
  (Offside.initial.scan rules text).toExcept

/-- The first token of a layout that is a fault, with its cause. -/
def firstFault? : List LayoutToken → Option Fault
  | [] => none
  | t :: ts =>
    match t.mark with
    | .fault cause => some ⟨.layout cause, t.place.spot⟩
    | _ => firstFault? ts

end NovelScript
