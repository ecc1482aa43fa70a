import NovelScript.Fault
import NovelScript.Path

/-!
# Reports

A report is a fault as its reader sees it: the place in the file, an excerpt of the source with a
marker under the column, and the message.
-/

namespace NovelScript

/-- How many lines an excerpt shows before and after the line of the fault. -/
def excerptMargin : Int := 2

/-- The first line of the excerpt around `line`. -/
def excerptStart (line : Int) : Int := max 1 (line - excerptMargin)

/-- The lines around `line`, or nothing if the source has none there. A last line before the start
of the source is counted from its end. -/
def excerpt (source : List Char) (line : Int) : List Char :=
  let ls := Text.boundaryLines source
  let last : Int := min ls.length (line + excerptMargin)
  let last := if last < 0 then max 0 (ls.length + last) else last
  Text.joinWith ['\n'] ((ls.take last.toNat).drop (excerptStart line - 1).toNat)

/-- What a report says about the place of a fault. -/
structure Context where
  file : Option Path
  spot : Spot
  excerpt : Option (List Char)
  deriving DecidableEq, Repr

namespace Context

/-- Pads a number with spaces on the left to a width of four. -/
def lineLabel (n : Int) : List Char :=
  let digits := (toString n).toList
  List.replicate (4 - digits.length) ' ' ++ digits ++ " | ".toList

/-- The numbered lines of an excerpt, the first of them with number `n`. The line of the spot is
followed by a marker under its column. -/
def numbered (spot : Spot) : Int → List (List Char) → List (List Char)
  | _, [] => []
  | n, l :: ls =>
    let label := lineLabel n
    let marker := List.replicate (label.length + spot.column - 1).toNat ' ' ++ "^^^".toList
    let shown := if n = spot.line then [label ++ l, marker] else [label ++ l]
    shown ++ numbered spot (n + 1) ls

/-- The location as `file:line:column`, followed by the excerpt if there is one. -/
def text (c : Context) : List Char :=
  let file := match c.file with
    | some path => toString path
    | none => "<string>"
  let location := s!"{file}:{c.spot.line}:{c.spot.column}".toList
  match c.excerpt with
  | none | some [] => location
  | some shown =>
    let numberedLines := numbered c.spot (excerptStart c.spot.line) (Text.lines shown)
    location ++ '\n' :: Text.joinWith ['\n'] numberedLines

end Context

/-- A fault as it is reported. -/
structure Report where
  faultClass : FaultClass
  reason : Reason
  message : String
  context : Option Context
  deriving DecidableEq, Repr

namespace Report

/-- A report without a place. -/
def bare (faultClass : FaultClass) (message : String) (reason : Option Reason := none) : Report :=
  ⟨faultClass, reason.getD faultClass.defaultReason, message, none⟩

/-- Adds a place to a report. The excerpt is taken from the source if there is any. -/
def located (r : Report) (file : Option Path) (spot : Spot) (source : Option (List Char)) :
    Report :=
  let shown := match source with
    | none | some [] => none
    | some text => some (excerpt text spot.line)
  { r with context := some ⟨file, spot, shown⟩ }

/-- The whole report. -/
def text (r : Report) : List Char :=
  match r.context with
  | none => r.message.toList
  | some c => c.text ++ '\n' :: r.message.toList

end Report

/-- The report of a fault in a file with the given source. -/
def Fault.report (f : Fault) (file : Option Path) (source : Option (List Char)) : Report :=
  (Report.bare f.cause.faultClass f.cause.message (some f.cause.reason)).located file f.spot source

end NovelScript
