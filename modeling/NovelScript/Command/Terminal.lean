import NovelScript.Command.Run

/-!
# Terminal output

What came of a command is shown on a terminal as plain text. An outline is drawn with lines from
each label to those below it, and a listing of tokens is set in columns.
-/

namespace NovelScript

/-- Puts `first` before the first of some lines and `next` before the others. -/
def hang (first next : String) : List (List Char) → List (List Char)
  | [] => []
  | l :: ls => (first.toList ++ l) :: ls.map (next.toList ++ ·)

mutual

/-- An outline as lines of text. -/
def Outline.lines : Outline → List (List Char)
  | .node label children => label :: outlineLines children

/-- Outlines below a label as lines of text. -/
def outlineLines : List Outline → List (List Char)
  | [] => []
  | [o] => hang "└── " "    " o.lines
  | o :: rest => hang "├── " "│   " o.lines ++ outlineLines rest

end

namespace Command

/-- Fills a text with spaces up to a width; they are put before it if `right` is set. -/
def pad (right : Bool) (width : Nat) (cs : List Char) : List Char :=
  let spaces := List.replicate (width - cs.length) ' '
  if right then spaces ++ cs else cs ++ spaces

/-- The cells of a row. -/
def TokenRow.cells (r : TokenRow) : List (List Char) :=
  [r.position, r.tag.label.toList, r.value]

/-- The lines of a listing of tokens. -/
def listingLines (title : List Char) (rows : List TokenRow) : List (List Char) :=
  let cells := tokenColumns.map String.toList :: rows.map TokenRow.cells
  let width (column : Nat) : Nat :=
    (cells.map fun row => (row.getD column []).length).foldl max 0
  let line (row : List (List Char)) : List Char :=
    pad true (width 0) (row.getD 0 []) ++ "  ".toList ++
      pad false (width 1) (row.getD 1 []) ++ "  ".toList ++ row.getD 2 []
  title :: cells.map line

/-- What is shown, as lines of text. -/
def Display.lines : Display → List (List Char)
  | outline o => o.lines
  | tokens title rows => listingLines title rows

/-- The message about a command that broke off. -/
def Crash.message : Crash → String
  | config .notUtf8 => "the configuration is not valid UTF-8"
  | config (.notTable _) => "a section of the configuration is not a table"
  | config .longName | discovery .longName => "a file name is too long"
  | config _ => "an integer of the configuration is too long"
  | discovery (.extension e) => s!"no pattern: {String.ofList e}"
  | discovery (.path p) | path p => s!"no path: {p}"
  | layout .longWidth => "the tab width is too long"
  | layout _ => "the tab width must be at least 1"

namespace Outcome

/-- The text for the standard output. -/
def outText (o : Outcome) : String :=
  String.ofList (o.out ++ (o.shown.flatMap Display.lines).flatMap fun l => l ++ ['\n'])

/-- The text for the error output. -/
def errText (o : Outcome) : String :=
  let crash := match o.crash with
    | some c => s!"Error: {c.message}\n"
    | none => ""
  String.ofList o.err ++ (if o.misused then usage else "") ++ crash

end Outcome

end Command

end NovelScript
