import NovelScript.Grammar.Block
import NovelScript.Report
import NovelScript.Text.Utf8

/-!
# Scripts

A script is read in two steps, its layout and its statements. `Script.parse` reads the layout to its
end first, so a fault of the indentation anywhere comes before all others. `Script.parseLazily`
meets such a fault only where the statements reach it.
-/

namespace NovelScript

/-- Why a script could not be read. -/
inductive Failure where
  /-- The layout broke down. -/
  | breakdown (b : Breakdown)
  | refused (report : Report)
  deriving DecidableEq, Repr

namespace Script

/-- Reads the statements of a layout. -/
def statementsOf (tokens : List LayoutToken) : Except Fault (List Statement) :=
  match Parser.script { rest := tokens } with
  | .ok statements _ => .ok statements
  | .error fault _ => .error fault

/-- The tree of a layout, for a file with the given source. -/
def treeOf (tokens : List LayoutToken) (file : Option Path) (source : Option (List Char)) :
    Except Report SourceFile :=
  match statementsOf tokens with
  | .ok statements => .ok ⟨statements, file, Parser.extentOf statements⟩
  | .error fault => .error (fault.report file source)

/-- The layout of a script that has no faults of the indentation. -/
def tokenize (rules : LayoutRules) (text : List Char) (file : Option Path := none) :
    Except Failure (List LayoutToken) :=
  match layout rules text with
  | .error b => .error (.breakdown b)
  | .ok tokens =>
    match firstFault? tokens with
    | some fault => .error (.refused (fault.report file (some text)))
    | none => .ok tokens

/-- Reads a script. -/
def parse (rules : LayoutRules) (text : List Char) (file : Option Path := none) :
    Except Failure SourceFile :=
  match tokenize rules text file with
  | .error e => .error e
  | .ok tokens => (treeOf tokens file (some text)).mapError .refused

/-- Reads a script without looking for faults of the indentation first. The excerpts of reports are
taken from `source`. -/
def parseLazily (rules : LayoutRules) (text : List Char) (source : Option (List Char))
    (file : Option Path := none) : Except Failure SourceFile :=
  match layout rules text with
  | .error b => .error (.breakdown b)
  | .ok tokens => (treeOf tokens file source).mapError .refused

/-- The fault of bytes that are not valid UTF-8. It lies where the first of them would be. -/
def encodingFault (f : Text.Utf8Fault) : Fault :=
  ⟨.invalidByte f.byte,
    { line := f.before.count '\n' + 1
      column := Text.tailLength f.before + 1
      offset := some f.before.length }⟩

/-- Reads the bytes of a script in UTF-8. A byte order mark at their start is ignored. -/
def parseBytes (rules : LayoutRules) (bytes : List UInt8) (file : Option Path := none) :
    Except Failure SourceFile :=
  match Text.decode (Text.dropByteOrderMark bytes) with
  | .error f => .error (.refused ((encodingFault f).report file none))
  | .ok text => parse rules text file

end Script

end NovelScript
