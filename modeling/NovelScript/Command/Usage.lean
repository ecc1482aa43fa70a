/-!
# Usage

How the program is called, as it is told to those who ask for help or call it wrongly.
-/

namespace NovelScript.Command

/-- How the program is called, line by line. -/
def usageLines : List String :=
  ["Usage: renparse [--version] [--verbose] COMMAND",
    "",
    "  parse FILE [--format tree|json] [--config FILE]      show the tree of a script",
    "  check [PATH ...] [--format human|vscode] [--config FILE]",
    "                                                       report the faults of scripts",
    "  tokens FILE [--config FILE]                          show the layout of a script",
    "",
    "To check directories, name the files in them on the standard input, one to a line."]

/-- How the program is called. -/
def usage : String := String.join (usageLines.map fun l => l ++ "\n")

end NovelScript.Command
