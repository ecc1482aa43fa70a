import NovelScript.Command.Terminal

/-!
# The program

Gathers the files that a command line is about, answers it and prints what came of it.
-/

namespace NovelScript.Command

/-- What the file system holds at a path, nothing if there is nothing. -/
def entryAt (p : Path) : IO (Option FileEntry) := do
  try
    return some (.file (← IO.FS.readBinFile (toString p)).data.toList)
  catch e =>
    match e with
    | .noFileOrDirectory .. => return none
    | _ => return some .directory

/-- The lines of the standard input. -/
partial def inputLines (input : IO.FS.Stream) : IO (List String) := do
  let line ← input.getLine
  if line.isEmpty then return []
  return (line.dropEndWhile (· == '\n')).toString :: (← inputLines input)

/-- The paths of the files that a request is about. Those within directories are named on the
standard input. -/
def pathsOf : Request → IO (List Path)
  | .parse file _ config | .tokens file config => return [file, config]
  | .check paths _ config => do
    let listed ← inputLines (← IO.getStdin)
    return config :: paths ++ listed.map fun l => Path.ofText l.toList
  | .version | .help | .misuse | .completion _ => return []

/-- The files at the given paths, which are read from `directory`. -/
def gather (directory : Path) (paths : List Path) : IO FileTree := do
  let entries ← paths.filterMapM fun p => do
    return (← entryAt p).map fun e => ((directory.resolve p).names, e)
  return FileTree.ofEntries (entries ++ [(directory.names, .directory)])

/-- Answers a command line on the files of the system. -/
def runProgram (args : List (List Char)) : IO UInt32 := do
  let directory := Path.ofText ((← IO.getEnv "PWD").getD "/").toList
  let files ← gather directory (← pathsOf (Request.ofWords args))
  let o := run ⟨files, directory, "Lean 4".toList⟩ args
  IO.print o.outText
  IO.eprint o.errText
  return o.exit.toUInt32

end NovelScript.Command

/-- Answers the command line. -/
def main (args : List String) : IO UInt32 :=
  NovelScript.Command.runProgram (args.map String.toList)
