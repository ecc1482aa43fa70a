import NovelScript.Project.FileTree

/-!
# File name patterns

In a pattern for one name `*` stands for any characters, `?` for one, and brackets for one of the
characters within them. A pattern for a path is a list of such patterns; `**` in it stands for any
number of directories.
-/

namespace NovelScript

/-- A part of a pattern for names. -/
inductive GlobPiece where
  | any
  | one
  | char (c : Char)
  /-- A character in one of the ranges, or in none of them if negated. -/
  | within (negated : Bool) (ranges : List (Char × Char))
  deriving DecidableEq, Repr

namespace GlobPiece

/-- The ranges between two brackets. A hyphen at the start or the end stands for itself. -/
def ranges : List Char → List (Char × Char)
  | [] => []
  | a :: '-' :: b :: rest => (a, b) :: ranges rest
  | a :: rest => (a, a) :: ranges rest

/-- How many characters after an opening bracket are before the one that closes it. A closing
bracket right at the start stands for itself. -/
def bracketLength? (cs : List Char) : Option Nat :=
  let opening :=
    if ['!', ']'].isPrefixOf cs then 2
    else if cs.head? = some '!' || cs.head? = some ']' then 1
    else 0
  let body := (cs.drop opening).takeWhile (· != ']')
  if opening + body.length < cs.length then some (opening + body.length) else none

/-- What is left after the ranges at the start that hold nothing. -/
def dropVoid : List Char → List Char
  | a :: '-' :: b :: rest => if b < a then dropVoid rest else a :: '-' :: b :: rest
  | cs => cs

/-- Reads what is between two brackets. An exclamation mark negates it if nothing but ranges that
hold nothing is before the mark; if the mark was then the start of a range, the hyphen and the end
of the range stand for themselves. -/
def ofBrackets (body : List Char) : GlobPiece :=
  if body.head? = some '!' then within true (ranges (body.drop 1))
  else
    match dropVoid body with
    | '!' :: '-' :: b :: rest => within true (('-', '-') :: (b, b) :: ranges rest)
    | '!' :: rest => within true (ranges rest)
    | cs => within false (ranges cs)

/-- Reads a pattern. An opening bracket that is not closed stands for itself. -/
def parse (cs : List Char) : List GlobPiece :=
  match cs with
  | [] => []
  | c :: rest =>
    if c = '*' then any :: parse rest
    else if c = '?' then one :: parse rest
    else if c = '[' then
      match bracketLength? rest with
      | none => char c :: parse rest
      | some n => ofBrackets (rest.take n) :: parse (rest.drop (n + 1))
    else char c :: parse rest
termination_by cs.length

/-- Whether the character is in one of the ranges. -/
def inRanges (rs : List (Char × Char)) (c : Char) : Bool :=
  rs.any fun r => r.1 ≤ c && c ≤ r.2

/-- Whether a name fits a pattern. -/
def fits : List GlobPiece → List Char → Bool
  | [], cs => cs.isEmpty
  | any :: ps, [] => fits ps []
  | any :: ps, c :: cs => fits ps (c :: cs) || fits (any :: ps) cs
  | one :: ps, _ :: cs => fits ps cs
  | char d :: ps, c :: cs => c = d && fits ps cs
  | within negated rs :: ps, c :: cs => (inRanges rs c != negated) && fits ps cs
  | _ :: _, [] => false
termination_by ps cs => ps.length + cs.length

end GlobPiece

/-- One level of a pattern for paths. -/
inductive GlobLevel where
  /-- Any number of directories, none included. -/
  | anywhere
  /-- A name that fits. -/
  | fitting (pieces : List GlobPiece)
  /-- Just this name. -/
  | exact (name : List Char)
  deriving DecidableEq, Repr

/-- A pattern for paths. -/
structure Glob where
  levels : List GlobLevel
  /-- Whether only directories fit. -/
  directoriesOnly : Bool
  deriving DecidableEq, Repr

namespace Glob

/-- Whether the name has characters with a meaning in patterns. -/
def isPattern (name : List Char) : Bool := name.any fun c => c == '*' || c == '?' || c == '['

/-- Whether two stars are next to each other. -/
def hasDoubleStar : List Char → Bool
  | '*' :: '*' :: _ => true
  | _ :: cs => hasDoubleStar cs
  | [] => false

/-- Reads one level. Two stars may only stand alone. -/
def level? (name : List Char) : Option GlobLevel :=
  if name = ['*', '*'] then some .anywhere
  else if hasDoubleStar name then none
  else if isPattern name then some (.fitting (GlobPiece.parse name))
  else some (.exact name)

/-- Reads a pattern, if all its levels are well formed. -/
def parse? (cs : List Char) : Option Glob := do
  let levels ← (Path.namesOf cs).mapM level?
  return ⟨levels, cs.getLast? = some '/'⟩

/-- The names of everything below a directory, at any depth. -/
def below (t : FileTree) (directory : List (List Char)) : List (List (List Char)) :=
  (t.entries.map Prod.fst).filter fun names =>
    directory.length < names.length && directory.isPrefixOf names

/-- The names right in a directory. -/
def children (t : FileTree) (directory : List (List Char)) : List (List Char) :=
  ((below t directory).filter fun names => names.length = directory.length + 1).filterMap
    List.getLast?

/-- What fits the levels from a directory on. Below the last level only directories count if
`directoriesOnly`. -/
def select (t : FileTree) (directoriesOnly : Bool) : (levels : List GlobLevel) →
    (directory : List (List Char)) → List (List (List Char))
  | [], directory => [directory]
  | level :: levels, directory =>
    let place := Path.collapse directory
    match level with
    | .anywhere =>
      let within := (below t place).filter t.isDirectory
      (directory :: within.map fun names => directory ++ names.drop place.length).flatMap
        (select t directoriesOnly levels)
    | .fitting pieces =>
      let named := (children t place).filter (GlobPiece.fits pieces)
      let open? (name : List Char) : Bool :=
        (levels.isEmpty && !directoriesOnly) || t.isDirectory (place ++ [name])
      (named.filter open?).flatMap fun name =>
        select t directoriesOnly levels (directory ++ [name])
    | .exact name =>
      let target := Path.collapse (directory ++ [name])
      let found :=
        if levels.isEmpty && !directoriesOnly then (t.find? target).isSome else t.isDirectory target
      if found then select t directoriesOnly levels (directory ++ [name]) else []

/-- Whether a search from a directory comes to a level that is just one name, and the name is too
long for a file. -/
def seeksLongName (t : FileTree) (g : Glob) (directory : List (List Char)) : Bool :=
  (List.range g.levels.length).any fun n =>
    match g.levels[n]? with
    | some (.exact name) =>
      isLongName name && !(select t true (.anywhere :: g.levels.take n) directory).isEmpty
    | _ => false

/-- Everything that fits a pattern in a directory or at any depth below it. -/
def selectBelow (t : FileTree) (g : Glob) (directory : List (List Char)) :
    List (List (List Char)) :=
  select t g.directoriesOnly (.anywhere :: g.levels) directory

end Glob

end NovelScript
