import NovelScript.Text.Lines

/-!
# Paths

A path is a list of names below the working directory or below a root. Writing `/` repeatedly, a
closing `/` and the name `.` change nothing, so `Path.ofText` drops them; `..` is kept, because
what it means depends on what it is applied to.
-/

namespace NovelScript

/-- Where a path starts. -/
inductive PathRoot where
  /-- At the working directory. -/
  | relative
  /-- At the root. -/
  | absolute
  /-- At the root written with exactly two slashes, which is kept apart. -/
  | doubled
  deriving DecidableEq, Repr

/-- A path without empty names and without `.`. -/
structure Path where
  root : PathRoot
  names : List (List Char)
  deriving DecidableEq, Repr

namespace Path

/-- The pieces of the text between slashes. -/
def pieces : List Char → List (List Char)
  | [] => [[]]
  | c :: cs =>
    if c = '/' then [] :: pieces cs
    else match pieces cs with
      | l :: ls => (c :: l) :: ls
      | [] => [[c]]

/-- The names among the pieces. -/
def namesOf (cs : List Char) : List (List Char) :=
  (pieces cs).filter fun p => !p.isEmpty && p != ['.']

/-- Reads a path. -/
def ofText (cs : List Char) : Path :=
  let root := match (cs.takeWhile (· == '/')).length with
    | 0 => PathRoot.relative
    | 2 => .doubled
    | _ => .absolute
  ⟨root, namesOf cs⟩

/-- The path as text; the path that names nothing is written `.`. -/
def text (p : Path) : List Char :=
  let body := Text.joinWith ['/'] p.names
  match p.root with
  | .absolute => '/' :: body
  | .doubled => '/' :: '/' :: body
  | .relative => if p.names.isEmpty then ['.'] else body

instance : ToString Path := ⟨fun p => String.ofList p.text⟩

/-- The path `q` read from the directory `p`; a rooted `q` does not depend on `p`. -/
def join (p q : Path) : Path :=
  match q.root with
  | .relative => { p with names := p.names ++ q.names }
  | _ => q

/-- Removes every `..` together with the name before it. Above the root there is only the root. -/
def collapse (names : List (List Char)) : List (List Char) :=
  (names.foldl (fun up n => if n = ['.', '.'] then up.tail else n :: up) []).reverse

/-- The path from the root that `p` means in the absolute directory `base`. -/
def resolve (base p : Path) : Path := ⟨.absolute, collapse (base.join p).names⟩

/-- Whether a name of the path holds the null character, which no file system takes. -/
def holdsNull (p : Path) : Bool := p.names.any fun name => name.contains '\x00'

/-- Whether the names `a` come before the names `b`. The first name that differs decides, and in it
the first character that differs; what ends first comes first. -/
def precedes (a b : List (List Char)) : Bool :=
  a.lex b fun x y => x.lex y fun c d => c < d

/-- The path without its last name. -/
def parent (p : Path) : Path := { p with names := p.names.dropLast }

/-- What is left of `p` below `base`, if it lies there. -/
def relativeTo? (p base : Path) : Option Path :=
  if p.root = base.root && base.names.isPrefixOf p.names then
    some ⟨.relative, p.names.drop base.names.length⟩
  else none

end Path

end NovelScript
