import NovelScript.Toml.Value

/-!
# Tables under construction

While a TOML document is read, a table remembers how it came about, because that decides what may
still be added to it. A header may declare each table once. Keys with dots may add to a table that
nothing but headers of its parts and keys of the same section have mentioned. Tables and arrays
written as a value take no additions.
-/

namespace NovelScript.Toml

/-- How a table came about. -/
inductive Origin where
  /-- From headers of tables within it. -/
  | implied
  /-- From a header of its own. -/
  | declared
  /-- From keys with dots in the section of this number. -/
  | dotted (part : Nat)
  deriving DecidableEq, Repr

/-- What a key stands for while a document is read. -/
inductive Node where
  /-- A value as written. -/
  | leaf (v : Value)
  | table (origin : Origin) (entries : List (List Char × Node))
  /-- An array of tables, of which only the last can still grow. -/
  | tables (earlier : List (List (List Char × Node))) (last : List (List Char × Node))

/-- The keys of a table with what they stand for, in order of appearance. -/
abbrev Entries := List (List Char × Node)

namespace Entries

/-- Changes what a key stands for; a new key comes last. -/
def put (key : List Char) (node : Node) : Entries → Entries
  | [] => [(key, node)]
  | (k, n) :: rest => if k = key then (k, node) :: rest else (k, n) :: put key node rest

/-- Adds a value under a key with dots, in the section of the given number. -/
def insert (part : Nat) (v : Value) : (path : List (List Char)) → Entries → Option Entries
  | [], _ => none
  | [k], es => if (es.lookup k).isSome then none else some (es.put k (.leaf v))
  | k :: rest, es =>
    match es.lookup k with
    | none => (insert part v rest []).map fun sub => es.put k (.table (.dotted part) sub)
    | some (.table origin sub) =>
      if origin = .implied || origin = .dotted part then
        (insert part v rest sub).map fun sub => es.put k (.table (.dotted part) sub)
      else none
    | some (.leaf _) | some (.tables ..) => none

/-- Changes the table at the end of a path, which has to be there. -/
def within (change : Entries → Option Entries) : (path : List (List Char)) → Entries →
    Option Entries
  | [], es => change es
  | k :: rest, es =>
    match es.lookup k with
    | some (.table origin sub) =>
      (within change rest sub).map fun sub => es.put k (.table origin sub)
    | some (.tables earlier last) =>
      (within change rest last).map fun last => es.put k (.tables earlier last)
    | some (.leaf _) | none => none

/-- Changes what stands at the end of the path of a header. Tables on the way are implied. -/
def atHeader (change : Option Node → Option Node) : (path : List (List Char)) → Entries →
    Option Entries
  | [], _ => none
  | [k], es => (change (es.lookup k)).map fun node => es.put k node
  | k :: rest, es =>
    match es.lookup k with
    | none => (atHeader change rest []).map fun sub => es.put k (.table .implied sub)
    | some (.table origin sub) =>
      (atHeader change rest sub).map fun sub => es.put k (.table origin sub)
    | some (.tables earlier last) =>
      (atHeader change rest last).map fun last => es.put k (.tables earlier last)
    | some (.leaf _) => none

/-- Declares a table. -/
def declare : (path : List (List Char)) → Entries → Option Entries :=
  atHeader fun
    | none => some (.table .declared [])
    | some (.table .implied sub) => some (.table .declared sub)
    | some _ => none

/-- Declares the next table of an array. -/
def append : (path : List (List Char)) → Entries → Option Entries :=
  atHeader fun
    | none => some (.tables [] [])
    | some (.tables earlier last) => some (.tables (earlier ++ [last]) [])
    | some _ => none

end Entries

mutual

/-- The value that was constructed. -/
def Node.value : Node → Value
  | .leaf v => v
  | .table _ entries => .table (entryValues entries)
  | .tables earlier last => .array (tableValues earlier ++ [.table (entryValues last)])

/-- The values of the entries of a table. -/
def entryValues : List (List Char × Node) → List (List Char × Value)
  | [] => []
  | (key, node) :: rest => (key, node.value) :: entryValues rest

/-- Tables as values. -/
def tableValues : List (List (List Char × Node)) → List Value
  | [] => []
  | entries :: rest => .table (entryValues entries) :: tableValues rest

end

end NovelScript.Toml
