import NovelScript.Toml.Scalar
import NovelScript.Toml.Table

/-!
# TOML documents

A document is a sequence of lines, each a key with its value, the header of a table, or the header
of the next table of an array. `parse` returns the table that the whole document describes, or the
reason to refuse it that is met first.
-/

namespace NovelScript.Toml

/-- Skips a comment, which may hold no control characters. -/
def skipComment (cs : List Char) : Option (List Char) :=
  match cs with
  | '#' :: rest =>
    let comment := rest.takeWhile (· != '\n')
    if comment.any isControl then none else some (rest.drop comment.length)
  | _ => some cs

/-- Skips at most `n` comments and the white space and line breaks around them. -/
def skipArraySpace : (n : Nat) → List Char → Option (List Char)
  | 0, cs => some cs
  | n + 1, cs => do
    let rest ← skipComment (cs.dropWhile isSpaceOrBreak)
    if rest.length < cs.length then skipArraySpace n rest else some rest

/-- Skips comments, white space and line breaks. -/
def skipSpread (cs : List Char) : Option (List Char) := skipArraySpace cs.length cs

mutual

/-- Reads a value that is nested at most `depth` deep. -/
def valueAt : (depth : Nat) → List Char → Except Refusal (Value × List Char)
  | 0, _ => .error .malformed
  | depth + 1, cs =>
    match cs with
    | '[' :: rest => do
      let (items, rest) ← itemsAt depth rest
      return (.array items, rest)
    | '\x7b' :: rest =>
      match skipSpace rest with
      | '\x7d' :: rest => .ok (.table [], rest)
      | rest => do
        let (entries, rest) ← fieldsAt depth [] rest
        return (.table (entryValues entries), rest)
    | cs => scalar cs

/-- Reads the items of an array up to its closing bracket. -/
def itemsAt : (depth : Nat) → List Char → Except Refusal (List Value × List Char)
  | 0, _ => .error .malformed
  | depth + 1, cs => do
    match ← required (skipSpread cs) with
    | ']' :: rest => return ([], rest)
    | cs =>
      let (v, rest) ← valueAt depth cs
      match ← required (skipSpread rest) with
      | ']' :: rest => return ([v], rest)
      | ',' :: rest =>
        let (vs, rest) ← itemsAt depth rest
        return (v :: vs, rest)
      | _ => throw .malformed

/-- Reads the entries of a table written as a value, up to its closing bracket, and adds them to
those already read. -/
def fieldsAt : (depth : Nat) → Entries → List Char → Except Refusal (Entries × List Char)
  | 0, _, _ => .error .malformed
  | depth + 1, es, cs => do
    match ← required (key cs) with
    | (path, '=' :: rest) =>
      let (v, rest) ← valueAt depth (skipSpace rest)
      let es ← required (es.insert 0 v path)
      match skipSpace rest with
      | '\x7d' :: rest => return (es, rest)
      | ',' :: rest => fieldsAt depth es (skipSpace rest)
      | _ => throw .malformed
    | _ => throw .malformed

end

/-- Reads a value. -/
def value (cs : List Char) : Except Refusal (Value × List Char) := valueAt (2 * cs.length + 2) cs

/-- What was read of a document: the root, the path of the section and its number. -/
structure Draft where
  root : Entries := []
  path : List (List Char) := []
  part : Nat := 0

/-- Reads a key and its value into the draft. -/
def Draft.assignment (d : Draft) (cs : List Char) : Except Refusal (Draft × List Char) := do
  match ← required (key cs) with
  | (path, '=' :: rest) =>
    let (v, rest) ← value (skipSpace rest)
    let root ← required (d.root.within (Entries.insert d.part v path) d.path)
    return ({ d with root }, rest)
  | _ => throw .malformed

/-- Reads the header of a table, or of the next table of an array, into the draft. -/
def Draft.header (d : Draft) (cs : List Char) : Option (Draft × List Char) :=
  match cs with
  | '[' :: rest => do
    match ← key (skipSpace rest) with
    | (path, ']' :: ']' :: rest) =>
      let root ← d.root.append path
      return (⟨root, path, d.part + 1⟩, rest)
    | _ => none
  | cs => do
    match ← key (skipSpace cs) with
    | (path, ']' :: rest) =>
      let root ← d.root.declare path
      return (⟨root, path, d.part + 1⟩, rest)
    | _ => none

/-- Reads what a line holds apart from a comment. -/
def Draft.content (d : Draft) (cs : List Char) : Except Refusal (Draft × List Char) :=
  match cs with
  | [] => .ok (d, [])
  | c :: rest =>
    if c = '[' then required (d.header rest)
    else if c = '\n' || c = '#' then .ok (d, cs)
    else d.assignment cs

/-- Reads at most `n` lines into the draft. -/
def Draft.lines : (n : Nat) → Draft → List Char → Except Refusal Draft
  | 0, _, _ => .error .malformed
  | n + 1, d, cs => do
    let (d, rest) ← d.content (skipSpace cs)
    match ← required (skipComment (skipSpace rest)) with
    | [] => return d
    | '\n' :: rest => lines n d rest
    | _ => throw .malformed

/-- The table that a document describes. Its line breaks are line feeds. -/
def parse (text : List Char) : Except Refusal (List (List Char × Value)) :=
  (Draft.lines (text.length + 1) {} text).map fun d => entryValues d.root

end NovelScript.Toml
