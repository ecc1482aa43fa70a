/-!
# String literals

A string literal stands between two quotation marks of one kind. A backslash takes away the
meaning of the next character: `\n` and `\t` are a line feed and a tab, any other character stands
for itself. `body?` resolves the escapes, `bodyLength?` only finds where the literal ends, and
`quote` writes a text as a literal.
-/

namespace NovelScript.Line

/-- The characters that open and close a literal. -/
def isQuote (c : Char) : Bool := c == '\'' || c == '"'

namespace Literal

/-- What an escaped character stands for. -/
def unescape (c : Char) : Char :=
  if c = 'n' then '\n' else if c = 't' then '\t' else c

/-- Reads the rest of a literal that `q` opened: its value and how many characters it takes, the
closing mark included. -/
def body? (q : Char) : List Char → Option (List Char × Nat)
  | [] => none
  | [c] => if c = q then some ([], 1) else none
  | c :: e :: rest =>
    if c = q then some ([], 1)
    else if c = '\\' then (body? q rest).map fun (v, n) => (unescape e :: v, n + 2)
    else (body? q (e :: rest)).map fun (v, n) => (c :: v, n + 1)

/-- How many characters the rest of a literal takes that `q` opened, the closing mark included. -/
def bodyLength? (q : Char) : List Char → Option Nat
  | [] => none
  | ['\\'] => none
  | '\\' :: _ :: cs => (bodyLength? q cs).map (· + 2)
  | c :: cs => if c = q then some 1 else (bodyLength? q cs).map (· + 1)

/-- Replaces every occurrence of `old`, from left to right, by `new`. An empty `old` occurs before
every character and at the end. -/
def replace (old new : List Char) (cs : List Char) : List Char :=
  go cs.length cs
where
  go : Nat → List Char → List Char
    | 0, rest => if old.isEmpty then new ++ rest else rest
    | _ + 1, [] => if old.isEmpty then new else []
    | k + 1, c :: rest =>
      if old.isEmpty then new ++ c :: go k rest
      else if old.isPrefixOf (c :: rest) then new ++ go k ((c :: rest).drop old.length)
      else c :: go k rest

/-- Writes a text as a literal between two marks. The backslash is escaped first, then the mark,
then line feeds and tabs. -/
def quote (mark value : List Char) : List Char :=
  let escaped := replace ['\\'] ['\\', '\\'] value
  let escaped := replace mark ('\\' :: mark) escaped
  let escaped := replace ['\n'] ['\\', 'n'] escaped
  let escaped := replace ['\t'] ['\\', 't'] escaped
  mark ++ escaped ++ mark

end Literal

end NovelScript.Line
