import NovelScript.Toml.Value

/-!
# Keys, strings, numbers and dates of TOML

Each rule reads something at the start of a text and returns it together with the rest, or nothing
if the text is malformed. Whatever may hold an integer has a second reason to be refused. Line
breaks are line feeds.
-/

namespace NovelScript.Toml

/-- A rule of the grammar. -/
abbrev Rule (α : Type) := List Char → Option (α × List Char)

/-- Why a text is no document. -/
inductive Refusal where
  | malformed
  /-- A decimal integer has too many digits. -/
  | longInteger
  deriving DecidableEq, Repr

/-- What a rule reads; the text is malformed if it reads nothing. -/
def required {α : Type} : Option α → Except Refusal α
  | some a => .ok a
  | none => .error .malformed

/-- The white space within a line. -/
def isSpace (c : Char) : Bool := c == ' ' || c == '\t'

/-- The white space between the items of an array. -/
def isSpaceOrBreak (c : Char) : Bool := isSpace c || c == '\n'

/-- The text without leading white space. -/
def skipSpace (cs : List Char) : List Char := cs.dropWhile isSpace

/-- The characters that no string or comment of one line may hold. -/
def isControl (c : Char) : Bool := (c.toNat < 0x20 && c != '\t') || c.toNat == 0x7F

/-! ### Strings -/

/-- The value of a hexadecimal digit. -/
def hexValue? (c : Char) : Option Nat :=
  if '0' ≤ c && c ≤ '9' then some (c.toNat - 0x30)
  else if 'a' ≤ c && c ≤ 'f' then some (c.toNat - 0x57)
  else if 'A' ≤ c && c ≤ 'F' then some (c.toNat - 0x37)
  else none

/-- The number that hexadecimal digits write. -/
def hexNumber? (cs : List Char) : Option Nat :=
  cs.foldlM (fun n c => (hexValue? c).map (16 * n + ·)) 0

/-- The character given by the next `n` hexadecimal digits. -/
def hexChar? (n : Nat) (cs : List Char) : Option Char := do
  let digits := cs.take n
  let code ← if digits.length = n then hexNumber? digits else none
  if code.isValidChar then some (Char.ofNat code) else none

/-- The character of an escape, and how many characters after the backslash write it. -/
def escape? : List Char → Option (Char × Nat)
  | 'b' :: _ => some ('\x08', 1)
  | 't' :: _ => some ('\t', 1)
  | 'n' :: _ => some ('\n', 1)
  | 'f' :: _ => some ('\x0c', 1)
  | 'r' :: _ => some ('\r', 1)
  | '"' :: _ => some ('"', 1)
  | '\\' :: _ => some ('\\', 1)
  | 'u' :: cs => (hexChar? 4 cs).map (·, 5)
  | 'U' :: cs => (hexChar? 8 cs).map (·, 9)
  | _ => none

/-- How many characters after a backslash at the end of a line do not count: the line break and all
white space around it. -/
def continuation? (cs : List Char) : Option Nat :=
  let blank := cs.takeWhile isSpace
  match cs.drop blank.length with
  | '\n' :: rest => some (blank.length + 1 + (rest.takeWhile isSpaceOrBreak).length)
  | _ => none

/-- Reads the rest of a string with escapes, up to its closing marks. A string of several lines is
closed by three marks. -/
def basicBody (multiline : Bool) (cs : List Char) : Option (List Char × List Char) :=
  match cs with
  | [] => none
  | c :: rest =>
    if c = '"' then
      if !multiline then some ([], rest)
      else if ['"', '"'].isPrefixOf rest then some ([], rest.drop 2)
      else (basicBody multiline rest).map fun (s, r) => (c :: s, r)
    else if c = '\\' then
      if multiline && rest.head?.any isSpaceOrBreak then
        match continuation? rest with
        | none => none
        | some n => basicBody multiline (rest.drop n)
      else
        match escape? rest with
        | none => none
        | some (e, n) => (basicBody multiline (rest.drop n)).map fun (s, r) => (e :: s, r)
    else if isControl c && !(multiline && c = '\n') then none
    else (basicBody multiline rest).map fun (s, r) => (c :: s, r)
termination_by cs.length

/-- Reads the rest of a string without escapes, up to its closing marks. -/
def literalBody (multiline : Bool) : List Char → Option (List Char × List Char)
  | [] => none
  | c :: rest =>
    if c = '\'' && (!multiline || ['\'', '\''].isPrefixOf rest) then
      some ([], if multiline then rest.drop 2 else rest)
    else if isControl c && !(multiline && c = '\n') then none
    else (literalBody multiline rest).map fun (s, r) => (c :: s, r)

/-- Reads a string of one line. -/
def shortString : Rule (List Char)
  | '"' :: cs => basicBody false cs
  | '\'' :: cs => literalBody false cs
  | _ => none

/-- Reads a string of several lines. A line break right after the opening marks does not count, and
up to two marks right before the closing ones belong to the string. -/
def longString (mark : Char) (cs : List Char) : Option (List Char × List Char) := do
  let cs := if cs.head? = some '\n' then cs.drop 1 else cs
  let (s, rest) ← if mark = '"' then basicBody true cs else literalBody true cs
  let extra := (rest.take 2).takeWhile (· == mark)
  return (s ++ extra, rest.drop extra.length)

/-- Reads a string. -/
def string (cs : List Char) : Option (List Char × List Char) :=
  match cs with
  | '"' :: '"' :: '"' :: rest => longString '"' rest
  | '\'' :: '\'' :: '\'' :: rest => longString '\'' rest
  | _ => shortString cs

/-! ### Keys -/

/-- The characters of a key without quotation marks. -/
def isBareKeyChar (c : Char) : Bool := c.isAlphanum || c == '-' || c == '_'

/-- Reads one part of a key. -/
def keyPart (cs : List Char) : Option (List Char × List Char) :=
  let bare := cs.takeWhile isBareKeyChar
  if bare.isEmpty then shortString cs else some (bare, cs.drop bare.length)

/-- Reads at most `n` parts of a key, with dots between them. -/
def keyParts : (n : Nat) → Rule (List (List Char))
  | 0, _ => none
  | n + 1, cs => do
    let (part, rest) ← keyPart cs
    match skipSpace rest with
    | '.' :: rest =>
      let (parts, rest) ← keyParts n (skipSpace rest)
      return (part :: parts, rest)
    | rest => return ([part], rest)

/-- Reads a key and the white space after it. -/
def key (cs : List Char) : Option (List (List Char) × List Char) := keyParts cs.length cs

/-! ### Numbers -/

/-- Reads digits with single underscores before them; returns the digits. -/
def moreDigits (isDigit : Char → Bool) : List Char → List Char × List Char
  | [] => ([], [])
  | [c] => if isDigit c then ([c], []) else ([], [c])
  | c :: d :: rest =>
    if isDigit c then
      let (ds, r) := moreDigits isDigit (d :: rest)
      (c :: ds, r)
    else if c = '_' && isDigit d then moreDigits isDigit (d :: rest)
    else ([], c :: d :: rest)

/-- Reads digits with single underscores between them; returns the digits. -/
def digits (isDigit : Char → Bool) (cs : List Char) : List Char × List Char :=
  if cs.head?.any isDigit then moreDigits isDigit cs else ([], cs)

/-- The number that digits of the given base write. -/
def numberOf (base : Nat) (ds : List Char) : Nat :=
  ds.foldl (fun n c => base * n + (hexValue? c).getD 0) 0

/-- The digits of a base that is given by its letter. -/
def radix? : Char → Option (Nat × (Char → Bool))
  | 'x' => some (16, fun c => (hexValue? c).isSome)
  | 'o' => some (8, fun c => '0' ≤ c && c ≤ '7')
  | 'b' => some (2, fun c => c = '0' || c = '1')
  | _ => none

/-- Reads a number with the letter of its base after a zero. -/
def radixInteger : Rule Value
  | '0' :: letter :: cs => do
    let (base, isDigit) ← radix? letter
    let (ds, rest) := digits isDigit cs
    if ds.isEmpty then none else some (.integer (numberOf base ds), rest)
  | _ => none

/-- Reads the digits before the point; only zero itself starts with a zero. -/
def wholeDigits : Rule (List Char)
  | '0' :: rest => some (['0'], rest)
  | cs =>
    let (ds, rest) := digits Char.isDigit cs
    if ds.isEmpty then none else some (ds, rest)

/-- Reads a point and the digits after it. -/
def fractionDigits (cs : List Char) : Option (List Char × List Char) :=
  match cs with
  | '.' :: rest =>
    let (ds, r) := digits Char.isDigit rest
    if ds.isEmpty then none else some (ds, r)
  | _ => none

/-- Reads the power of ten of a number. -/
def power (cs : List Char) : Option (Int × List Char) :=
  match cs with
  | e :: rest =>
    if e = 'e' || e = 'E' then
      let signed := rest.head? = some '+' || rest.head? = some '-'
      let (ds, r) := digits Char.isDigit (if signed then rest.drop 1 else rest)
      let n : Int := numberOf 10 ds
      if ds.isEmpty then none else some (if rest.head? = some '-' then -n else n, r)
    else none
  | [] => none

/-- The floating-point number nearest to a decimal with the given digits and power of ten. Powers
far beyond the range of such numbers are cut off. -/
def nearest (ds : List Char) (power : Int) : Float :=
  let ds := ds.dropWhile (· == '0')
  let top := ds.length + power
  if ds.isEmpty || top < -400 then 0.0
  else if 400 < top then 1.0 / 0.0
  else Float.ofScientific (numberOf 10 ds) (power < 0) power.natAbs

/-- Reads a decimal number, which is an integer unless it has a point or a power of ten. -/
def decimal (cs : List Char) : Option (Value × List Char) := do
  let signed := cs.head? = some '+' || cs.head? = some '-'
  let negative := cs.head? = some '-'
  let (whole, rest) ← wholeDigits (if signed then cs.drop 1 else cs)
  let fraction := fractionDigits rest
  let rest := (fraction.map Prod.snd).getD rest
  let exponent := power rest
  let rest := (exponent.map Prod.snd).getD rest
  if fraction.isNone && exponent.isNone then
    let n : Int := numberOf 10 whole
    return (.integer (if negative then -n else n), rest)
  else
    let places := (fraction.map Prod.fst).getD []
    let shift := (exponent.map Prod.fst).getD 0 - places.length
    let x := nearest (whole ++ places) shift
    return (.float (if negative then -x else x), rest)

/-- Reads an infinity, or the value that is no number. -/
def specialFloat (cs : List Char) : Option (Value × List Char) :=
  let signed := cs.head? = some '+' || cs.head? = some '-'
  let body := if signed then cs.drop 1 else cs
  if "inf".toList.isPrefixOf body then
    some (.float (if cs.head? = some '-' then -1.0 / 0.0 else 1.0 / 0.0), body.drop 3)
  else if "nan".toList.isPrefixOf body then some (.float (0.0 / 0.0), body.drop 3)
  else none

/-- Reads a number. Only decimal integers are limited in length, and since none of them starts with
a zero too many, the limit is one of their value. -/
def number (cs : List Char) : Except Refusal (Value × List Char) :=
  match radixInteger cs with
  | some result => .ok result
  | none =>
    match decimal cs with
    | some (.integer n, rest) =>
      if Numeral.isShort n then .ok (.integer n, rest) else .error .longInteger
    | some result => .ok result
    | none => required (specialFloat cs)

/-! ### Dates and times -/

/-- Reads a number of `width` digits that is at most `top`. -/
def fixedNumber (width top : Nat) (cs : List Char) : Option (Nat × List Char) :=
  let ds := cs.take width
  let n := numberOf 10 ds
  if ds.length = width && ds.all Char.isDigit && n ≤ top then some (n, cs.drop width) else none

/-- Reads a character. -/
def sign? (c : Char) (cs : List Char) : Option (List Char) :=
  if cs.head? = some c then some (cs.drop 1) else none

/-- Reads a day. -/
def day (cs : List Char) : Option (Day × List Char) := do
  let (year, cs) ← fixedNumber 4 9999 cs
  let (month, cs) ← fixedNumber 2 12 (← sign? '-' cs)
  let (day, cs) ← fixedNumber 2 31 (← sign? '-' cs)
  let d : Day := ⟨year, month, day⟩
  if d.isValid then some (d, cs) else none

/-- Reads a point and digits as microseconds. Digits after the sixth do not count. -/
def microseconds (cs : List Char) : Nat × List Char :=
  match cs with
  | '.' :: rest =>
    let ds := rest.takeWhile Char.isDigit
    if ds.isEmpty then (0, cs)
    else (numberOf 10 ((ds ++ List.replicate 6 '0').take 6), rest.drop ds.length)
  | _ => (0, cs)

/-- Reads a time of day. -/
def clock (cs : List Char) : Option (Clock × List Char) := do
  let (hour, cs) ← fixedNumber 2 23 cs
  let (minute, cs) ← fixedNumber 2 59 (← sign? ':' cs)
  let (second, cs) ← fixedNumber 2 59 (← sign? ':' cs)
  let (micro, cs) := microseconds cs
  return (⟨hour, minute, second, micro⟩, cs)

/-- Reads how far a time is from universal time, in minutes. -/
def zone (cs : List Char) : Option (Int × List Char) :=
  match cs with
  | c :: rest =>
    if c = 'Z' || c = 'z' then some (0, rest)
    else if c = '+' || c = '-' then do
      let (hours, rest) ← fixedNumber 2 23 rest
      let (minutes, rest) ← fixedNumber 2 59 (← sign? ':' rest)
      let n : Int := 60 * hours + minutes
      return (if c = '-' then -n else n, rest)
    else none
  | [] => none

/-- Reads the letter or the space between a day and a time, and the time. -/
def clockAfterDay : List Char → Option (Clock × List Char)
  | c :: rest => if c = 'T' || c = 't' || c = ' ' then clock rest else none
  | [] => none

/-- Reads a day, a time of day, or both. -/
def moment (cs : List Char) : Option (Moment × List Char) :=
  match day cs with
  | some (d, rest) =>
    match clockAfterDay rest with
    | none => some (.day d, rest)
    | some (c, rest) =>
      match zone rest with
      | none => some (.both d c none, rest)
      | some (minutes, rest) => some (.both d c (some minutes), rest)
  | none => (clock cs).map fun (c, rest) => (.clock c, rest)

/-- Reads a truth value. -/
def boolean (cs : List Char) : Option (Value × List Char) :=
  if "true".toList.isPrefixOf cs then some (.boolean true, cs.drop 4)
  else if "false".toList.isPrefixOf cs then some (.boolean false, cs.drop 5)
  else none

/-- Reads a value that holds no other values. -/
def scalar (cs : List Char) : Except Refusal (Value × List Char) :=
  if cs.head? = some '"' || cs.head? = some '\'' then
    required ((string cs).map fun (s, rest) => (.string s, rest))
  else
    match boolean cs <|> (moment cs).map fun (m, rest) => (.moment m, rest) with
    | some result => .ok result
    | none => number cs

end NovelScript.Toml
