/-!
# Options and arguments

The words of a command line are options and arguments. An option has a long name after two hyphens
and perhaps a letter after one; letters can be put together, and the value of an option is the next
word, the rest of a word of letters, or what follows an equals sign after a long name.
-/

namespace NovelScript.Command

/-- An option that a command knows. -/
structure OptionSpec (κ : Type) where
  key : κ
  long : List Char
  letter : Option Char := none
  takesValue : Bool := false

/-- What a command line says: the options with their values, in order, and the arguments. -/
structure Words (κ : Type) where
  options : List (κ × List Char) := []
  arguments : List (List Char) := []
  deriving Repr

variable {κ : Type}

namespace Words

/-- Puts an option in front. -/
def withOption (w : Words κ) (key : κ) (value : List Char := []) : Words κ :=
  { w with options := (key, value) :: w.options }

/-- The value of an option; the last one counts. -/
def value? [DecidableEq κ] (w : Words κ) (key : κ) : Option (List Char) :=
  (w.options.filter fun o => o.1 = key).getLast?.map Prod.snd

end Words

/-- What one word of letters says: the options without a value, and perhaps the option at its end
with its value, if that is in the word too. -/
structure Letters (κ : Type) where
  flags : List κ := []
  valued : Option (κ × Option (List Char)) := none

/-- Reads a word of letters, if all of them are known. -/
def readLetters (specs : List (OptionSpec κ)) : List Char → Option (Letters κ)
  | [] => some {}
  | c :: rest =>
    match specs.find? fun s => s.letter = some c with
    | none => none
    | some spec =>
      if spec.takesValue then
        some { valued := some (spec.key, if rest.isEmpty then none else some rest) }
      else (readLetters specs rest).map fun l => { l with flags := spec.key :: l.flags }

/-- Reads a word that starts with a hyphen: the options in it, and the option whose value is the
next word. -/
def readOption (specs : List (OptionSpec κ)) (word : List Char) :
    Option (List (κ × List Char) × Option κ) :=
  let name := word.takeWhile (· != '=')
  let value := if name.length < word.length then some (word.drop (name.length + 1)) else none
  match specs.find? fun s => '-' :: '-' :: s.long = name with
  | some spec =>
    match spec.takesValue, value with
    | true, some v => some ([(spec.key, v)], none)
    | true, none => some ([], some spec.key)
    | false, none => some ([(spec.key, [])], none)
    | false, some _ => none
  | none =>
    if ['-', '-'].isPrefixOf word then none
    else
      (readLetters specs (word.drop 1)).map fun l =>
        let flags := l.flags.map fun k => (k, [])
        match l.valued with
        | none => (flags, none)
        | some (k, some v) => (flags ++ [(k, v)], none)
        | some (k, none) => (flags, some k)

/-- Reads words, the first of them as the value of `pending`. After two hyphens all words are
arguments, and so are all words after the first argument unless `mixed` is set. Nothing is returned
if an option is unknown or lacks its value. -/
def readWords (specs : List (OptionSpec κ)) (mixed : Bool) :
    (pending : Option κ) → List (List Char) → Option (Words κ)
  | none, [] => some {}
  | some _, [] => none
  | some key, value :: rest =>
    (readWords specs mixed none rest).map fun w => w.withOption key value
  | none, word :: rest =>
    if word = ['-', '-'] then some { arguments := rest }
    else if word.head? = some '-' && 1 < word.length then
      match readOption specs word with
      | none => none
      | some (options, pending) =>
        (readWords specs mixed pending rest).map fun w =>
          { w with options := options ++ w.options }
    else if mixed then
      (readWords specs mixed none rest).map fun w =>
        { w with arguments := word :: w.arguments }
    else some { arguments := word :: rest }

end NovelScript.Command
