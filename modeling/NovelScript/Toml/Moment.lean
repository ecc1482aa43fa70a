/-!
# Dates and times

A document can hold a day, a time of day, or both together, and then also how far the time is from
universal time.
-/

namespace NovelScript.Toml

/-- A day of the calendar. -/
structure Day where
  year : Nat
  month : Nat
  day : Nat
  deriving DecidableEq, Repr

/-- A time of day. -/
structure Clock where
  hour : Nat
  minute : Nat
  second : Nat
  microsecond : Nat
  deriving DecidableEq, Repr

/-- A day, a time of day, or both; `offset` is in minutes ahead of universal time. -/
inductive Moment where
  | day (d : Day)
  | clock (c : Clock)
  | both (d : Day) (c : Clock) (offset : Option Int)
  deriving DecidableEq, Repr

/-- The number of days in a month. -/
def daysIn (year month : Nat) : Nat :=
  if month = 2 then
    if year % 400 = 0 || (year % 4 = 0 && year % 100 ≠ 0) then 29 else 28
  else if month = 4 || month = 6 || month = 9 || month = 11 then 30
  else 31

/-- Whether the day is in the calendar, which starts with year one. -/
def Day.isValid (d : Day) : Bool :=
  1 ≤ d.year && 1 ≤ d.month && d.month ≤ 12 && 1 ≤ d.day && d.day ≤ daysIn d.year d.month

/-- The parts of a day. -/
def Day.parts (d : Day) : List Nat := [d.year, d.month, d.day]

/-- The parts of a time of day. Seconds and microseconds are left out at the end if they are zero. -/
def Clock.parts (c : Clock) : List Nat :=
  [c.hour, c.minute] ++
    if c.microsecond ≠ 0 then [c.second, c.microsecond]
    else if c.second ≠ 0 then [c.second]
    else []

/-- An offset as messages show it. -/
def offsetText (minutes : Int) : String :=
  if minutes = 0 then "datetime.timezone.utc"
  else
    let seconds := if minutes < 0 then s!"days=-1, seconds={86400 + 60 * minutes}"
      else s!"seconds={60 * minutes}"
    s!"datetime.timezone(datetime.timedelta({seconds}))"

/-- Numbers between commas. -/
def numbersText (ns : List Nat) : String := String.intercalate ", " (ns.map toString)

/-- A day, a time or both as messages show it. -/
def Moment.text : Moment → String
  | day d => s!"datetime.date({numbersText d.parts})"
  | clock c => s!"datetime.time({numbersText c.parts})"
  | both d c none => s!"datetime.datetime({numbersText (d.parts ++ c.parts)})"
  | both d c (some minutes) =>
    s!"datetime.datetime({numbersText (d.parts ++ c.parts)}, tzinfo={offsetText minutes})"

end NovelScript.Toml
