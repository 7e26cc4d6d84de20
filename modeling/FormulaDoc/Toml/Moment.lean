/-!
Dates and times of day. A moment has a standard form, which is how it is shown on its own, and a literal
form, which is how it is shown inside other values.
-/

namespace FormulaDoc.Toml

structure Date where
  year : Nat
  month : Nat
  day : Nat
  deriving DecidableEq, Inhabited

structure Clock where
  hour : Nat
  minute : Nat
  second : Nat
  micro : Nat
  deriving DecidableEq, Inhabited

/-- A date, a time of day, or both and perhaps the distance from universal time in minutes. -/
inductive Moment where
  | date (d : Date)
  | clock (c : Clock)
  | both (d : Date) (c : Clock) (zone : Option Int)
  deriving DecidableEq, Inhabited

/-- A number with zeros in front of it. -/
def padded (width n : Nat) : String :=
  String.ofList ((toString n).toList.leftpad width '0')

def Date.standard (d : Date) : String :=
  padded 4 d.year ++ "-" ++ padded 2 d.month ++ "-" ++ padded 2 d.day

def Clock.standard (c : Clock) : String :=
  padded 2 c.hour ++ ":" ++ padded 2 c.minute ++ ":" ++ padded 2 c.second ++
    if c.micro = 0 then "" else "." ++ padded 6 c.micro

def standardZone (minutes : Int) : String :=
  (if minutes < 0 then "-" else "+") ++ padded 2 (minutes.natAbs / 60) ++ ":" ++
    padded 2 (minutes.natAbs % 60)

/-- The numbers of a date in a literal. -/
def Date.numbers (d : Date) : List Nat :=
  [d.year, d.month, d.day]

/-- The numbers of a time of day in a literal; seconds and their fraction only where they are needed. -/
def Clock.numbers (c : Clock) : List Nat :=
  [c.hour, c.minute] ++
    if c.micro ≠ 0 then [c.second, c.micro] else if c.second ≠ 0 then [c.second] else []

/-- The distance from universal time in a literal. One below zero is counted up from the day before. -/
def literalZone (minutes : Int) : String :=
  if minutes = 0 then "datetime.timezone.utc"
  else
    "datetime.timezone(datetime.timedelta(" ++ (if minutes < 0 then "days=-1, " else "") ++ "seconds=" ++
      toString ((60 * minutes) % 86400) ++ "))"

namespace Moment

def standard : Moment → String
  | date d => d.standard
  | clock c => c.standard
  | both d c zone => d.standard ++ " " ++ c.standard ++ (zone.map standardZone).getD ""

def literal : Moment → String
  | date d => "datetime.date(" ++ joined d.numbers ++ ")"
  | clock c => "datetime.time(" ++ joined c.numbers ++ ")"
  | both d c zone =>
    "datetime.datetime(" ++ joined (d.numbers ++ c.numbers) ++
      (zone.map fun minutes => ", tzinfo=" ++ literalZone minutes).getD "" ++ ")"
where
  joined (ns : List Nat) : String := ", ".intercalate (ns.map toString)

end Moment

end FormulaDoc.Toml
