import FormulaDoc.Toml.Value

/-!
The scalars of TOML: texts in four kinds of quotes, numbers, dates and times. A reader takes the rest of
a document and returns a value with what then remains, or nothing where the document breaks off or
breaks a rule.
-/

namespace FormulaDoc.Toml

def isBlank (c : Char) : Bool :=
  c == ' ' || c == '\t'

def skipBlanks (s : List Char) : List Char :=
  s.dropWhile isBlank

def skipLines (s : List Char) : List Char :=
  s.dropWhile fun c => isBlank c || c == '\n'

/-- The control characters that stand nowhere. -/
def isControl (c : Char) : Bool :=
  (c.toNat < 0x20 && c != '\t' && c != '\n') || c.toNat == 0x7F

/-- The rest of a text after something that it begins with. -/
def after? (start : String) (s : List Char) : Option (List Char) :=
  if start.toList.isPrefixOf s then some (s.drop start.length) else none

def hexValue? (c : Char) : Option Nat :=
  if c.isDigit then some (c.toNat - 48)
  else if 'a' ≤ c ∧ c ≤ 'f' then some (c.toNat - 87)
  else if 'A' ≤ c ∧ c ≤ 'F' then some (c.toNat - 55)
  else none

/-- The character whose code is written in exactly `width` hexadecimal digits. -/
def readCode (width : Nat) (s : List Char) : Option (Char × List Char) := do
  let digits := s.take width
  guard (digits.length = width)
  let n ← digits.foldlM (fun n c => (hexValue? c).map (16 * n + ·)) 0
  guard n.isValidChar
  some (Char.ofNat n, s.drop width)

/-- What follows the backslash of an escape: the characters it stands for. Where a text may span
lines, a backslash at the end of a line stands for nothing, together with the blanks after it. -/
def readEscape (lines : Bool) : List Char → Option (List Char × List Char)
  | 'b' :: rest => some (['\x08'], rest)
  | 't' :: rest => some (['\t'], rest)
  | 'n' :: rest => some (['\n'], rest)
  | 'f' :: rest => some (['\x0c'], rest)
  | 'r' :: rest => some (['\r'], rest)
  | '"' :: rest => some (['"'], rest)
  | '\\' :: rest => some (['\\'], rest)
  | 'u' :: rest => (readCode 4 rest).map fun (c, rest) => ([c], rest)
  | 'U' :: rest => (readCode 8 rest).map fun (c, rest) => ([c], rest)
  | s =>
    if lines && s.head?.any (fun c => isBlank c || c == '\n') then
      match skipBlanks s with
      | [] => some ([], [])
      | '\n' :: rest => some ([], skipLines rest)
      | _ => none
    else none

/-- The end of a text over several lines: up to two quotes more than the three that close it belong
to the text. -/
def closeLines (quote : Char) (s : List Char) : List Char × List Char :=
  let extra := ((s.take 2).takeWhile (· == quote)).length
  (List.replicate extra quote, s.drop extra)

/-- A text on one line, after the quote that opens it. The bound is the length of the document. -/
def readLine (escapes : Bool) (quote : Char) : Nat → List Char → Option (List Char × List Char)
  | bound + 1, c :: rest =>
    if c = quote then some ([], rest)
    else if escapes ∧ c = '\\' then do
      let (chars, rest) ← readEscape false rest
      let (body, rest) ← readLine escapes quote bound rest
      some (chars ++ body, rest)
    else if isControl c ∨ c = '\n' then none
    else (readLine escapes quote bound rest).map fun (body, rest) => (c :: body, rest)
  | _, _ => none

/-- A text over several lines, after the three quotes that open it. -/
def readLines (escapes : Bool) (quote : Char) : Nat → List Char → Option (List Char × List Char)
  | bound + 1, c :: rest =>
    if [quote, quote, quote].isPrefixOf (c :: rest) then some (closeLines quote (rest.drop 2))
    else if escapes ∧ c = '\\' then do
      let (chars, rest) ← readEscape true rest
      let (body, rest) ← readLines escapes quote bound rest
      some (chars ++ body, rest)
    else if isControl c then none
    else (readLines escapes quote bound rest).map fun (body, rest) => (c :: body, rest)
  | _, _ => none

/-- A text in any quotes; a line break right after three quotes is dropped. -/
def readText (s : List Char) : Option (String × List Char) := do
  let quote ← s.head?
  let escapes := quote == '"'
  guard (quote = '"' ∨ quote = '\'')
  let (body, rest) ← match after? (String.ofList [quote, quote, quote]) s with
    | some rest => readLines escapes quote s.length ((after? "\n" rest).getD rest)
    | none => readLine escapes quote s.length (s.drop 1)
  some (String.ofList body, rest)

/-- Digits, single underscores between them left out. -/
def readDigits (isDigit : Char → Bool) : List Char → List Char × List Char
  | '_' :: c :: rest =>
    if isDigit c then
      let (ds, rest) := readDigits isDigit rest
      (c :: ds, rest)
    else ([], '_' :: c :: rest)
  | c :: rest =>
    if isDigit c then
      let (ds, rest) := readDigits isDigit rest
      (c :: ds, rest)
    else ([], c :: rest)
  | [] => ([], [])

/-- At least one digit. -/
def readDigits1 (isDigit : Char → Bool) : List Char → Option (List Char × List Char)
  | c :: rest =>
    if isDigit c then
      let (ds, rest) := readDigits isDigit rest
      some (c :: ds, rest)
    else none
  | [] => none

def ofDigits (base : Nat) (ds : List Char) : Nat :=
  ds.foldl (fun n c => base * n + (hexValue? c).getD 0) 0

/-- A number, and with how many digits it is written if it is a decimal integer. -/
structure Number where
  value : Value
  digits : Nat

/-- A number in base two, eight or sixteen, after its zero. -/
def readBased : List Char → Option (Number × List Char)
  | 'x' :: rest => based 16 (fun c => (hexValue? c).isSome) rest
  | 'o' :: rest => based 8 (fun c => '0' ≤ c && c ≤ '7') rest
  | 'b' :: rest => based 2 (fun c => c == '0' || c == '1') rest
  | _ => none
where
  based (base : Nat) (isDigit : Char → Bool) (s : List Char) : Option (Number × List Char) :=
    (readDigits1 isDigit s).map fun (ds, rest) => (⟨.int (ofDigits base ds), 0⟩, rest)

def readSign : List Char → Bool × List Char
  | '-' :: rest => (true, rest)
  | '+' :: rest => (false, rest)
  | s => (false, s)

/-- The integer part of a decimal number: a single zero, or digits that begin with another one. -/
def readWhole (s : List Char) : Option (List Char × List Char) :=
  match s with
  | '0' :: rest => some (['0'], rest)
  | s => readDigits1 Char.isDigit s

/-- The digits after a point. -/
def readFraction : List Char → Option (List Char × List Char)
  | '.' :: rest => readDigits1 Char.isDigit rest
  | _ => none

/-- The power of ten after its mark. -/
def readPower : List Char → Option (Int × List Char)
  | c :: rest =>
    if c = 'e' ∨ c = 'E' then
      let (negative, rest) := readSign rest
      (readDigits1 Char.isDigit rest).map fun (ds, rest) =>
        (if negative then -(ofDigits 10 ds : Int) else ofDigits 10 ds, rest)
    else none
  | [] => none

/-- The number `digits * 10 ^ power` rounded to a floating point number. No power beyond the range of
the format matters. -/
def toFloat (digits : Nat) (power : Int) : Float :=
  let size := min power.natAbs (1000 + (toString digits).length)
  .ofScientific digits (power < 0) size

def readDecimal (s : List Char) : Option (Number × List Char) := do
  let (negative, s) := readSign s
  let (whole, s) ← readWhole s
  let fraction := readFraction s
  let s := (fraction.map Prod.snd).getD s
  let power := readPower s
  let s := (power.map Prod.snd).getD s
  let digits := (fraction.map Prod.fst).getD []
  if fraction.isNone && power.isNone then
    let n := ofDigits 10 whole
    some (⟨.int (if negative then -(n : Int) else n), whole.length⟩, s)
  else
    let x := toFloat (ofDigits 10 (whole ++ digits)) ((power.map Prod.fst).getD 0 - digits.length)
    some (⟨.float (if negative then -x else x), 0⟩, s)

/-- Infinity and what is not a number. -/
def readSpecial (s : List Char) : Option (Number × List Char) :=
  let (negative, rest) := readSign s
  let signed (x : Float) : Number := ⟨.float (if negative then -x else x), 0⟩
  ((after? "inf" rest).map fun rest => (signed (1.0 / 0.0), rest)) <|>
    (after? "nan" rest).map fun rest => (signed (0.0 / 0.0), rest)

def readNumber (s : List Char) : Option (Number × List Char) :=
  (after? "0" s).bind readBased <|> readDecimal s <|> readSpecial s

def readBool (s : List Char) : Option (Value × List Char) :=
  ((after? "true" s).map fun rest => (.bool true, rest)) <|>
    (after? "false" s).map fun rest => (.bool false, rest)

/-- A number of exactly `width` digits that is less than `bound`. -/
def readBounded (width bound : Nat) (s : List Char) : Option (Nat × List Char) := do
  let ds := s.take width
  guard (ds.length = width && ds.all Char.isDigit && ofDigits 10 ds < bound)
  some (ofDigits 10 ds, s.drop width)

def isLeap (year : Nat) : Bool :=
  year % 4 = 0 && (year % 100 ≠ 0 || year % 400 = 0)

def daysIn (year month : Nat) : Nat :=
  if month = 2 then if isLeap year then 29 else 28
  else if month ∈ [4, 6, 9, 11] then 30
  else 31

/-- A day that exists. -/
def readDate (s : List Char) : Option (Date × List Char) := do
  let (year, rest) ← readBounded 4 10000 s
  let rest ← after? "-" rest
  let (month, rest) ← readBounded 2 13 rest
  let rest ← after? "-" rest
  let (day, rest) ← readBounded 2 32 rest
  guard (0 < year && 0 < month && 0 < day && day ≤ daysIn year month)
  some (⟨year, month, day⟩, rest)

/-- The fraction of a second in millionths; further digits are dropped. -/
def readMicro : List Char → Nat × List Char
  | '.' :: rest =>
    let ds := rest.takeWhile Char.isDigit
    if ds.isEmpty then (0, '.' :: rest)
    else (ofDigits 10 (ds.take 6 ++ List.replicate (6 - ds.length) '0'), rest.dropWhile Char.isDigit)
  | s => (0, s)

/-- Hours and minutes. -/
def readHour (s : List Char) : Option ((Nat × Nat) × List Char) := do
  let (hour, rest) ← readBounded 2 24 s
  let rest ← after? ":" rest
  let (minute, rest) ← readBounded 2 60 rest
  some ((hour, minute), rest)

def readClock (s : List Char) : Option (Clock × List Char) := do
  let ((hour, minute), rest) ← readHour s
  let rest ← after? ":" rest
  let (second, rest) ← readBounded 2 60 rest
  let (micro, rest) := readMicro rest
  some (⟨hour, minute, second, micro⟩, rest)

/-- The distance from universal time, if one is given. -/
def readZone (s : List Char) : Option Int × List Char :=
  match s with
  | [] => (none, [])
  | c :: rest =>
    if c = 'Z' ∨ c = 'z' then (some 0, rest)
    else if c = '+' ∨ c = '-' then
      match readHour rest with
      | some ((hour, minute), rest) =>
        let minutes : Int := 60 * hour + minute
        (some (if c = '-' then -minutes else minutes), rest)
      | none => (none, s)
    else (none, s)

def readMoment (s : List Char) : Option (Moment × List Char) :=
  match readDate s with
  | none => (readClock s).map fun (clock, rest) => (.clock clock, rest)
  | some (date, rest) =>
    match (if rest.head?.any ['T', 't', ' '].contains then readClock (rest.drop 1) else none) with
    | none => some (.date date, rest)
    | some (clock, rest) =>
      let (zone, rest) := readZone rest
      some (.both date clock zone, rest)

end FormulaDoc.Toml
