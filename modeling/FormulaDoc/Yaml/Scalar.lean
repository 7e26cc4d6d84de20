import FormulaDoc.Text.Pattern
import FormulaDoc.Text.Quoted

/-!
Texts as YAML scalars. A text is written plain where a reader takes it back as this text, else in single
quotes, or in double quotes where it holds what only an escape can express. A scalar that runs beyond
the width of a line is folded at blanks.
-/

namespace FormulaDoc

namespace Yaml

open Pattern

private def digit : Pattern := chars "0123456789"

private def digits : Pattern := chars "0123456789_"

private def sign : Pattern := optional (chars "-+")

/-- Groups of two digits after a colon, as in a time of day. -/
private def sixties : Pattern :=
  plus (allOf [chars ":", optional (chars "012345"), digit])

private def exponent : Pattern :=
  optional (allOf [chars "eE", chars "-+", plus digit])

private def hours : Pattern := allOf [digit, optional digit]

/-- A date, or a date with a time. -/
private def timestamp : Pattern :=
  let two := allOf [digit, digit]
  let year := allOf [two, two]
  alt (allOf [year, word "-", two, word "-", two])
    (allOf [year, word "-", hours, word "-", hours,
      alt (chars "Tt") (plus (chars " \t")), hours, word ":", two, word ":", two,
      optional (allOf [word ".", star digit]),
      optional (allOf [star (chars " \t"),
        alt (word "Z") (allOf [chars "-+", hours, optional (allOf [word ":", two])])])])

/-- The plain texts that are read as something other than text. -/
def typedPattern : Pattern := anyOf [
  words ["yes", "Yes", "YES", "no", "No", "NO", "true", "True", "TRUE", "false", "False", "FALSE",
    "on", "On", "ON", "off", "Off", "OFF"],
  words ["", "~", "null", "Null", "NULL", "=", "<<"],
  allOf [sign, word "0b", plus (chars "01_")],
  allOf [sign, word "0", plus (chars "01234567_")],
  allOf [sign, alt (word "0") (allOf [chars "123456789", star digits])],
  allOf [sign, word "0x", plus (chars "0123456789abcdefABCDEF_")],
  allOf [sign, chars "123456789", star digits, sixties],
  allOf [sign, digit, star digits, word ".", star digits, exponent],
  allOf [word ".", digit, star digits, exponent],
  allOf [sign, digit, star digits, sixties, word ".", star digits],
  allOf [sign, words [".inf", ".Inf", ".INF"]],
  words [".nan", ".NaN", ".NAN"],
  timestamp]

/-- A character that only double quotes can hold. -/
def isSpecial (c : Char) : Bool :=
  let n := c.toNat
  !(n == 0x0A || (0x20 ≤ n && n ≤ 0x7E) || n == 0x85 || 0xA0 ≤ n) ||
    n == 0xFEFF || n == 0xFFFE || n == 0xFFFF || n == 0x10FFFF

/-- A character that ends a line. -/
def isBreak (c : Char) : Bool :=
  c == '\n' || c == '\x85' || c == '\u2028' || c == '\u2029'

/-- Whether the text after a mark is empty or goes on with a blank. -/
private def endsWord : List Char → Bool
  | [] => true
  | c :: _ => c == ' '

/-- Whether a text holds a colon that ends a word or a hash sign that begins one. -/
def hasMark : List Char → Bool
  | [] => false
  | ':' :: rest => endsWord rest || hasMark rest
  | ' ' :: '#' :: _ => true
  | _ :: rest => hasMark rest

/-- Whether the first characters of a text would be read as an indicator. -/
def startsMark : List Char → Bool
  | '-' :: '-' :: '-' :: _ | '.' :: '.' :: '.' :: _ => true
  | c :: rest =>
    "#,[]\x7b\x7d&*!|>'\"%@`".toList.contains c || ("-?:".toList.contains c && endsWord rest)
  | [] => true

/-- Whether a text of one line keeps its meaning without quotes. -/
def isPlain (s : String) : Bool :=
  let cs := s.toList
  !(startsMark cs || hasMark cs || cs.head? == some ' ' || cs.getLast? == some ' ' ||
    typedPattern.accepts s)

/-- Whether a blank stands next to the end of a line. -/
def hasBlankAtBreak : List Char → Bool
  | c :: d :: rest =>
    (c == ' ' && isBreak d) || (isBreak c && d == ' ') || hasBlankAtBreak (d :: rest)
  | _ => false

/-- The width that a line may reach before it is folded. -/
def lineWidth : Nat := 80

/-- A text in the making, and the column that it has reached. -/
structure Pen where
  text : String
  column : Nat

namespace Pen

def write (pen : Pen) (cs : List Char) : Pen :=
  ⟨pen.text ++ String.ofList cs, pen.column + cs.length⟩

/-- Goes on at a column after the given ends of lines. -/
def lineTo (pen : Pen) (breaks : List Char) (indent : Nat) : Pen :=
  ⟨pen.text ++ String.ofList (breaks ++ List.replicate indent ' '), indent⟩

/-- Writes a blank, or ends a line that is too long in its place. -/
def blank (pen : Pen) (indent : Nat) : Pen :=
  if lineWidth < pen.column then pen.lineTo ['\n'] indent else pen.write [' ']

end Pen

/-- The longest pieces of a text that are all blanks, all ends of lines, or neither. -/
def pieces (cs : List Char) : List (List Char) :=
  cs.splitBy fun c d => (c == ' ') == (d == ' ') && isBreak c == isBreak d

/-- A text without quotes, its single blanks being places to fold it. -/
def writePlain (indent : Nat) (pen : Pen) (cs : List Char) : Pen :=
  (pieces cs).foldl
    (fun pen piece => if piece = [' '] then pen.blank indent else pen.write piece) pen

/-- The pieces of a text between single quotes. Its own quotes are doubled, and one more line is ended
where the text ends some; it is folded only inside. -/
def writeQuoted (indent : Nat) (pen : Pen) (inside : Bool) : List (List Char) → Pen
  | [] => pen
  | piece :: rest =>
    let pen :=
      if piece = [' '] ∧ inside ∧ !rest.isEmpty then pen.blank indent
      else if piece.any isBreak then
        pen.lineTo (if piece.head? = some '\n' then '\n' :: piece else piece) indent
      else pen.write (piece.flatMap fun c => if c = '\'' then ['\'', '\''] else [c])
    writeQuoted indent pen true rest

private def escapeNames : List (Char × Char) :=
  [('\x00', '0'), ('\x07', 'a'), ('\x08', 'b'), ('\t', 't'), ('\n', 'n'), ('\x0b', 'v'),
    ('\x0c', 'f'), ('\r', 'r'), ('\x1b', 'e'), ('"', '"'), ('\\', '\\'), ('\x85', 'N'),
    ('\u2028', 'L'), ('\u2029', 'P')]

/-- The escape of a character that does not stand for itself in double quotes: a name, or its code in
upper case. -/
def escape? (c : Char) : Option (List Char) :=
  let n := c.toNat
  let code (mark : Char) (width : Nat) := '\\' :: mark :: (hexDigits width n).map Char.toUpper
  match escapeNames.lookup c with
  | some name => some ['\\', name]
  | none =>
    if (0x20 ≤ n && n ≤ 0x7E) || (0xA0 ≤ n && n ≤ 0xFFFD && n != 0xFEFF) then none
    else if n ≤ 0xFF then some (code 'x' 2)
    else if n ≤ 0xFFFF then some (code 'u' 4)
    else some (code 'U' 8)

/-- Ends a line inside double quotes; a blank that comes next is protected. -/
def foldEscaped (indent : Nat) (pen : Pen) (next : Option Char) : Pen :=
  let pen := (pen.write ['\\']).lineTo ['\n'] indent
  if next = some ' ' then pen.write ['\\'] else pen

/-- A text between double quotes. It is folded at blanks and at escapes, but not before its first or its
last character; `atEscape` says that an escape or the beginning of a line comes before. -/
def writeEscaped (indent : Nat) (pen : Pen) (inside atEscape : Bool) : List Char → Pen
  | [] => pen
  | c :: rest =>
    let mayFold := inside && !rest.isEmpty
    match escape? c with
    | some code =>
      let pen := pen.write code
      let pen :=
        if mayFold && lineWidth < pen.column - 1 then foldEscaped indent pen rest.head? else pen
      writeEscaped indent pen true true rest
    | none =>
      let pen :=
        if mayFold && (c == ' ' || atEscape) && lineWidth < pen.column then
          foldEscaped indent pen (some c)
        else pen
      writeEscaped indent (pen.write [c]) true false rest

/-- A text as a scalar that begins at a column; lines after the first are indented. -/
def scalar (column indent : Nat) (s : String) : String :=
  let cs := s.toList
  let pen : Pen := ⟨"", column⟩
  if cs.any isSpecial || hasBlankAtBreak cs then
    ((writeEscaped indent (pen.write ['"']) false false cs).write ['"']).text
  else if cs.any isBreak || !isPlain s then
    ((writeQuoted indent (pen.write ['\'']) false (pieces cs)).write ['\'']).text
  else (writePlain indent pen cs).text

end Yaml

end FormulaDoc
