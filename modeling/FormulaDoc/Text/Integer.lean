import FormulaDoc.Text.Blank

/-!
Integers read from text: blanks around, a sign, and decimal digits of any script, which single
underscores may part. Very long integers are neither read nor written.
-/

namespace FormulaDoc

/-- The code points of the zeros; each is followed by the digits from one to nine. -/
def zeros : List Nat := [
  0x30, 0x660, 0x6F0, 0x7C0, 0x966, 0x9E6, 0xA66, 0xAE6, 0xB66, 0xBE6, 0xC66, 0xCE6, 0xD66, 0xDE6,
  0xE50, 0xED0, 0xF20, 0x1040, 0x1090, 0x17E0, 0x1810, 0x1946, 0x19D0, 0x1A80, 0x1A90, 0x1B50,
  0x1BB0, 0x1C40, 0x1C50, 0xA620, 0xA8D0, 0xA900, 0xA9D0, 0xA9F0, 0xAA50, 0xABF0, 0xFF10, 0x104A0,
  0x10D30, 0x11066, 0x110F0, 0x11136, 0x111D0, 0x112F0, 0x11450, 0x114D0, 0x11650, 0x116C0, 0x11730,
  0x118E0, 0x11950, 0x11C50, 0x11D50, 0x11DA0, 0x16A60, 0x16AC0, 0x16B50, 0x1D7CE, 0x1D7D8, 0x1D7E2,
  0x1D7EC, 0x1D7F6, 0x1E140, 0x1E2F0, 0x1E950, 0x1FBF0]

def digitValue? (c : Char) : Option Nat :=
  (zeros.find? fun z => z ≤ c.toNat && c.toNat < z + 10).map (c.toNat - ·)

/-- The number that digits continue; an underscore stands between two digits. -/
def readDigits? (n : Nat) : List Char → Option Nat
  | [] => some n
  | '_' :: c :: rest => (digitValue? c).bind fun d => readDigits? (10 * n + d) rest
  | c :: rest => (digitValue? c).bind fun d => readDigits? (10 * n + d) rest

def readNatural? : List Char → Option Nat
  | [] => none
  | c :: rest => (digitValue? c).bind fun d => readDigits? d rest

/-- The greatest number of digits with which a decimal integer is read or written. -/
def maxDigits : Nat := 4300

/-- A blank that may stand around a number; the information separators may not. -/
def isPadding (c : Char) : Bool :=
  isBlank c && !(0x1C ≤ c.toNat && c.toNat ≤ 0x1F)

/-- The number of a text without a sign. Zeros in front count as digits. -/
def readUnsigned? (cs : List Char) : Option Nat := do
  let n ← readNatural? cs
  if (cs.filter (· != '_')).length ≤ maxDigits then some n else none

def readInteger? (s : String) : Option Int :=
  let body := (s.toList.dropWhile isPadding).reverse.dropWhile isPadding
  match body.reverse with
  | '-' :: rest => (readUnsigned? rest).map fun n => -(n : Int)
  | '+' :: rest => (readUnsigned? rest).map Int.ofNat
  | rest => (readUnsigned? rest).map Int.ofNat

/-- An integer in decimal, unless it has too many digits. -/
def showInteger? (i : Int) : Option String :=
  if (toString i.natAbs).length ≤ maxDigits then some (toString i) else none

end FormulaDoc
