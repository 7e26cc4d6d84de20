/-!
Floating point numbers in decimal: their integer part, and the fewest digits that read back as the
same number. Both are computed exactly, from the significand and the exponent of the number.
-/

namespace FormulaDoc

def twoTo (n : Nat) : Nat := Nat.pow 2 n

def tenTo (n : Nat) : Nat := Nat.pow 10 n

/-- The finite number `significand * 2 ^ (exponent - 1074)`, with a sign. -/
structure Binary where
  negative : Bool
  significand : Nat
  exponent : Nat

def Binary.ofFloat? (x : Float) : Option Binary :=
  let bits := x.toBits.toNat
  let negative := bits / twoTo 63 == 1
  let fraction := bits % twoTo 52
  match bits / twoTo 52 % twoTo 11 with
  | 0 => some ⟨negative, fraction, 0⟩
  | 2047 => none
  | e + 1 => some ⟨negative, twoTo 52 + fraction, e⟩

namespace Binary

/-- The number rounded towards zero. -/
def truncate (b : Binary) : Int :=
  let n : Nat := b.significand * twoTo b.exponent / twoTo 1074
  if b.negative then -(n : Int) else n

/-- Whether `digits * 10 ^ (scale - 400)` reads back as the number: it lies between the middles to the
two neighbours, and on one of them only if the significand is even. All sides are in quarters of a
unit. -/
def readsBack (b : Binary) (digits scale : Nat) : Bool :=
  let unit := tenTo 400 * twoTo b.exponent
  let value := 4 * digits * tenTo scale * twoTo 1074
  let low := (4 * b.significand - if b.significand = twoTo 52 ∧ 0 < b.exponent then 1 else 2) * unit
  let high := (4 * b.significand + 2) * unit
  if b.significand % 2 = 0 then low ≤ value && value ≤ high else low < value && value < high

/-- The number in units of `10 ^ (scale - 400)`, rounded down, and the doubled rest of the division
with its divisor. -/
def divide (b : Binary) (scale : Nat) : Nat × Nat × Nat :=
  let num := b.significand * twoTo b.exponent * tenTo 400
  let den := twoTo 1074 * tenTo scale
  (num / den, 2 * (num % den), den)

/-- The neighbour on a decimal grid that reads back; the nearer of two. -/
def onGrid? (b : Binary) (scale : Nat) : Option Nat :=
  let (down, rest, den) := b.divide scale
  match b.readsBack down scale, b.readsBack (down + 1) scale with
  | true, true => some (if rest < den ∨ (rest = den ∧ down % 2 = 0) then down else down + 1)
  | true, false => some down
  | false, true => some (down + 1)
  | false, false => none

/-- The power of ten of the first digit, counted from `10 ^ (-400)`, found from the top down. -/
def magnitude (b : Binary) : Nat → Nat
  | 0 => 0
  | k + 1 => if 0 < (b.divide (k + 1)).1 then k + 1 else b.magnitude k

/-- The first grid of at most `left` more digits, from that of the first digit on, with a number that
reads back. -/
def firstGrid (b : Binary) : Nat → Nat → Nat × Nat
  | 0, scale => ((b.divide scale).1, scale)
  | left + 1, scale =>
    match b.onGrid? scale with
    | some digits => (digits, scale)
    | none => b.firstGrid left (scale - 1)

end Binary

/-- Digits in positional notation, or with an exponent of at least two digits where the first digit
stands for less than a ten-thousandth or for `10 ^ 16` and more. -/
def placeDigits (digits scale : Nat) : String :=
  let ds := (toString digits).toList
  let point : Int := ds.length + scale - 400
  if point ≤ -4 ∨ 16 < point then
    let power := point - 1
    let size := toString power.natAbs
    String.ofList (ds.take 1 ++ (if ds.length = 1 then [] else '.' :: ds.drop 1)) ++
      (if power < 0 then "e-" else "e+") ++ (if size.length < 2 then "0" ++ size else size)
  else if point ≤ 0 then
    "0." ++ String.ofList (List.replicate point.natAbs '0' ++ ds)
  else
    let whole := ds.take point.toNat
    let fraction := ds.drop point.toNat
    String.ofList (whole ++ List.replicate (point.toNat - whole.length) '0') ++ "." ++
      (if fraction.isEmpty then "0" else String.ofList fraction)

/-- Digits without zeros at the end, which move the scale. -/
def dropZeros : Nat → Nat → Nat → Nat × Nat
  | 0, digits, scale => (digits, scale)
  | bound + 1, digits, scale =>
    if digits % 10 = 0 ∧ 0 < digits then dropZeros bound (digits / 10) (scale + 1)
    else (digits, scale)

/-- A floating point number with the fewest digits that read back. -/
def showFloat (x : Float) : String :=
  match Binary.ofFloat? x with
  | none => if x.isNaN then "nan" else if x < 0 then "-inf" else "inf"
  | some b =>
    (if b.negative then "-" else "") ++
      if b.significand = 0 then "0.0"
      else
        let (digits, scale) := b.firstGrid 17 (b.magnitude 709)
        let (digits, scale) := dropZeros 20 digits scale
        placeDigits digits scale

end FormulaDoc
