import FormulaDoc.Parse
import FormulaDoc.Text.Integer

/-!
Fresh ids. A source gives candidates one after the other; minting takes the first of the next sixteen
that is not empty and not taken. A source keeps its place when minting gives up.
-/

namespace FormulaDoc

/-- Why a source gives no candidate: it has none, its numbers are too long to be written, or each
candidate would have a negative number of bytes, more than there is memory for, or more than can be
counted. -/
inductive SourceFault where
  | noCandidates
  | longNumber
  | negativeSize
  | noMemory
  | uncountable
  deriving DecidableEq

/-- Why an edit has no result. -/
inductive EditError where
  | noFreshId
  | sourceFailed (fault : SourceFault)
  | duplicate (e : DuplicateId)
  | unreadable (e : ParseError)
  deriving DecidableEq

/-- How many candidates are tried for one id. -/
def maxAttempts : Nat := 16

def SourceFault.message : SourceFault → String
  | noCandidates => "There are no ids to draw"
  | longNumber => "The number of an id is too long"
  | negativeSize => "An id cannot have a negative size"
  | noMemory => "An id of this size does not fit into memory"
  | uncountable => "The size of an id is too large"

def EditError.message : EditError → String
  | noFreshId => "No fresh id after " ++ toString maxAttempts ++ " attempts"
  | sourceFailed fault => fault.message
  | duplicate e => e.message
  | unreadable e => e.message

/-- An endless sequence of candidates and the number already drawn. A candidate may be impossible
to produce. -/
structure IdSource where
  candidate : Nat → Except SourceFault String
  drawn : Nat

namespace IdSource

/-- A stem followed by the numbers from `first` on. -/
def counting (stem : String) (first : Int) : IdSource :=
  ⟨fun i =>
    match showInteger? (first + i) with
    | some number => .ok (stem ++ number)
    | none => .error .longNumber, 0⟩

/-- The given ids, the last of them over and over. -/
def listed (ids : List String) : IdSource :=
  ⟨fun i =>
    match if i < ids.length then ids[i]? else ids.getLast? with
    | some id => .ok id
    | none => .error .noCandidates, 0⟩

/-- The most bytes for which there may be memory. -/
def memorySize : Nat := 0xFFFFFFFFF

/-- The most bytes that can be counted, both below zero and above it. -/
def countableSize : Nat := 0x7FFFFFFFFFFFFFDE

/-- Why there are no ids of a size in bytes, if there are none. -/
def sizeFault? (bytes : Int) : Option SourceFault :=
  if (countableSize : Int) < bytes ∨ bytes < -(countableSize : Int) - 34 then some .uncountable
  else if bytes < 0 then some .negativeSize
  else if (memorySize : Int) < bytes then some .noMemory
  else none

/-- The last `width` hexadecimal digits of a number, filled up with zeros. -/
def hexText (width n : Nat) : String :=
  let digits := Nat.toDigits 16 n
  "".pushn '0' (width - digits.length) ++ String.ofList (digits.drop (digits.length - width))

/-- Ids of two hexadecimal digits a byte, counted on from a seed. -/
def hex (bytes : Int) (seed : Nat) : IdSource :=
  ⟨fun i =>
    match sizeFault? bytes with
    | some fault => .error fault
    | none => .ok (hexText (2 * bytes.toNat) (seed + i)), 0⟩

end IdSource

/-- A source of candidates and the ids that are taken. -/
structure Minter where
  taken : List String
  source : IdSource

/-- Edits that may draw fresh ids; the ids drawn stay drawn when an edit fails. -/
abbrev Minting := ExceptT EditError (StateM Minter)

namespace Minter

/-- The minter after the next candidate was drawn. -/
def advance (m : Minter) : Minter :=
  { m with source := { m.source with drawn := m.source.drawn + 1 } }

/-- The first usable one of the next `attempts` candidates. -/
def search : Nat → Minter → Except EditError String × Minter
  | 0, m => (.error .noFreshId, m)
  | attempts + 1, m =>
    match m.source.candidate m.source.drawn with
    | .error fault => (.error (.sourceFailed fault), m)
    | .ok id =>
      if id = "" ∨ id ∈ m.taken then m.advance.search attempts
      else (.ok id, { m.advance with taken := id :: m.taken })

end Minter

def mint : Minting String :=
  fun m => m.search maxAttempts

/-- What each of some attempts to mint an id gives, one after the other, and the minter that is left. An
attempt that fails does not keep the next one from being made. -/
def Minter.mintMany : Nat → Minter → List (Except EditError String) × Minter
  | 0, m => ([], m)
  | count + 1, m =>
    let (result, next) := mint.run m
    let (results, last) := next.mintMany count
    (result :: results, last)

/-- Starts over with the ids of a formula as the taken ones. -/
def mintBeside (f : Formula) : Minting Unit :=
  modify fun m => { m with taken := f.ids }

end FormulaDoc
