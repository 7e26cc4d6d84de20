import FormulaDoc.Text.Quoted

/-!
The tokens of markup: blanks between items, command names and verbatim groups. A reader takes the
rest of a text and returns what it read with what then remains; a fault records how many characters
were left where it was noticed.
-/

namespace FormulaDoc

/-- Why a text is not a formula. -/
inductive Cause where
  | expected (c : Char)
  | unexpected (c : Char)
  | unexpectedCommand (name : String)
  | danglingBackslash
  | missingArgument
  | unterminatedGroup
  | badTag
  | unsupportedEnvironment (name : String)
  | unterminatedArray
  | expectedEnd (name : String)
  | mismatchedEnd (name found : String)
  deriving DecidableEq

def Cause.message : Cause → String
  | expected c => "Expected " ++ quoted (String.singleton c)
  | unexpected c => "Unexpected " ++ quoted (String.singleton c)
  | unexpectedCommand name => "Unexpected " ++ name
  | danglingBackslash => "Dangling backslash"
  | missingArgument => "Missing script argument"
  | unterminatedGroup => "Unterminated group"
  | badTag => "\\cssId must wrap exactly one node"
  | unsupportedEnvironment name => "Unsupported environment " ++ quoted name
  | unterminatedArray => "Unterminated array"
  | expectedEnd name => "Expected \\end\x7b" ++ name ++ "\x7d"
  | mismatchedEnd name found =>
    "Expected \\end\x7b" ++ name ++ "\x7d, found \\end\x7b" ++ found ++ "\x7d"

structure Fault where
  cause : Cause
  left : Nat
  deriving DecidableEq

def failAt {α : Type} (s : List Char) (cause : Cause) : Except Fault α :=
  .error ⟨cause, s.length⟩

/-- The blanks that may stand between items. -/
def isGap (c : Char) : Bool :=
  c == ' ' || c == '\t' || c == '\r' || c == '\n'

def skipGap (s : List Char) : List Char :=
  s.dropWhile isGap

/-- A backslash with the letters after it, or with one character of any other kind. -/
def command? : List Char → Option (List Char × List Char)
  | '\\' :: c :: rest =>
    if c.isAlpha then some ('\\' :: c :: rest.takeWhile Char.isAlpha, rest.dropWhile Char.isAlpha)
    else some (['\\', c], rest)
  | _ => none

def startsCommand (name : String) (s : List Char) : Bool :=
  (command? s).any fun (cmd, _) => cmd == name.toList

def expect (c : Char) (s : List Char) : Except Fault (List Char) :=
  match skipGap s with
  | d :: rest => if d = c then .ok rest else failAt (d :: rest) (.expected c)
  | [] => failAt [] (.expected c)

/-- The text up to the brace that closes `depth` open braces and one more, and what follows that
brace; a backslash takes the character after it along. -/
def closeGroup : Nat → List Char → Option (List Char × List Char)
  | _, [] => none
  | depth, '\\' :: c :: rest =>
    (closeGroup depth rest).map fun (body, after) => ('\\' :: c :: body, after)
  | depth, '{' :: rest => (closeGroup (depth + 1) rest).map fun (body, after) => ('{' :: body, after)
  | 0, '}' :: rest => some ([], rest)
  | depth + 1, '}' :: rest => (closeGroup depth rest).map fun (body, after) => ('}' :: body, after)
  | depth, c :: rest => (closeGroup depth rest).map fun (body, after) => (c :: body, after)

/-- The verbatim content of a group, inner braces included. -/
def rawGroup (s : List Char) : Except Fault (List Char × List Char) := do
  let rest ← expect '{' s
  match closeGroup 0 rest with
  | some reading => .ok reading
  | none => failAt ('{' :: rest) .unterminatedGroup

end FormulaDoc
