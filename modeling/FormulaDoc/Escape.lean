/-!
Escapes in the body of a `\text` group, where a backslash and the two braces cannot stand for
themselves.
-/

namespace FormulaDoc

/-- What follows the backslash in the written form of a backslash. -/
def backslashName : List Char := "textbackslash{}".toList

def escapeChar : Char → List Char
  | '\\' => '\\' :: backslashName
  | '{' => ['\\', '{']
  | '}' => ['\\', '}']
  | c => [c]

def escape (cs : List Char) : List Char :=
  cs.flatMap escapeChar

/-- The characters that an escaped body stands for; a backslash that begins no escape stands for
itself. -/
def unescape : List Char → List Char
  | [] => []
  | '\\' :: '{' :: rest => '{' :: unescape rest
  | '\\' :: '}' :: rest => '}' :: unescape rest
  | '\\' :: rest =>
    if backslashName.isPrefixOf rest then '\\' :: unescape (rest.drop backslashName.length)
    else '\\' :: unescape rest
  | c :: rest => c :: unescape rest
termination_by cs => cs.length

end FormulaDoc
