import FormulaDoc.Escape
import FormulaDoc.Lexeme
import FormulaDoc.Node
import FormulaDoc.Text.Blank

/-!
Markup read as nodes. `readSequence` is the only recursive reader: it reads siblings up to a stop,
and hands itself, with a smaller bound, to the readers of one item. The bound is a number of
characters that the text does not exceed, so it is never what ends a sequence. Nodes are read without
ids, except those that a `\cssId` names.
-/

namespace FormulaDoc

/-- Where a run of siblings ends: at the end of the text, at a character, at the end of an
environment, or at the end of a cell. -/
inductive Stop where
  | never | brace | bracket | dollar | aligned | cell
  deriving DecidableEq

def Stop.holds : Stop → List Char → Bool
  | .never, _ => false
  | .brace, s => s.head? == some '}'
  | .bracket, s => s.head? == some ']'
  | .dollar, s => s.head? == some '$'
  | .aligned, s => s.head? == some '}' || startsCommand "\\end" s
  | .cell, s =>
    s.head? == some '}' || s.head? == some '&' || startsCommand "\\\\" s || startsCommand "\\end" s

/-- What a command does; `leaf` is any command that stands for itself. -/
inductive Command where
  | newLine | spacing | operator | tag | frac | sqrt | text | textColor | frameBox
  | brace (above : Bool)
  | cancel | environment | stray | leaf
  deriving DecidableEq

def spacingCommands : List String :=
  ["\\,", "\\;", "\\:", "\\!", "\\ ", "\\quad", "\\qquad", "\\enspace", "\\thinspace"]

def bigOperators : List String :=
  ["\\sum", "\\prod", "\\coprod", "\\int", "\\iint", "\\iiint", "\\oint", "\\bigcup", "\\bigcap",
    "\\bigoplus", "\\bigotimes"]

def Command.ofName (name : String) : Command :=
  if name = "\\\\" then .newLine
  else if name ∈ spacingCommands then .spacing
  else if name ∈ bigOperators then .operator
  else match name with
    | "\\cssId" => .tag
    | "\\frac" => .frac
    | "\\sqrt" => .sqrt
    | "\\text" => .text
    | "\\textcolor" => .textColor
    | "\\fcolorbox" => .frameBox
    | "\\overbrace" => .brace true
    | "\\underbrace" => .brace false
    | "\\cancel" => .cancel
    | "\\begin" => .environment
    | "\\end" | "\\limits" => .stray
    | _ => .leaf

/-- The node that fills a slot: a single item itself, anything else as a group. -/
def collapse : List Node → Node
  | [n] => n
  | items => .group "" items

/-- A reader of the siblings up to a stop. -/
abbrev Nested := Stop → List Char → Except Fault (List Node × List Char)

/-- Siblings up to a closing delimiter, which is taken too. -/
def readClosed (nested : Nested) (stop : Stop) (close : Char) (s : List Char) :
    Except Fault (List Node × List Char) := do
  let (items, s) ← nested stop s
  let s ← expect close s
  .ok (items, s)

def readBraced (nested : Nested) (s : List Char) : Except Fault (List Node × List Char) := do
  let s ← expect '{' s
  readClosed nested .brace '}' s

def readArgument (nested : Nested) (s : List Char) : Except Fault (Node × List Char) := do
  let (items, s) ← readBraced nested s
  .ok (collapse items, s)

/-- A verbatim group without the blanks at its ends. -/
def readName (s : List Char) : Except Fault (String × List Char) := do
  let (raw, s) ← rawGroup s
  .ok (String.ofList (trim raw), s)

/-- The end of an environment of the given name. -/
def readEnd (name : String) (s : List Char) : Except Fault (List Char) := do
  let s := skipGap s
  if startsCommand "\\end" s then
    let (found, s) ← readName (s.drop 4)
    if found = name then .ok s else failAt s (.mismatchedEnd name found)
  else failAt s (.expectedEnd name)

/-- A cell in front of the first row. -/
def consCell (n : Node) : List (List Node) → List (List Node)
  | row :: rows => (n :: row) :: rows
  | [] => [[n]]

/-- The rest of an array, from the beginning of a cell up to its end command; `started` says that a
cell came before. An array that ends before anything was read has no rows. Every step takes at least
one character, so the bound is the length of the text. -/
def readRows (nested : Nested) : Nat → Bool → List Char → Except Fault (List (List Node) × List Char)
  | 0, _, s => failAt s .unterminatedArray
  | bound + 1, started, s => do
    let (items, s) ← nested .cell s
    if s.head? = some '&' then
      let (rows, s) ← readRows nested bound true (s.drop 1)
      .ok (consCell (collapse items) rows, s)
    else if startsCommand "\\\\" s then
      let (rows, s) ← readRows nested bound true (s.drop 2)
      .ok ([collapse items] :: rows, s)
    else if startsCommand "\\end" s then
      .ok (if started || !items.isEmpty then [[collapse items]] else [], s)
    else failAt s .unterminatedArray

/-- What a command that begins `left` characters before the end of the text stands for. -/
def readCommand (nested : Nested) (name : String) (left : Nat) (s : List Char) :
    Except Fault (Node × List Char) :=
  match Command.ofName name with
  | .newLine => .ok (.newLine, s)
  | .spacing => .ok (.space "" name, s)
  | .operator =>
    let after := skipGap s
    if startsCommand "\\limits" after then .ok (.op "" name true, after.drop 7)
    else .ok (.op "" name false, s)
  | .tag => do
    let (id, s) ← readName s
    let (items, s) ← readBraced nested s
    match items with
    | [n] => if n.id?.isSome then .ok (n.withId id, s) else .error ⟨.badTag, left⟩
    | _ => .error ⟨.badTag, left⟩
  | .frac => do
    let (numerator, s) ← readArgument nested s
    let (denominator, s) ← readArgument nested s
    .ok (.frac "" numerator denominator, s)
  | .sqrt =>
    match skipGap s with
    | '[' :: s => do
      let (items, s) ← readClosed nested .bracket ']' s
      let (body, s) ← readArgument nested s
      .ok (.root "" body (some (collapse items)), s)
    | s => do
      let (body, s) ← readArgument nested s
      .ok (.root "" body none, s)
  | .text => do
    let (raw, s) ← rawGroup s
    .ok (.text "" ((unescape raw).map fun c => .symbol "" (String.singleton c)), s)
  | .textColor => do
    let (c, s) ← readName s
    let (items, s) ← readBraced nested s
    .ok (.color "" c items, s)
  | .frameBox => do
    let (border, s) ← readName s
    let (background, s) ← readName s
    let s ← expect '{' s
    let s ← expect '$' s
    let (items, s) ← readClosed nested .dollar '$' s
    let s ← expect '}' s
    .ok (.box "" border (collapse items) background, s)
  | .brace above => do
    let (body, s) ← readArgument nested s
    .ok (.brace "" above body, s)
  | .cancel => do
    let (body, s) ← readArgument nested s
    .ok (.strike "" body, s)
  | .environment => do
    let (environment, s) ← readName s
    match environment with
    | "array" =>
      let (align, s) ← readName s
      let (rows, s) ← readRows nested (s.length + 1) false s
      let s ← readEnd "array" s
      .ok (.array "" rows (some align), s)
    | "aligned" =>
      let (cells, s) ← nested .aligned s
      let s ← readEnd "aligned" s
      .ok (.aligned "" cells, s)
    | _ => .error ⟨.unsupportedEnvironment environment, left⟩
  | .stray => .error ⟨.unexpectedCommand name, left⟩
  | .leaf => .ok (.symbol "" name, s)

/-- One node without scripts, from a text that does not begin with a blank. The first of the
variables that the text begins with is read before anything else. -/
def readAtom (vars : List (List Char)) (nested : Nested) (s : List Char) :
    Except Fault (Node × List Char) :=
  match vars.find? (·.isPrefixOf s) with
  | some v => .ok (.var "" (String.ofList v), s.drop v.length)
  | none =>
    match s with
    | [] => failAt [] .missingArgument
    | '{' :: rest => do
      let (items, rest) ← readClosed nested .brace '}' rest
      .ok (.group "" items, rest)
    | '&' :: rest => .ok (.alignMark, rest)
    | '\\' :: rest =>
      match command? ('\\' :: rest) with
      | some (name, after) => readCommand nested (String.ofList name) (rest.length + 1) after
      | none => failAt ('\\' :: rest) .danglingBackslash
    | c :: rest =>
      if c = '}' ∨ c = '_' ∨ c = '^' then failAt (c :: rest) (.unexpected c)
      else .ok (.symbol "" (String.singleton c), rest)

/-- The argument of a script: a braced argument, else a single node. -/
def readScript (vars : List (List Char)) (nested : Nested) (s : List Char) :
    Except Fault (Node × List Char) :=
  let s := skipGap s
  if s.head? = some '{' then readArgument nested s else readAtom vars nested s

/-- The scripts after a node, at most one of each kind in either order, and the blanks after them. -/
def readScripts (vars : List (List Char)) (nested : Nested) (s : List Char) :
    Except Fault ((Option Node × Option Node) × List Char) :=
  match skipGap s with
  | '_' :: rest => do
    let (sub, rest) ← readScript vars nested rest
    match skipGap rest with
    | '^' :: rest => do
      let (sup, rest) ← readScript vars nested rest
      .ok ((some sub, some sup), skipGap rest)
    | rest => .ok ((some sub, none), rest)
  | '^' :: rest => do
    let (sup, rest) ← readScript vars nested rest
    match skipGap rest with
    | '_' :: rest => do
      let (sub, rest) ← readScript vars nested rest
      .ok ((some sub, some sup), skipGap rest)
    | rest => .ok ((none, some sup), rest)
  | rest => .ok ((none, none), rest)

/-- A base with its scripts; braces around a base that only hold a script are dropped. -/
def attachScripts (base : Node) : Option Node → Option Node → Node
  | none, none => base
  | sub, sup =>
    match base with
    | .group _ [.script id b s p] => .script "" (.script id b s p) sub sup
    | _ => .script "" base sub sup

/-- One item of a sequence, from a text that begins with something other than a blank. -/
def readItem (vars : List (List Char)) (nested : Nested) (s : List Char) :
    Except Fault (Node × List Char) := do
  let (base, s) ← readAtom vars nested s
  let ((sub, sup), s) ← readScripts vars nested s
  .ok (attachScripts base sub sup, s)

/-- The siblings up to a stop or the end of the text, in a text of at most `bound` characters. -/
def readSequence (vars : List (List Char)) : Nat → Nested
  | 0, _, s => .ok ([], s)
  | bound + 1, stop, s =>
    let s := skipGap s
    if s.isEmpty || stop.holds s then .ok ([], s)
    else do
      let (n, s) ← readItem vars (readSequence vars bound) s
      let (ns, s) ← readSequence vars bound stop s
      .ok (n :: ns, s)

/-- The variables in the order in which they are tried: each once, the longest first. -/
def variableOrder (vars : List String) : List (List Char) :=
  (vars.eraseDups.map String.toList).mergeSort fun a b => b.length ≤ a.length

/-- The top-level nodes of a text. An empty variable is never read. -/
def readNodes (vars : List String) (text : String) : Except Fault (List Node) :=
  let s := text.toList
  let vars := (variableOrder vars).filter (!·.isEmpty)
  (readSequence vars s.length .never s).map (·.1)

end FormulaDoc
