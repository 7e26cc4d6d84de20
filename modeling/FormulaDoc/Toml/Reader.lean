import FormulaDoc.Toml.Scalar

/-!
TOML documents. A document is a list of statements: a header opens a table or adds one to an array of
tables, and an entry stores a value under a key, whose dotted form reaches into inner tables. What a
header opened or an entry closed may not be opened again.
-/

namespace FormulaDoc.Toml

abbrev Key := List String

/-- Why a text is no document: it breaks off or breaks a rule, or before that a decimal integer is too
long to be read. -/
inductive Defect where
  | malformed
  | tooLong
  deriving DecidableEq

/-- What must be there in a well-formed document. -/
def wellFormed {α : Type} : Option α → Except Defect α
  | some a => .ok a
  | none => .error .malformed

/-- A rule that a well-formed document keeps. -/
def demand (rule : Bool) : Except Defect Unit :=
  if rule then .ok () else .error .malformed

/-- A comment up to the end of its line. -/
def skipComment : List Char → Option (List Char)
  | '#' :: rest =>
    if (rest.takeWhile (· != '\n')).any isControl then none else some (rest.dropWhile (· != '\n'))
  | s => some s

/-- Blanks, line breaks and comments between the items of an array. -/
def skipFiller : Nat → List Char → Option (List Char)
  | 0, s => some s
  | bound + 1, s =>
    match skipLines s with
    | '#' :: rest => (skipComment ('#' :: rest)).bind (skipFiller bound)
    | s => some s

def isBare (c : Char) : Bool :=
  c.isAlphanum || c == '-' || c == '_'

/-- One part of a key: bare, or a text on one line. -/
def readKeyPart (s : List Char) : Option (String × List Char) :=
  match s with
  | [] => none
  | c :: rest =>
    if isBare c then some (String.ofList (s.takeWhile isBare), s.dropWhile isBare)
    else if c = '"' ∨ c = '\'' then
      (readLine (c == '"') c s.length rest).map fun (body, rest) => (String.ofList body, rest)
    else none

def readKeyTail : Nat → List Char → Option (Key × List Char)
  | 0, s => some ([], s)
  | bound + 1, s =>
    match skipBlanks s with
    | '.' :: rest => do
      let (part, rest) ← readKeyPart (skipBlanks rest)
      let (key, rest) ← readKeyTail bound rest
      some (part :: key, rest)
    | s => some ([], s)

/-- A key and the blanks after it. -/
def readKey (s : List Char) : Option (Key × List Char) := do
  let (part, rest) ← readKeyPart s
  let (key, rest) ← readKeyTail s.length rest
  some (part :: key, rest)

namespace Table

/-- The table with a value under a key that it may have already. -/
def put (key : String) (v : Value) : Table → Table
  | [] => [(key, v)]
  | (k, old) :: rest => if k = key then (k, v) :: rest else (k, old) :: put key v rest

/-- Changes the table that a path leads to; tables that are missing on the way are made. With `last`
an array of tables leads to its last one. -/
def within (last : Bool) (change : Table → Option Table) : Key → Table → Option Table
  | [], t => change t
  | k :: path, t =>
    match t.lookup k with
    | none => (within last change path []).map fun u => put k (.table u) t
    | some (.table u) => (within last change path u).map fun u => put k (.table u) t
    | some (.array items) =>
      match last, items.getLast? with
      | true, some (.table u) =>
        (within last change path u).map fun u => put k (.array (items.dropLast ++ [.table u])) t
      | _, _ => none
    | some _ => none

/-- A value under a key that is new to the table. -/
def insertNew (key : String) (v : Value) (t : Table) : Option Table :=
  if (t.lookup key).isSome then none else some (t ++ [(key, v)])

/-- One more empty table at the end of an array of tables, which is made where it is missing. -/
def extend (key : String) (t : Table) : Option Table :=
  match t.lookup key with
  | none => some (t ++ [(key, .array [.table []])])
  | some (.array items) => some (put key (.array (items ++ [.table []])) t)
  | some _ => none

end Table

/-- Whether a key lies in one of the closed ones. -/
def isClosed (closed : List Key) (key : Key) : Bool :=
  closed.any (·.isPrefixOf key)

def Value.isContainer : Value → Bool
  | .array _ | .table _ => true
  | _ => false

section

variable (nested : List Char → Except Defect (Value × List Char))

/-- A key, an equals sign and a value. -/
def readPair (s : List Char) : Except Defect ((Key × Value) × List Char) := do
  let (key, rest) ← wellFormed (readKey s)
  let rest ← wellFormed (after? "=" rest)
  let (v, rest) ← nested (skipBlanks rest)
  .ok ((key, v), rest)

/-- The items of an array after its bracket; the last may be followed by a comma. -/
def readItems : Nat → List Char → Except Defect (List Value × List Char)
  | 0, _ => .error .malformed
  | bound + 1, s => do
    match ← wellFormed (skipFiller s.length s) with
    | ']' :: rest => .ok ([], rest)
    | s =>
      let (v, rest) ← nested s
      match ← wellFormed (skipFiller rest.length rest) with
      | ']' :: rest => .ok ([v], rest)
      | ',' :: rest =>
        let (vs, rest) ← readItems bound rest
        .ok (v :: vs, rest)
      | _ => .error .malformed

/-- The entries of an inline table from the first or, behind a comma, the next one on. -/
def readInline : Nat → List Key → Table → List Char → Except Defect (Table × List Char)
  | 0, _, _, _ => .error .malformed
  | bound + 1, closed, t, s => do
    let ((key, v), rest) ← readPair nested (skipBlanks s)
    demand (!isClosed closed key)
    let t ← wellFormed (Table.within false (Table.insertNew (key.getLastD "") v) key.dropLast t)
    match skipBlanks rest with
    | '}' :: rest => .ok (t, rest)
    | ',' :: rest => readInline bound (if v.isContainer then key :: closed else closed) t rest
    | _ => .error .malformed

end

/-- A value, in a document of at most `bound` characters. -/
def readValue : Nat → List Char → Except Defect (Value × List Char)
  | 0, _ => .error .malformed
  | bound + 1, s =>
    match s with
    | [] => .error .malformed
    | '[' :: rest =>
      (readItems (readValue bound) s.length rest).map fun (items, rest) => (.array items, rest)
    | '{' :: rest =>
      match skipBlanks rest with
      | '}' :: rest => .ok (.table [], rest)
      | rest =>
        (readInline (readValue bound) s.length [] [] rest).map fun (t, rest) => (.table t, rest)
    | c :: _ =>
      if c = '"' ∨ c = '\'' then wellFormed ((readText s).map fun (t, rest) => (.str t, rest))
      else match readBool s <|> (readMoment s).map fun (m, rest) => (.moment m, rest) with
        | some reading => .ok reading
        | none => do
          let (n, rest) ← wellFormed (readNumber s)
          if maxDigits < n.digits then .error .tooLong else .ok (n.value, rest)

/-- A document so far: its tables, the header in force, the keys that a header opened, the keys that
an entry reached into since that header, and the closed keys, whose inner keys are closed too. -/
structure Document where
  root : Table
  header : Key
  opened : List Key
  reached : List Key
  closed : List Key

namespace Document

def empty : Document := ⟨[], [], [], [], []⟩

/-- A header in single brackets. -/
def openTable (d : Document) (key : Key) : Option Document := do
  let opened := d.reached ++ d.opened
  guard (!opened.contains key && !isClosed d.closed key)
  let root ← Table.within true some key d.root
  some { d with root := root, header := key, opened := key :: opened, reached := [] }

/-- A header in double brackets; keys inside the array are free again for its new table. -/
def extendArray (d : Document) (key : Key) : Option Document := do
  guard (!isClosed d.closed key)
  let root ← Table.within true (Table.extend (key.getLastD "")) key.dropLast d.root
  let free (keys : List Key) := keys.filter fun k => !key.isPrefixOf k
  some ⟨root, key, key :: free (d.reached ++ d.opened), [], free d.closed⟩

/-- An entry under the header in force. -/
def store (d : Document) (key : Key) (v : Value) : Option Document := do
  let outer := (List.range key.length).tail.map fun i => d.header ++ key.take i
  guard (outer.all fun k => !d.opened.contains k)
  guard (!isClosed d.closed (d.header ++ key.dropLast))
  let root ← Table.within true (Table.insertNew (key.getLastD "") v) (d.header ++ key.dropLast) d.root
  some { d with
    root := root
    reached := outer ++ d.reached
    closed := if v.isContainer then (d.header ++ key) :: d.closed else d.closed }

end Document

/-- One statement; a line may also hold none. -/
def readStatement (d : Document) (s : List Char) : Except Defect (Document × List Char) :=
  match s with
  | [] => .ok (d, [])
  | '[' :: '[' :: rest => wellFormed do
    let (key, rest) ← readKey (skipBlanks rest)
    let d ← d.extendArray key
    let rest ← after? "]]" rest
    some (d, rest)
  | '[' :: rest => wellFormed do
    let (key, rest) ← readKey (skipBlanks rest)
    let d ← d.openTable key
    let rest ← after? "]" rest
    some (d, rest)
  | c :: _ =>
    if isBare c ∨ c = '"' ∨ c = '\'' then do
      let ((key, v), rest) ← readPair (readValue s.length) s
      let d ← wellFormed (d.store key v)
      .ok (d, rest)
    else if c = '#' ∨ c = '\n' then .ok (d, s)
    else .error .malformed

/-- The statements of a document, each on a line of its own. -/
def readStatements : Nat → Document → List Char → Except Defect Document
  | 0, d, _ => .ok d
  | bound + 1, d, s => do
    let (d, rest) ← readStatement d (skipBlanks s)
    match ← wellFormed (skipComment (skipBlanks rest)) with
    | [] => .ok d
    | '\n' :: rest => readStatements bound d rest
    | _ => .error .malformed

def joinLines : List Char → List Char
  | '\r' :: '\n' :: rest => '\n' :: joinLines rest
  | c :: rest => c :: joinLines rest
  | [] => []

/-- The tables of a well-formed document. -/
def read (text : String) : Except Defect Table :=
  let s := joinLines text.toList
  (readStatements (s.length + 1) .empty s).map Document.root

end FormulaDoc.Toml
