/-!
Patterns that describe whole texts, matched by taking the derivative of the pattern by one character
after the other.
-/

namespace FormulaDoc

inductive Pattern where
  | never
  | done
  | one (p : Char → Bool)
  | seq (a b : Pattern)
  | alt (a b : Pattern)
  | star (a : Pattern)

namespace Pattern

def word (s : String) : Pattern :=
  s.toList.foldr (fun c rest => seq (one (· == c)) rest) done

def anyOf (ps : List Pattern) : Pattern :=
  ps.foldr alt never

def allOf (ps : List Pattern) : Pattern :=
  ps.foldr seq done

def words (ss : List String) : Pattern :=
  anyOf (ss.map word)

def chars (s : String) : Pattern :=
  one s.toList.contains

def optional (a : Pattern) : Pattern :=
  alt done a

def plus (a : Pattern) : Pattern :=
  seq a (star a)

/-- Whether the empty text matches. -/
def nullable : Pattern → Bool
  | never | one _ => false
  | done | star _ => true
  | seq a b => a.nullable && b.nullable
  | alt a b => a.nullable || b.nullable

/-- One pattern after another, with a pattern that nothing matches kept small. -/
def join : Pattern → Pattern → Pattern
  | never, _ => never
  | done, b => b
  | a, b => seq a b

def either : Pattern → Pattern → Pattern
  | never, b => b
  | a, never => a
  | a, b => alt a b

/-- The pattern of what may follow a character. -/
def derive (c : Char) : Pattern → Pattern
  | never | done => never
  | one p => if p c then done else never
  | seq a b =>
    if a.nullable then either (join (a.derive c) b) (b.derive c) else join (a.derive c) b
  | alt a b => either (a.derive c) (b.derive c)
  | star a => join (a.derive c) (star a)

def accepts (p : Pattern) (s : String) : Bool :=
  (s.toList.foldl (fun p c => p.derive c) p).nullable

end Pattern

end FormulaDoc
