import FormulaDoc.Text.Integer

/-!
The words of a command line. An option is a word with one dash or two; a long one may be shortened as
long as one option remains possible, and its value stands behind an equals sign or in the next word.
Options may stand before, between and behind the other words. After a divider, two dashes alone, no
word is an option. The words are carried out in turn, so that the first wrong value or the first option
that asks for something else decides; words that nothing takes are a mistake in the end.
-/

namespace FormulaDoc

/-- The word that divides a line. -/
def dividerText : String := "--"

/-- What an option does: it takes a value of a certain form, it is set, or it ends the reading of the
command line. -/
inductive OptionUse where
  | value (accepts : String → Bool)
  | switch
  | stop

/-- An option under all its names, the last of which names it in results. -/
structure OptionSpec where
  names : List String
  use : OptionUse

def OptionSpec.name (o : OptionSpec) : String :=
  o.names.getLastD ""

/-- Whether the option takes these values. -/
def OptionSpec.accepts (o : OptionSpec) (values : List String) : Bool :=
  match o.use with
  | .value accepts => values.all accepts
  | _ => true

/-- What stands outside the options: one word, at least one word of a certain form, or a command with
all that follows it. -/
inductive Slot where
  | single
  | many (accepts : String → Bool)
  | command

structure ArgumentSpec where
  options : List OptionSpec
  slots : List Slot

/-- Why a command line is not carried out: it is wrong, or an option asks for something else. -/
inductive LineFault where
  | misuse
  | asked (option : String)
  deriving DecidableEq

/-- A word as it is read before the slots are filled. An option that is unknown has no
specification. -/
inductive Word where
  | plain (s : String)
  | divider
  | option (written : String) (spec : Option OptionSpec) (value : Option String)

namespace Word

/-- The word as it was written. -/
def text : Word → String
  | plain s => s
  | divider => dividerText
  | option written _ _ => written

def isPlain : Word → Bool
  | plain _ => true
  | _ => false

def isDivider : Word → Bool
  | divider => true
  | _ => false

def isOption : Word → Bool
  | option .. => true
  | _ => false

end Word

/-- Digits with a dash before and perhaps a point between them, which are a number and no option. -/
def isNegativeNumber (cs : List Char) : Bool :=
  let isDigit (c : Char) := (digitValue? c).isSome
  match (if cs.getLast? = some '\n' then cs.dropLast else cs) with
  | '-' :: rest =>
    match rest.dropWhile isDigit with
    | [] => !rest.isEmpty
    | '.' :: fraction => !fraction.isEmpty && fraction.all isDigit
    | _ => false
  | _ => false

/-- The two sides of the first equals sign. -/
def splitEquals (cs : List Char) : Option (List Char × List Char) :=
  if cs.contains '=' then some (cs.takeWhile (· != '='), (cs.dropWhile (· != '=')).drop 1) else none

namespace ArgumentSpec

def find? (a : ArgumentSpec) (name : String) : Option OptionSpec :=
  a.options.find? fun o => o.names.contains name

/-- All names with their options. -/
def named (a : ArgumentSpec) : List (String × OptionSpec) :=
  a.options.flatMap fun o => o.names.map fun name => (name, o)

/-- The options that a word which is no full name can stand for, each with the value that the word
gives: names that the word begins, and for a single dash also the option of its first letter. -/
def candidates (a : ArgumentSpec) (word : String) : List (OptionSpec × Option String) :=
  let cs := word.toList
  if cs.take 2 = ['-', '-'] then
    let (start, value) := match splitEquals cs with
      | some (start, value) => (start, some (String.ofList value))
      | none => (cs, none)
    a.named.filterMap fun (name, o) => if start.isPrefixOf name.toList then some (o, value) else none
  else
    a.named.filterMap fun (name, o) =>
      if name.toList = cs.take 2 then some (o, some (String.ofList (cs.drop 2)))
      else if cs.isPrefixOf name.toList then some (o, none)
      else none

/-- One word before the divider. -/
def word (a : ArgumentSpec) (s : String) : Except LineFault Word :=
  let cs := s.toList
  if cs.head? ≠ some '-' then .ok (.plain s)
  else match a.find? s with
    | some o => .ok (.option s (some o) none)
    | none =>
      if cs.length = 1 then .ok (.plain s)
      else match (splitEquals cs).bind fun (name, value) =>
          (a.find? (String.ofList name)).map fun o => (o, String.ofList value) with
        | some (o, value) => .ok (.option s (some o) (some value))
        | none =>
          match a.candidates s with
          | [(o, value)] => .ok (.option s (some o) value)
          | _ :: _ :: _ => .error .misuse
          | [] =>
            if isNegativeNumber cs || cs.contains ' ' then .ok (.plain s)
            else .ok (.option s none none)

def words (a : ArgumentSpec) : List String → Except LineFault (List Word)
  | [] => .ok []
  | "--" :: rest => .ok (.divider :: rest.map .plain)
  | s :: rest => do
    let w ← a.word s
    .ok (w :: (← a.words rest))

end ArgumentSpec

/-- What a command line holds: options in order, with their values, the words of each slot, and whether
there are words that nothing takes. An option that is set has no value. Nor has one whose value is the
text of a divider: of the words for an option or a slot, the first such text is left out. -/
structure Arguments where
  options : List (String × List String)
  slots : List (List String)
  surplus : Bool

namespace Slot

/-- The words that a slot takes from the beginning of a line, and the rest. -/
def take (slot : Slot) (ws : List Word) : Option (List Word × List Word) :=
  let lead := ws.takeWhile Word.isDivider
  match slot, ws.dropWhile Word.isDivider with
  | .single, .plain s :: rest =>
    some (lead ++ .plain s :: rest.takeWhile Word.isDivider, rest.dropWhile Word.isDivider)
  | .many _, .plain s :: rest =>
    let isMore (w : Word) := w.isPlain || w.isDivider
    some (lead ++ .plain s :: rest.takeWhile isMore, rest.dropWhile isMore)
  | .command, .plain _ :: _ => some (ws, [])
  | _, _ => none

/-- The words of all given slots. -/
def takeAll : List Slot → List Word → Option (List (Slot × List Word) × List Word)
  | [], ws => some ([], ws)
  | slot :: slots, ws => do
    let (taken, rest) ← slot.take ws
    let (more, rest) ← takeAll slots rest
    some ((slot, taken) :: more, rest)

/-- The words of as many of the first slots as the line can fill at once, and the slots that remain. -/
def takeMost (slots : List Slot) (ws : List Word) :
    Nat → List (Slot × List Word) × List Word × List Slot
  | 0 => ([], ws, slots)
  | n + 1 =>
    match takeAll (slots.take (n + 1)) ws with
    | some (taken, rest) => (taken, rest, slots.drop (n + 1))
    | none => takeMost slots ws n

/-- The values that words have in a slot. A command gets all its words as they are. -/
def values (slot : Slot) (ws : List Word) : Except LineFault (List String) :=
  let texts := ws.map Word.text
  match slot with
  | .single => .ok (texts.erase dividerText)
  | .many accepts =>
    let texts := texts.erase dividerText
    if texts.all accepts then .ok texts else .error .misuse
  | .command => .ok texts

end Slot

/-- An option with the words for it carried out. -/
def OptionSpec.apply (o : OptionSpec) (texts : List String) :
    Except LineFault (String × List String) :=
  match o.use with
  | .stop => .error (.asked o.name)
  | _ =>
    let values := texts.erase dividerText
    if o.accepts values then .ok (o.name, values) else .error .misuse

/-- Switches of one letter written behind a single dash, from the first one on; the last may be an
option with a value, which is the rest of the word. Returns the option that still needs a value. -/
def ArgumentSpec.cluster (a : ArgumentSpec) (o : OptionSpec) :
    List Char → Except LineFault (List (OptionSpec × List String) × Option OptionSpec)
  | [] =>
    match o.use with
    | .value _ => .ok ([], some o)
    | _ => .ok ([(o, [])], none)
  | c :: rest =>
    match o.use with
    | .value _ => .ok ([(o, [String.ofList (c :: rest)])], none)
    | _ =>
      match a.find? (String.ofList ['-', c]) with
      | none => .error .misuse
      | some next => do
        let (more, needs) ← a.cluster next rest
        .ok ((o, []) :: more, needs)

/-- The options that a word stands for, and the one that takes the next word as its value. -/
def ArgumentSpec.expand (a : ArgumentSpec) (written : String) (o : OptionSpec)
    (value : Option String) :
    Except LineFault (List (OptionSpec × List String) × Option OptionSpec) :=
  match value, o.use with
  | none, _ => a.cluster o []
  | some v, .value _ => .ok ([(o, [v])], none)
  | some v, _ =>
    if v = "" ∨ written.toList.take 2 = ['-', '-'] then .error .misuse else a.cluster o v.toList

/-- The words of a line in turn: those before the next option fill as many slots as they can, then the
option takes its value. -/
def ArgumentSpec.collect (a : ArgumentSpec) :
    Nat → List Slot → List Word → Except LineFault (Arguments × List Slot)
  | 0, slots, _ => .ok (⟨[], [], false⟩, slots)
  | bound + 1, slots, ws =>
    match ws with
    | [] => .ok (⟨[], [], false⟩, slots)
    | .option _ none _ :: rest => do
      let (found, slots) ← a.collect bound slots rest
      .ok ({ found with surplus := true }, slots)
    | .option written (some o) value :: rest => do
      let (steps, needs) ← a.expand written o value
      let (steps, rest) ← match needs, rest with
        | none, rest => .ok (steps, rest)
        | some o, .plain v :: rest => .ok (steps ++ [(o, [v])], rest)
        | some _, _ => .error .misuse
      let options ← steps.mapM fun (o, texts) => o.apply texts
      let (found, slots) ← a.collect bound slots rest
      .ok ({ found with options := options ++ found.options }, slots)
    | ws =>
      match Slot.takeMost slots ws slots.length with
      | ([], _, _) => do
        let (found, slots) ← a.collect bound slots (ws.dropWhile (!·.isOption))
        .ok ({ found with surplus := true }, slots)
      | (taken, rest, slots) => do
        let filled ← taken.mapM fun (slot, ws) => slot.values ws
        let (found, slots) ← a.collect bound slots rest
        .ok ({ found with slots := filled ++ found.slots }, slots)

/-- The options and words of a command line on which every slot is filled. -/
def ArgumentSpec.read (a : ArgumentSpec) (line : List String) : Except LineFault Arguments := do
  let ws ← a.words line
  let (found, slots) ← a.collect (ws.length + 1) a.slots ws
  if slots.isEmpty then .ok found else .error .misuse

namespace Arguments

/-- The values that an option was given last. -/
def last? (found : Arguments) (name : String) : Option (List String) :=
  (found.options.filter (·.1 == name)).getLast?.map Prod.snd

/-- The values of an option that may be repeated. -/
def all (found : Arguments) (name : String) : List (List String) :=
  (found.options.filter (·.1 == name)).map Prod.snd

def has (found : Arguments) (name : String) : Bool :=
  found.options.any (·.1 == name)

/-- What was made of a line, if every word of it was taken. -/
def finish {α : Type} (found : Arguments) (a : α) : Except LineFault α :=
  if found.surplus then .error .misuse else .ok a

end Arguments

end FormulaDoc
