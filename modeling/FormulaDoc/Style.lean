import FormulaDoc.Consolidate

/-!
Styles put on a selection and taken off again. A command first consolidates the selection; the nodes
that then stand for its runs are its targets. A target that carries the style already, or stands
directly inside a carrier of it, has that carrier changed; any other target is wrapped in a new one.
Nodes keep their ids, and new nodes get fresh ones.
-/

namespace FormulaDoc

/-- Whether a node is among the selected ones. -/
def Node.selectedIn (n : Node) (selected : List String) : Bool :=
  n.id?.any selected.contains

/-- Whether the parent of a node is of the given kind. -/
def Formula.parentIs (f : Formula) (kind : Kind) (n : Node) : Bool :=
  (n.id?.bind f.parent?).any fun p => p.kind = kind

/-- Consolidates a selection and rewrites the result by a visitor made for it and its targets. -/
def restyle (visit : Formula → List String → Node → Minting (Option Node)) (f : Formula)
    (runs : List (List String)) : Minting Edited := do
  let (e, targets) ← consolidate false f runs
  mintBeside e.formula
  let r ← unique (← e.formula.rewrite (visit e.formula (targets.filterMap id)))
  pure ⟨r.formula, e.changed || r.changed⟩

/-- A wrapper around a target that does not stand inside one of the same kind. -/
def wrapTarget (kind : Kind) (wrap : Node → Minting Node) (f : Formula) (selected : List String)
    (n : Node) : Minting (Option Node) :=
  if n.selectedIn selected && !f.parentIs kind n then some <$> wrap n else pure none

def colorTarget (color : String) (f : Formula) (selected : List String) (n : Node) :
    Minting (Option Node) :=
  match n with
  | .color id old body =>
    if selected.contains id || body.any (·.selectedIn selected) then
      pure (some (.color id color body))
    else wrapColor (.color id old body)
  | n => wrapColor n
where
  wrapColor : Node → Minting (Option Node) :=
    wrapTarget .color (fun n => do pure (.color (← mint) color [n])) f selected

def applyColor (f : Formula) (runs : List (List String)) (color : String) : Minting Edited :=
  restyle (colorTarget color) f runs

def boxTarget (border background : String) (f : Formula) (selected : List String) (n : Node) :
    Minting (Option Node) :=
  match n with
  | .box id b body g =>
    if selected.contains id || body.selectedIn selected then
      pure (some (.box id border body background))
    else wrapBox (.box id b body g)
  | n => wrapBox n
where
  wrapBox : Node → Minting (Option Node) :=
    wrapTarget .box (fun n => do pure (.box (← mint) border n background)) f selected

def applyBox (f : Formula) (runs : List (List String)) (border background : String) :
    Minting Edited :=
  restyle (boxTarget border background) f runs

def strikeTarget (f : Formula) (selected : List String) (n : Node) : Minting (Option Node) :=
  if n.kind = .strike then pure none
  else wrapTarget .strike (fun n => do pure (.strike (← mint) n)) f selected n

def applyStrike (f : Formula) (runs : List (List String)) : Minting Edited :=
  restyle strikeTarget f runs

/-- A text as symbols without ids, one per character. -/
def symbolsOf (s : String) : List Node :=
  s.toList.map fun c => .symbol "" (String.singleton c)

/-- A text of the given nodes with fresh ids; its own id is drawn first. -/
def captionText (items : List Node) : Minting Node := do
  let id ← mint
  let items ← items.mapM fun n => do pure (n.withId (← mint))
  pure (.text id items)

/-- A base with its caption, above it or below. -/
def captioned (id : String) (base : Node) (above : Bool) (caption : Option Node) : Node :=
  if above then .script id base none caption else .script id base caption none

/-- Whether a brace or the node inside it is selected. -/
def braceSelected (selected : List String) : Node → Bool
  | .brace id _ body => selected.contains id || body.selectedIn selected
  | _ => false

def braceTarget (above : Bool) (caption : List Node) (f : Formula) (selected : List String)
    (n : Node) : Minting (Option Node) :=
  match n with
  | .script id base sub sup =>
    if braceSelected selected base then
      pure (some (captioned id base above (sup <|> sub)))
    else wrapBrace (.script id base sub sup)
  | .brace id o body =>
    if braceSelected selected (.brace id o body) then
      pure (if o = above then none else some (.brace id above body))
    else wrapBrace (.brace id o body)
  | n => wrapBrace n
where
  wrapBrace : Node → Minting (Option Node) :=
    wrapTarget .brace (fun n => do
      let label ← captionText caption
      let id ← mint
      let brace := Node.brace (← mint) above n
      pure (captioned id brace above (some label))) f selected

/-- Braces with copies of the given nodes as a caption on the side they point to. A brace that is there
already is turned round, and its caption moves along. -/
def annotate (f : Formula) (runs : List (List String)) (above : Bool) (caption : List Node) :
    Minting Edited :=
  restyle (braceTarget above caption) f runs

/-- Braces with a text as their caption. -/
def applyBrace (f : Formula) (runs : List (List String)) (above : Bool) (caption : String) :
    Minting Edited :=
  annotate f runs above (symbolsOf caption)

/-- The id of the script around a brace that it captions. -/
def Formula.captionOf? (f : Formula) (id : String) : Option String :=
  match f.find? id, f.parent? id with
  | some (.brace ..), some (.script scriptId base _ _) =>
    if base.id? = some id then some scriptId else none
  | _, _ => none

def unwrapTarget (targets captions : List String) (n : Node) : Minting (Option Node) :=
  match n with
  | .script id base _ _ => pure (if captions.contains id then some base else none)
  | .color id _ [child] => pure (if targets.contains id then some child else none)
  | .color id _ body => do
    if targets.contains id then pure (some (.group (← mint) body)) else pure none
  | .box id _ body _ | .brace id _ body | .strike id body =>
    pure (if targets.contains id then some body else none)
  | _ => pure none

/-- The named carriers taken off. A brace goes together with the script that captions it; a color over
several nodes leaves a group. -/
def removeStyle (f : Formula) (ids : List String) : Minting Edited := do
  mintBeside f
  unique (← f.rewrite (unwrapTarget ids (ids.filterMap f.captionOf?)))

end FormulaDoc
