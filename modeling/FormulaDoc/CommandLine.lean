import FormulaDoc.Arguments
import FormulaDoc.Editor
import FormulaDoc.Json
import FormulaDoc.Settings
import FormulaDoc.Text.Order
import FormulaDoc.Yaml

/-!
The program as a command line: what a line asks for, and what it prints. A line that is wrong is
refused before any settings are read; a formula that cannot be read or edited is reported as an error
of the program.
-/

namespace FormulaDoc

/-- What to do to a selection. -/
inductive StyleTask where
  | color (color : String)
  | box (border : String) (background : Option String)
  | brace (above : Bool) (caption : Option String)
  | strike
  | unstyle

/-- What to do with a formula. An id, a run or the offsets are missing where a divider stands in their
place. -/
inductive Task where
  | latex (mode : Mode)
  | ranges (json flat : Bool)
  | tree (json : Bool)
  | find (id : Option String) (json : Bool)
  | style (task : StyleTask) (runs : Option (List (List String))) (mode : Mode)
  | cursor (offsets : List Int)

/-- A command line that makes sense. -/
structure Invocation where
  config : Option String
  verbose : Bool
  quiet : Bool
  expr : String
  task : Task

namespace CommandLine

def help : OptionSpec := ⟨["-h", "--help"], .stop⟩

def switch (name : String) : OptionSpec := ⟨[name], .switch⟩

def setting (name : String) : OptionSpec := ⟨[name], .value fun _ => true⟩

/-- An option whose value is one of several. -/
def choice (name : String) (choices : List String) : OptionSpec := ⟨[name], .value choices.contains⟩

/-- The options before the command. -/
def globalSpec : ArgumentSpec :=
  ⟨[help, setting "--config", ⟨["-v", "--verbose"], .switch⟩, ⟨["-q", "--quiet"], .switch⟩,
    ⟨["--version"], .stop⟩], [.command]⟩

/-- The modes that can be asked for. -/
def modes : List (String × Mode) := [("ast", .ast), ("render", .render), ("content", .content)]

def modeOption : OptionSpec := choice "--mode" (modes.map Prod.fst)

def latexSpec : ArgumentSpec := ⟨[help, modeOption], [.single]⟩

def rangesSpec : ArgumentSpec := ⟨[help, switch "--json", switch "--flat"], [.single]⟩

def treeSpec : ArgumentSpec := ⟨[help, choice "--format" ["yaml", "json"]], [.single]⟩

def findSpec : ArgumentSpec := ⟨[help, switch "--json"], [.single, .single]⟩

def styleSpec : ArgumentSpec := ⟨[help], [.command]⟩

def cursorSpec : ArgumentSpec := ⟨[help], [.single, .many fun s => (readInteger? s).isSome]⟩

/-- The options that every style command has, with those of its own. -/
def selectionSpec (own : List OptionSpec) : ArgumentSpec :=
  ⟨[help, setting "--select", modeOption] ++ own, [.single]⟩

/-- A value that must be given. -/
def required {α : Type} : Option α → Except LineFault α
  | some a => .ok a
  | none => .error .misuse

/-- The mode that was chosen last; plain markup where none was. -/
def chosenMode (found : Arguments) : Mode :=
  (((found.last? "--mode").bind List.head?).bind fun name => modes.lookup name).getD .ast

/-- A value in running text. A divider in its place leaves empty brackets. -/
def shownValue : List String → String
  | [] => "[]"
  | value :: _ => value

/-- The ids of a run, parted by commas, without blanks around them. -/
def readRun (s : String) : List String :=
  ((s.toList.splitOn ',').map fun cs => String.ofList (trim cs)).filter (· != "")

/-- The parts of a style command: what it does, the formula, the selection and the mode. -/
def readStyle (own : List OptionSpec) (task : Arguments → Except LineFault StyleTask)
    (line : List String) : Except LineFault (String × Task) := do
  let found ← (selectionSpec own).read line
  let task ← task found
  let runs := (found.all "--select").mapM fun values => values.head?.map readRun
  if !found.has "--select" then .error .misuse
  else found.finish (found.slots.flatten.headD "", .style task runs (chosenMode found))

def readStyleCommand : List String → Except LineFault (String × Task)
  | "color" :: line =>
    readStyle [setting "--color"] (fun found => do
      .ok (.color (shownValue (← required (found.last? "--color"))))) line
  | "box" :: line =>
    readStyle [setting "--color", setting "--background"] (fun found => do
      .ok (.box (shownValue (← required (found.last? "--color")))
        ((found.last? "--background").bind List.head?))) line
  | "brace" :: line =>
    readStyle [switch "--under", setting "--caption"] (fun found =>
      .ok (.brace (!found.has "--under") ((found.last? "--caption").map (·.headD "")))) line
  | "strike" :: line => readStyle [] (fun _ => .ok .strike) line
  | "unstyle" :: line => readStyle [] (fun _ => .ok .unstyle) line
  | _ => .error .misuse

/-- The formula and the task of a command. -/
def readCommandLine : List String → Except LineFault (String × Task)
  | "latex" :: line => do
    let found ← latexSpec.read line
    found.finish (found.slots.flatten.headD "", .latex (chosenMode found))
  | "ranges" :: line => do
    let found ← rangesSpec.read line
    found.finish (found.slots.flatten.headD "", .ranges (found.has "--json") (found.has "--flat"))
  | "tree" :: line => do
    let found ← treeSpec.read line
    found.finish (found.slots.flatten.headD "", .tree (found.last? "--format" == some ["json"]))
  | "find" :: line => do
    let found ← findSpec.read line
    match found.slots with
    | [expr, id] => found.finish (expr.headD "", .find id.head? (found.has "--json"))
    | _ => .error .misuse
  | "style" :: line => do
    let found ← styleSpec.read line
    let reading ← readStyleCommand found.slots.flatten
    found.finish reading
  | "cursor" :: line => do
    let found ← cursorSpec.read line
    match found.slots with
    | [expr, offsets] => found.finish (expr.headD "", .cursor (offsets.filterMap readInteger?))
    | _ => .error .misuse
  | _ => .error .misuse

def readLine (line : List String) : Except LineFault Invocation := do
  let found ← globalSpec.read line
  let (expr, task) ← readCommandLine found.slots.flatten
  found.finish ⟨(found.last? "--config").bind List.head?, found.has "--verbose", found.has "--quiet",
    expr, task⟩

end CommandLine

/-- What the program finds around it: files by their path, the input, and a seed for fresh ids. -/
structure Surroundings where
  find : String → Found
  input : String
  seed : Nat

/-- What the program prints, and how it ends. -/
structure Report where
  code : Nat
  out : String
  err : String
  deriving DecidableEq

/-- Why the program ends without a report: its settings cannot be used, no id can be drawn, or the
command line leaves out what a task cannot do without. -/
inductive Breakdown where
  | settings (e : SettingsError)
  | unknownLevel (name : String)
  | noIds (fault : SourceFault)
  | missingId
  | missingRun
  | missingOffsets
  deriving DecidableEq

/-- An answer of the program: a report, a refused line, an option that asks for something else, or a
breakdown. -/
inductive Outcome where
  | report (r : Report)
  | refused
  | asked (option : String)
  | broken (b : Breakdown)
  deriving DecidableEq

namespace Report

def printed (out : String) : Report := ⟨0, out, ""⟩

def printedLine (s : String) : Report := printed (s ++ "\n")

def printedLines (lines : List String) : Report := printed (String.join (lines.map (· ++ "\n")))

/-- A failure, with its message on the error channel. -/
def failed (message : String) : Report := ⟨1, "", message ++ "\n"⟩

end Report

/-- A position and its range, in columns. -/
def Placed.line (p : Placed) : String :=
  let label := match p.range with
    | .plain s => quoted s
    | .styled id .. => id
  "\t".intercalate [toString p.start, toString p.stop, toString p.depth, label]

/-- A decoration, indented by its depth. -/
def Decoration.line (d : Decoration) : String :=
  let tooltip := (d.hints.bind Hints.tooltip).getD ""
  let line := String.join (List.replicate d.depth "  ") ++ d.id ++ "\t" ++ toString d.start ++ "-" ++
    toString d.stop ++ "\t" ++ tooltip
  String.ofList (trimEnd line.toList)

def reportRanges (f : Formula) (json flat : Bool) : Report :=
  match flat, json with
  | true, true => .printedLine (Data.list ((Range.flatten f.ranges).map Placed.toData)).toJson
  | true, false => .printedLines ((Range.flatten f.ranges).map Placed.line)
  | false, true => .printedLine (Data.list (Range.allToData f.ranges)).toJson
  | false, false => .printedLines ((Range.decorations f.ranges []).map Decoration.line)

/-- A node with its place in the markup and its ancestors. -/
def reportNode (f : Formula) (id : String) (json : Bool) : Report :=
  match f.find? id, f.span? .ast id with
  | some n, some span =>
    let path := (f.ancestors id).map Node.label
    if json then
      .printedLine (Data.map [("node", n.toData), ("start", .int span.start), ("end", .int span.stop),
        ("ancestors", .list (path.map .str))]).toJson
    else
      let latex := ((f.latex .ast).toList.drop span.start).take span.length
      .printedLines ["kind: " ++ n.kind.tag,
        "span: " ++ toString span.start ++ "-" ++ toString span.stop,
        "latex: " ++ String.ofList latex,
        "ancestors: " ++ if path.isEmpty then "(top level)" else " > ".intercalate path]
  | _, _ => .failed ("Node " ++ id ++ " not found")

/-- The active ids after each move of a caret. -/
def reportMoves (f : Formula) (first : Int) (moves : List Int) : Report :=
  let line (offset : Int) (active : List String) : String :=
    toString offset ++ "\t" ++ ",".intercalate (sortTexts active)
  let step (state : Caret × List String) (offset : Int) : Caret × List String :=
    let caret := state.1.move offset
    (caret, state.2 ++ [line offset caret.active])
  .printedLines (moves.foldl step (.start f.ranges first, [line first []])).2

/-- A style command carried out, with a background and a caption for those that are not given. An empty
background counts as none. -/
def StyleTask.edit (background : String) (caption : List Node) (f : Formula)
    (runs : List (List String)) : StyleTask → Minting Edited
  | color c => applyColor f runs c
  | box border given => applyBox f runs border ((given.filter (· != "")).getD background)
  | brace above (some caption) => applyBrace f runs above caption
  | brace above none => annotate f runs above caption
  | strike => applyStrike f runs
  | unstyle => removeStyle f runs.flatten

/-- The edited formula, with a note where the edit changed nothing. -/
def reportEdit (edit : Minting Edited) (source : IdSource) (mode : Mode) (quiet : Bool) : Outcome :=
  match (edit.run ⟨[], source⟩).1 with
  | .ok e =>
    .report ⟨0, e.formula.latex mode ++ "\n",
      if e.changed || quiet then "" else "Nothing to change\n"⟩
  | .error (.sourceFailed fault) => .broken (.noIds fault)
  | .error e => .report (.failed ("Error: " ++ e.message))

/-- A style command with the background and the caption of the settings. One of these that cannot be
written is a fault where another one would change what is printed. -/
def reportStyle (settings : Settings) (seed : Nat) (quiet : Bool) (f : Formula) (task : StyleTask)
    (runs : List (List String)) (mode : Mode) : Outcome :=
  let report (background : String) (caption : List Node) : Outcome :=
    reportEdit (task.edit background caption f runs) (.hex settings.idBytes seed) mode quiet
  let background := settings.boxBackground.shown?.getD ""
  let caption := settings.captionNodes?.getD []
  let whole := report background caption
  if settings.boxBackground.shown?.isNone ∧ report "-" caption ≠ whole then
    .broken (.settings (.badValue "box_background"))
  else if settings.captionNodes?.isNone ∧ report background (symbolsOf "-") ≠ whole then
    .broken (.settings (.wrongType "brace_caption"))
  else whole

/-- A task carried out on a formula. -/
def Task.run (settings : Settings) (seed : Nat) (quiet : Bool) (f : Formula) : Task → Outcome
  | latex mode => .report (.printedLine (f.latex mode))
  | ranges json flat => .report (reportRanges f json flat)
  | tree true => .report (.printedLine f.toData.toJson)
  | tree false => .report (.printed f.toData.toYaml)
  | find (some id) json => .report (reportNode f id json)
  | find none _ => .broken .missingId
  | cursor (first :: moves) => .report (reportMoves f first moves)
  | cursor [] => .broken .missingOffsets
  | style _ none _ => .broken .missingRun
  | style task (some runs) mode => reportStyle settings seed quiet f task runs mode

/-- An invocation with its settings: the formula is the expression, or the input where the expression
is a dash, without the blanks around it. -/
def Invocation.run (i : Invocation) (s : Surroundings) (settings : Settings) : Outcome :=
  match settings.variableNames with
  | .error e => .broken (.settings e)
  | .ok vars =>
    if !i.verbose && !Settings.logLevels.contains settings.logLevel then
      .broken (.unknownLevel settings.logLevel)
    else
      let text := if i.expr = "-" then s.input else i.expr
      match Formula.parse vars (String.ofList (trim text.toList)) with
      | .error e => .report (.failed ("Error: " ++ e.message))
      | .ok f => i.task.run settings s.seed i.quiet f

/-- The program: a command line in its surroundings. -/
def runProgram (s : Surroundings) (line : List String) : Outcome :=
  match CommandLine.readLine line with
  | .error .misuse => .refused
  | .error (.asked option) => .asked option
  | .ok i =>
    match Settings.load s.find i.config with
    | .error e => .broken (.settings e)
    | .ok settings => i.run s settings

end FormulaDoc
