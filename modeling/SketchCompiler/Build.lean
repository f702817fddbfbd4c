/-
Builds: from the entry of a program to the file of generated code.  All
stages report in one form.  Code is generated and written only if no
stage before has reported an error.
-/
import SketchCompiler.Analysis
import SketchCompiler.ModuleGraph
import SketchCompiler.Sketch

namespace SketchCompiler

/-- The stages of a build. -/
inductive Stage where
  | module
  | lex
  | parse
  | semantic
  | codegen
  deriving DecidableEq, Repr

/-- The name of a stage in reports. -/
def Stage.text : Stage → String
  | module => "module"
  | lex => "lex"
  | parse => "parse"
  | semantic => "semantic"
  | codegen => "codegen"

/-- What a stage reports. -/
structure Message where
  stage : Stage
  severity : Severity
  message : String
  line : Nat
  column : Nat
  file : String
  deriving DecidableEq, Repr

/-- A message as one line of text. -/
def Message.text (m : Message) : String :=
  "[" ++ m.stage.text ++ ":" ++ m.severity.text ++ "] " ++ m.file ++ ":" ++ toString m.line ++ ":"
    ++ toString m.column ++ " " ++ m.message

/-- The message is an error. -/
def Message.isError (m : Message) : Bool :=
  m.severity = .error

/-- What a build is asked for. -/
structure BuildOrder where
  source : Path
  output : Path
  target : String := "esp32"
  board : String := "esp32"
  deriving DecidableEq, Repr

/-- The outcome of a build: the messages of all stages, and where the
lines of the generated code come from. -/
structure Build where
  messages : List Message
  lineMap : LineMap := []

/-- A stage has reported an error. -/
def Build.failed (b : Build) : Bool :=
  b.messages.any (·.isError)

/-- Why a build has no outcome. -/
inductive BuildFault where
  | module (fault : ModuleFault)
  | numeral (reason : NumeralError)
  | unknownTarget (target : String)
  | endlessCore
  | file (fault : FileFault)

namespace Build

/-- The messages about the graph of modules. -/
def graphMessages (g : ModuleGraph) : List Message :=
  g.issues.map fun i => ⟨.module, .error, i.finding.message, i.line, i.column, i.file⟩

/-- The messages about the text of a module. -/
def sourceMessages (m : Module) : List Message :=
  (m.source.scanErrors.map fun e =>
    ⟨.lex, .error, e.cause.message, e.pos.line, e.pos.column, m.path.text⟩)
  ++ m.source.parseErrors.map fun e =>
    ⟨.parse, .error, e.cause.message, e.pos.line, e.pos.column, m.path.text⟩

/-- The messages of an analysis. -/
def analysisMessages (source : Path) (a : Analysis) : Except NumeralError (List Message) :=
  a.issues.mapM fun i => do
    let file := if i.file == "" then source.text else i.file
    return ⟨.semantic, i.severity, ← i.finding.message, i.line, i.column, file⟩

/-- A build works on a file tree, also when it fails. -/
abbrev Work := ExceptT BuildFault (StateM FileTree)

/-- Lifts a step that may fail. -/
def orFault {ε α : Type} (fault : ε → BuildFault) : Except ε α → Work α
  | .ok a => pure a
  | .error e => throw (fault e)

/-- The graph of the modules of an entry, and the entry's own path. -/
def graph (source : Path) : Work (Path × ModuleGraph) := do
  let tree ← get
  match ModuleGraph.addEntry tree ModuleGraph.defaultExtension source |>.run {} with
  | (.ok entry, g) => return (entry, g)
  | (.error fault, _) => throw (.module fault)

/-- A change of the file tree. -/
def change (f : FileTree → Except FileFault Unit × FileTree) : Work Unit := do
  let (outcome, tree) := f (← get)
  set tree
  orFault .file outcome

/-- Writes the generated code, making the directories above it. -/
def publish (output : Path) (code : String) : Work Unit := do
  change (·.makeDirectory output.parent)
  change fun tree => tree.orUnchanged (tree.write output code)

/-- Generates and writes the code of a program without errors. -/
def generate (order : BuildOrder) (messages : List Message) (p : Program) : Work Build := do
  match Backend.ofTarget? order.target with
  | none => throw (.unknownTarget order.target)
  | some backend =>
    match p.sketch backend with
    | .ok sketch =>
      publish order.output sketch.code
      return { messages, lineMap := sketch.lineMap }
    | .error (.rgbUnsupported backend span) =>
      let message := (EmitFault.rgbUnsupported backend span).message
      return { messages := messages
        ++ [⟨.codegen, .error, message, span.startLine, span.startCol, span.file⟩] }
    | .error (.numeral reason) => throw (.numeral reason)
    | .error .endlessCore => throw .endlessCore

end Build

/-- Builds a program. -/
def BuildOrder.run (order : BuildOrder) : Build.Work Build := do
  let (entry, g) ← Build.graph order.source
  let program := g.merge entry
  let semantic ← Build.orFault .numeral
    (Build.analysisMessages order.source (program.analyze order.board))
  let messages := Build.graphMessages g ++ g.modules.flatMap Build.sourceMessages ++ semantic
  if messages.any (·.isError) then return { messages }
  else Build.generate order messages program

end SketchCompiler
