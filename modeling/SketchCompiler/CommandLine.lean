/-
The command line: checking a program, generating its code, building it
with the board's toolchain, and watching a board's serial port.
-/
import SketchCompiler.CommandLine.Arguments
import SketchCompiler.Toolchain

namespace SketchCompiler

/-- What the command line asks for. -/
inductive Request where
  | check (order : BuildOrder)
  | transpile (order : BuildOrder)
  | build (order : BuildOrder) (fqbn : String) (upload : Bool) (port : Option String)
  | monitor (port : String) (baud : Int)
  deriving DecidableEq, Repr

namespace Request

-- ==== arguments

/-- The option that asks for help. -/
def helpOption : OptionSpec :=
  { names := ["-h", "--help"], kind := .help }

/-- The option for the family of code. -/
def targetOption : OptionSpec :=
  { names := ["--target"], kind := .choice ["esp32", "generic"] }

/-- The option for the board. -/
def boardOption : OptionSpec :=
  { names := ["--board"], kind := .choice (boards.map (·.name)) }

/-- The option for the file of generated code. -/
def outOption : OptionSpec :=
  { names := ["--out"], kind := .text }

/-- The arguments of the program itself. -/
def mainUsage : Usage :=
  { program := "mycompiler", options := [helpOption]
    operand := .command "command" ["check", "transpile", "build", "monitor"] }

/-- The arguments of a command. -/
def usageOf : String → Usage
  | "check" =>
    { program := "mycompiler check", options := [helpOption, targetOption, boardOption]
      operand := .value "input" }
  | "transpile" =>
    { program := "mycompiler transpile"
      options := [helpOption, outOption, targetOption, boardOption], operand := .value "input" }
  | "build" =>
    { program := "mycompiler build"
      options := [helpOption, outOption, { names := ["--fqbn"], kind := .text },
        { names := ["--port"], kind := .text }, { names := ["--upload"], kind := .switch },
        targetOption, boardOption]
      operand := .value "input" }
  | _ =>
    { program := "mycompiler monitor"
      options := [helpOption, { names := ["--port"], kind := .text, required := true },
        { names := ["--baud"], kind := .integer }]
      operand := .none }

/-- The file that code is written to unless another is named. -/
def defaultOutput : String := "build/main.cpp"

/-- The build that arguments ask for. -/
def buildOrder (p : Usage.Parsed) : BuildOrder :=
  { source := .ofString (p.operand.getD "")
    output := .ofString ((p.get? "--out").getD defaultOutput)
    target := (p.get? "--target").getD "esp32"
    board := (p.get? "--board").getD "esp32" }

/-- The request of a command with its arguments. -/
def ofParsed (command : String) (p : Usage.Parsed) : Request :=
  match command with
  | "check" => .check (buildOrder p)
  | "transpile" => .transpile (buildOrder p)
  | "build" =>
    .build (buildOrder p) ((p.get? "--fqbn").getD "esp32:esp32:esp32")
      (p.get? "--upload").isSome (p.get? "--port")
  | _ =>
    let baud := match p.get? "--baud" with
      | some text => (Numeral.readInt .ten text).toOption.getD 0
      | none => 115200
    .monitor ((p.get? "--port").getD "") baud

/-- The request that arguments make. -/
def ofArguments (args : List String) : Except Refusal Request := do
  let outer ← mainUsage.parse args
  let (command, args) := outer.command.getD ("", [])
  let inner ← (usageOf command).parse args
  match outer.extras ++ inner.extras with
  | [] => return ofParsed command inner
  | extras => throw (.usage mainUsage.program (.unrecognized extras))

/-- The paths that a request may read or write, those of imported modules
aside. -/
def places (home : Path) : Request → List Path
  | check order | transpile order => orderPlaces order
  | build order _ _ _ =>
    let sketch := Command.sketchDirectory home order.output
    orderPlaces order ++ [sketch, sketch.join ⟨"", ["nova_generated.cpp"]⟩,
      sketch.join ⟨"", [sketch.name ++ ".ino"]⟩]
  | monitor _ _ => []
where
  /-- The source, the output and the directories above it. -/
  orderPlaces (order : BuildOrder) : List Path :=
    order.source :: (List.range (order.output.names.length + 1)).map fun n =>
      { order.output with names := order.output.names.take n }

-- ==== running

/-- Prints messages, errors as complaints. -/
def printMessages (messages : List Message) : Command Unit :=
  messages.forM fun m => if m.isError then Command.complain m.text else Command.print m.text

/-- Builds and prints the messages. -/
def buildAndPrint (order : BuildOrder) : Command Build := do
  let (result, tree) := order.run.run (← get).tree
  modify fun s => { s with tree }
  let build ← Command.orFault .build result
  printMessages build.messages
  return build

/-- Carries a request out; the result is the exit code. -/
def run : Request → Command Int
  | check order => do
    let build ← buildAndPrint order
    return if build.failed then 1 else 0
  | transpile order => do
    let build ← buildAndPrint order
    if build.failed then return 1
    Command.print ("Generated C++: " ++ order.output.text ++ " (target=" ++ order.target
      ++ ", board=" ++ order.board ++ ")")
    return 0
  | build order fqbn upload port => do
    let build ← buildAndPrint order
    if build.failed then return 1
    let compiled ← Command.compileSketch order.output fqbn build.lineMap
    if compiled != 0 then return compiled
    if !upload then return 0
    match port.filter (· != "") with
    | none =>
      Command.complain "--upload requires --port"
      return 2
    | some port => Command.uploadSketch order.output fqbn port build.lineMap
  | monitor port baud => Command.monitor port baud

end Request

end SketchCompiler
