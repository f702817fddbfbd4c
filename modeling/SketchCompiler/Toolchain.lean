/-
Running the board's toolchain.  A session holds the file tree, the runs
that the toolchain will make, and what has been printed and started so
far.  A run is known by what it prints and how it ends.
-/
import SketchCompiler.Build
import SketchCompiler.Json.Reader
import SketchCompiler.Toolchain.Diagnostic

namespace SketchCompiler

/-- A run of the toolchain: its output and exit code, whether the user
interrupts it behind its output, and whether it then fails to stop. -/
structure ToolRun where
  output : String := ""
  exit : Int := 0
  interrupted : Bool := false
  stuck : Bool := false
  deriving DecidableEq, Repr

/-- What is done to a process. -/
inductive Call where
  | run (command : List String)
  | wait (seconds : Option Nat)
  | terminate
  | kill
  deriving DecidableEq, Repr

/-- The state of a command: the file tree, the runs still to come, the
lines printed, the calls made, and the files as they were at each attempt
to start a process. -/
structure Session where
  tree : FileTree
  runs : List ToolRun := []
  out : List String := []
  err : List String := []
  calls : List Call := []
  found : List FileTree := []

/-- Why a command ends without an exit code. -/
inductive CommandFault where
  | build (fault : BuildFault)
  | file (fault : FileFault)
  | numeral (reason : NumeralError)
  | diagnostic (fault : DiagnosticFault)
  | notString (typeText : String)

/-- A step of a command. -/
abbrev Command := ExceptT CommandFault (StateM Session)

namespace Command

/-- Prints a line. -/
def print (line : String) : Command Unit :=
  modify fun s => { s with out := s.out ++ [line] }

/-- Prints a line of complaint. -/
def complain (line : String) : Command Unit :=
  modify fun s => { s with err := s.err ++ [line] }

/-- Records a call. -/
def call (c : Call) : Command Unit :=
  modify fun s => { s with calls := s.calls ++ [c] }

/-- A step that may fail. -/
def orFault {ε α : Type} (fault : ε → CommandFault) : Except ε α → Command α
  | .ok a => pure a
  | .error e => throw (fault e)

/-- A change of the file tree. -/
def changeTree (change : FileTree → Except FileFault Unit × FileTree) : Command Unit := do
  let (outcome, tree) := change (← get).tree
  modify fun s => { s with tree }
  orFault .file outcome

/-- Writes a text to a file. -/
def writeFile (p : Path) (text : String) : Command Unit :=
  changeTree fun tree => tree.orUnchanged (tree.write p text)

-- ==== processes

/-- Starts the toolchain; `none` if there is no such program. -/
def start (command : List String) : Command (Option ToolRun) := do
  call (.run command)
  modify fun s => { s with found := s.found ++ [s.tree] }
  match (← get).runs with
  | [] => return none
  | run :: runs =>
    modify fun s => { s with runs }
    return some run

/-- Stops a run that was interrupted; one that does not stop in time is
killed. -/
def stop (run : ToolRun) (seconds : Nat) : Command Unit := do
  call .terminate
  call (.wait (some seconds))
  if run.stuck then
    call .kill
    call (.wait none)

/-- The complaint about a missing toolchain, and the exit code. -/
def toolMissing : Command Int := do
  complain ("[arduino-cli:error] 'arduino-cli' executable not found. "
    ++ "Install Arduino CLI and ensure it is on PATH.")
  return 127

/-- Prints a text of the toolchain, with the place in the source if it
holds a diagnostic. -/
def tell (sketch : Path) (map : LineMap) (level : Option String) (text : Text.Points) :
    Command Unit := do
  print (← orFault .diagnostic (toldLine (← get).tree.home sketch map level text))

/-- The message of a value that the toolchain prints: the first that is
present of its two fields for it, or the whole value. -/
def messageOf (payload : Json) : Json :=
  match (payload.get? "message").filter (·.isPresent) with
  | some message => message
  | none =>
    match (payload.get? "error").filter (·.isPresent) with
    | some message => message
    | none => .string payload.points

/-- The level of a value that the toolchain prints. -/
def levelOf (payload : Json) : String :=
  match payload.get? "level" with
  | some level => if ["error", "fatal"].contains (Text.lower level.text) then "error" else "info"
  | none => "info"

/-- Tells a line of the toolchain, which may be JSON. -/
def tellLine (sketch : Path) (map : LineMap) (line : String) : Command Unit := do
  let line := Text.trim line
  if line == "" then return ()
  match Json.read line with
  | .error (.numeral reason) => throw (.numeral reason)
  | .error (.syntactic _ _) => tell sketch map none (.ofString line)
  | .ok payload =>
    match messageOf payload with
    | .string message => tell sketch map (some (levelOf payload)) message
    | other => throw (.notString other.typeText)

/-- Runs the toolchain and tells what it prints. -/
def runTool (command : List String) (sketch : Path) (map : LineMap) : Command Int := do
  match ← start command with
  | none => toolMissing
  | some run =>
    (Text.outputLines run.output).forM (tellLine sketch map)
    if run.interrupted then
      complain "[arduino-cli:error] Build interrupted by user."
      stop run 5
      return 130
    else
      call (.wait none)
      return run.exit

/-- Shows what a board prints on a serial port. -/
def monitor (port : String) (baud : Int) : Command Int := do
  match ← start ["arduino-cli", "monitor", "-p", port, "--config",
    "baudrate=" ++ toString baud] with
  | none => toolMissing
  | some run =>
    print ("[arduino-cli:info] Opening serial monitor on " ++ port ++ " @ " ++ toString baud
      ++ " baud. Press Ctrl+C to exit.")
    ((Text.outputLines run.output).filter (· != "")).forM print
    if run.interrupted then
      stop run 3
      print "[arduino-cli:info] Serial monitor closed."
      return 0
    else
      call (.wait none)
      return run.exit

-- ==== sketches

/-- The directory of the sketch made from a file of generated code. -/
def sketchDirectory (home source : Path) : Path :=
  let source := home.resolve source
  source.parent.join ⟨"", [source.stem ++ "_sketch"]⟩

/-- Makes the sketch that the toolchain compiles: the generated code, and
the file that marks the directory as a sketch. -/
def makeSketch (source : Path) : Command Path := do
  let home := (← get).tree.home
  let sketch := sketchDirectory home source
  changeTree (·.makeDirectory sketch)
  let code ← orFault .file ((← get).tree.read (home.resolve source))
  writeFile (sketch.join ⟨"", ["nova_generated.cpp"]⟩) code
  writeFile (sketch.join ⟨"", [sketch.name ++ ".ino"]⟩)
    "// NOVA sketch stub. Implementation is in nova_generated.cpp\n"
  return sketch

/-- Compiles generated code for a board. -/
def compileSketch (source : Path) (fqbn : String) (map : LineMap) : Command Int := do
  let sketch ← makeSketch source
  runTool ["arduino-cli", "compile", "--fqbn", fqbn, "--format", "json", sketch.text] sketch map

/-- Uploads generated code to a board. -/
def uploadSketch (source : Path) (fqbn port : String) (map : LineMap) : Command Int := do
  let sketch ← makeSketch source
  runTool ["arduino-cli", "upload", "--fqbn", fqbn, "--port", port, "--format", "json", sketch.text]
    sketch map

end Command

end SketchCompiler
