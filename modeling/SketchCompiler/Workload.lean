/-
Workloads: fixed uses of the compiler, each with a size, that exercise
one of its parts.  The result of a workload is a row of figures by which
two runs can be compared.
-/
import SketchCompiler.CommandLine
import SketchCompiler.Workload.Samples

namespace SketchCompiler

/-- A figure in the result of a workload. -/
inductive Figure where
  | count (n : Int)
  | label (text : String)
  deriving DecidableEq, Repr

/-- A workload: its name, the name of its size, the sizes it is run
with, and its result. -/
structure Workload where
  name : String
  parameter : String := "n_units"
  sizes : List Nat
  run : Nat → List Figure

namespace Workload

/-- A figure that counts. -/
def counted (n : Nat) : Figure :=
  .count n

-- ==== front end

/-- Tokens and errors of a text. -/
def scanCounts (text : String) : Nat × Nat :=
  match Token.scan text with
  | .ok scanned => (scanned.tokens.length, scanned.errors.length)
  | .error _ => (0, 0)

/-- The source of a text; one that cannot be read is empty. -/
def sourceOf (text : String) : Source :=
  match Program.ofSource "<input>" text with
  | .ok source => source
  | .error _ => ⟨⟨⟨"<input>", 1, 1, 1, 1⟩, []⟩, [], []⟩

/-- The number of issues of a text for a board. -/
def issueCount (board text : String) : Nat :=
  ((sourceOf text).program.analyze board).issues.length

/-- Scanning: tokens and errors, those of a faulty text included. -/
def scanning (units : Nat) : List Figure :=
  let (tokens, errors) := scanCounts (program units)
  let (tokens', errors') := scanCounts strayCharacters
  [counted (tokens + tokens'), counted (errors + errors')]

/-- Parsing: declarations and errors, and the errors, declarations and
stray characters of a faulty text. -/
def parsing (units : Nat) : List Figure :=
  let good := sourceOf (program units)
  let broken := sourceOf brokenDeclarations
  [counted good.program.declarations.length, counted good.parseErrors.length,
   counted broken.parseErrors.length, counted broken.program.declarations.length,
   counted broken.scanErrors.length]

/-- Analysis: the issues for each board and for one without a profile,
and those of a faulty program. -/
def analysing (units : Nat) : List Figure :=
  let text := program units
  [counted (issueCount "esp32" text), counted (issueCount "esp32s3_n16r8" text),
   counted (issueCount "unknown" text), counted (issueCount "esp32" (undefinedNames 80))]

/-- The generated code of a text; none if there is a fault. -/
def sketchOf (backend : Backend) (text : String) : Sketch :=
  match (sourceOf text).program.sketch backend with
  | .ok sketch => sketch
  | .error _ => ⟨[], {}⟩

/-- Generation: the lengths of the code for two families, and the number
of lines with an origin. -/
def generating (units : Nat) : List Figure :=
  let esp32 := sketchOf .esp32 (program units)
  let generic := sketchOf .generic (genericProgram units)
  [counted esp32.code.length, counted generic.code.length, counted esp32.lineMap.length]

-- ==== files

/-- A tree of the given files in a directory of their own. -/
def treeOf (files : List (String × String)) : FileTree :=
  files.foldl (fun t (path, text) => t.add (.ofString path) (.file (.text text)))
    (.empty (.ofString "/work"))

/-- A build in a tree. -/
def buildIn (tree : FileTree) (source target : String) : Build :=
  let order : BuildOrder :=
    { source := .ofString source, output := .ofString "build/main.cpp", target }
  match (order.run.run tree).1 with
  | .ok build => build
  | .error _ => { messages := [] }

/-- The files that builds are made from. -/
def buildFiles (units : Nat) : FileTree :=
  treeOf [("main.myext", program units), ("helper.myext", helper),
    ("bad.myext", undefinedNames 79), ("light.myext", colourLight)]

/-- Builds: the messages of a sound program, of a faulty one and of one
that its target cannot run, and the lines with an origin. -/
def building (units : Nat) : List Figure :=
  let tree := buildFiles units
  let good := buildIn tree "main.myext" "esp32"
  [counted good.messages.length, counted (buildIn tree "bad.myext" "esp32").messages.length,
   counted (buildIn tree "light.myext" "generic").messages.length, counted good.lineMap.length]

/-- A chain of modules.  All import a common one; the first imports two
that import each other, and one that does not exist. -/
def chain (count : Nat) : FileTree :=
  let link (i : Nat) : String × String :=
    (s!"link{i}.myext",
      "import \"common\";\n"
        ++ (if i + 1 < count then s!"import \"link{i + 1}\";\n" else "")
        ++ (if i == 0 then "import \"ring_a\";\nimport \"missing\";\n" else ""))
  if count == 0 then treeOf []
  else treeOf ((List.range count).map link
    ++ [("common.myext", "let common = 1;\n"), ("ring_a.myext", "import \"ring_b\";\n"),
        ("ring_b.myext", "import \"ring_a\";\n")])

/-- Module graphs: modules, their order, and issues. -/
def resolving (modules : Nat) : List Figure :=
  let visit := ModuleGraph.addEntry (chain modules) ModuleGraph.defaultExtension
    (.ofString "link0.myext")
  let g := (visit.run {}).2
  [counted g.modules.length, counted g.order.length, counted g.issues.length]

-- ==== command line

/-- What the toolchain prints in the workload: values with a message, an
error or neither, a diagnostic, and plain text. -/
def toolOutput : String :=
  "\x7b\"level\": \"info\", \"message\": \"compiling\"\x7d\n\x7b\"error\": \"none\"\x7d\n"
    ++ "\x7b\"sizes\": [1, 2]\x7d\n[1, 2]\nmain_sketch.ino:30:1: warning: unused\ndone\n"

/-- Runs the command line in a tree; the result is the exit code and the
tree afterwards. -/
def runIn (tree : FileTree) (runs : List ToolRun) (args : List String) : Int × FileTree :=
  match Request.ofArguments args with
  | .error _ => (2, tree)
  | .ok request =>
    match request.run.run { tree, runs } with
    | (.ok exit, s) => (exit, s.tree)
    | (.error _, s) => (1, s.tree)

/-- The command line: the exit codes of checks, generations and builds
of a sound and a faulty program, those of commands without a toolchain,
and the directory of the sketch. -/
def commanding (units : Nat) : List Figure :=
  let tree := buildFiles units
  let exit (runs : List ToolRun) (args : List String) : Figure := .count (runIn tree runs args).1
  let built := (runIn tree [{ output := toolOutput }] ["build", "main.myext"]).2
  let sketch := Command.sketchDirectory built.home (.ofString "build/main.cpp")
  [exit [] ["check", "main.myext"], exit [] ["check", "bad.myext"],
   exit [] ["transpile", "main.myext"], exit [] ["transpile", "bad.myext"],
   exit [{ output := toolOutput }] ["build", "main.myext"], exit [] ["build", "main.myext"],
   exit [] ["monitor", "--port", "P"],
   .label (if built.exists? sketch then sketch.name else "")]

/-- All workloads, by name. -/
def all : List Workload :=
  [{ name := "cli_commands", sizes := [1, 3, 10], run := commanding },
   { name := "codegen_generate", sizes := [2, 8, 30], run := generating },
   { name := "full_pipeline", sizes := [1, 4, 15], run := building },
   { name := "lexer_tokenize", sizes := [5, 20, 80], run := scanning },
   { name := "module_graph", parameter := "n_modules", sizes := [10, 30, 100], run := resolving },
   { name := "parser_parse", sizes := [2, 8, 30], run := parsing },
   { name := "semantic_analyze", sizes := [2, 8, 30], run := analysing }]

/-- The workload of a name. -/
def ofName? (name : String) : Option Workload :=
  all.find? (·.name == name)

end Workload

end SketchCompiler
