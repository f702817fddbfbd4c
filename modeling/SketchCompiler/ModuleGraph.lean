/-
Module graphs: the sources that an entry reaches through its imports.
Modules are visited depth first, each one once.  A module comes behind
those it imports in the order of the graph; an import of a module that
is still being visited closes a cycle and is reported.

A graph can be extended by further entries.  When a visit fails, the
modules on the way to the failure stay marked as being visited.
-/
import SketchCompiler.FileTree
import SketchCompiler.Program.OfTokens

namespace SketchCompiler

/-- An import and where it is written. -/
structure Import where
  path : String
  span : Span
  deriving DecidableEq, Repr

/-- A module: the source at a path. -/
structure Module where
  path : Path
  source : Source

/-- The path of the import has a null character. -/
def Import.hasNull (i : Import) : Bool :=
  i.path.toList.contains '\x00'

/-- The imports of a program's top level, in order. -/
def Program.imports (p : Program) : List Import :=
  p.declarations.filterMap fun
    | .importDecl span path => some ⟨path, span⟩
    | _ => none

/-- The imports of a module. -/
def Module.imports (m : Module) : List Import :=
  m.source.program.imports

/-- What can be wrong with a graph. -/
inductive GraphFinding where
  | notFound
  | unresolved (path : String)
  | cycleAt (name : String)
  | cycleThrough (path : String)
  deriving DecidableEq, Repr

/-- The wording of a finding. -/
def GraphFinding.message : GraphFinding → String
  | notFound => "Module file not found"
  | unresolved path => "Unable to resolve import '" ++ path ++ "'"
  | cycleAt name => "Circular import detected at '" ++ name ++ "'"
  | cycleThrough path => "Circular import detected while importing '" ++ path ++ "'"

/-- A finding and the place it is reported at. -/
structure GraphIssue where
  finding : GraphFinding
  file : String
  line : Nat := 1
  column : Nat := 1
  deriving DecidableEq, Repr

/-- Why a module cannot be read, or one of its imports not be looked for:
no file has a path with a null character. -/
inductive ModuleFault where
  | file (fault : FileFault)
  | source (fault : SourceFault)
  | nullInPath

/-- The modules reached so far, in the order they were reached; the
paths of those finished, in dependency order; the paths of those still
being visited; and the findings. -/
structure ModuleGraph where
  modules : List Module := []
  order : List Path := []
  visiting : List Path := []
  issues : List GraphIssue := []

namespace ModuleGraph

/-- The module at a path. -/
def module? (g : ModuleGraph) (p : Path) : Option Module :=
  g.modules.find? (·.path == p)

/-- The paths that an import in a directory may mean, the preferred one
first.  A name with an ending is taken as it stands. -/
def candidates (extension : String) (directory : Path) (path : String) : List Path :=
  if (Path.ofString path).suffix != "" then [directory.resolve (.ofString path)]
  else [path ++ extension, path ++ ".nova", path].map fun p => directory.resolve (.ofString p)

/-- The module that an import in a directory means. -/
def resolveImport (t : FileTree) (extension : String) (directory : Path) (path : String) :
    Option Path :=
  (candidates extension directory path).find? t.exists?

/-- Reads the module at a path. -/
def load (t : FileTree) (p : Path) : Except ModuleFault Module := do
  let text ← (t.read p).mapError .file
  let source ← (Program.ofSource p.text text).mapError .source
  return { path := p, source }

/-- A visit extends the graph, also when it fails. -/
abbrev Visit := ExceptT ModuleFault (StateM ModuleGraph)

/-- Reports a finding. -/
def report (issue : GraphIssue) : Visit Unit :=
  modify fun g => { g with issues := g.issues ++ [issue] }

/-- A finding about an import of the module at a path, reported at the
place of the import. -/
def issueAt (p : Path) (i : Import) (finding : GraphFinding) : GraphIssue :=
  ⟨finding, p.text, i.span.startLine, i.span.startCol⟩

/-- Follows an import of the module at a path. -/
def visitImport (t : FileTree) (extension : String) (visit : Path → Visit Unit) (p : Path)
    (i : Import) : Visit Unit :=
  if i.hasNull then throw .nullInPath
  else match resolveImport t extension p.parent i.path with
  | none => report (issueAt p i (.unresolved i.path))
  | some target => do
    if (← get).visiting.contains target then report (issueAt p i (.cycleThrough i.path))
    else visit target

/-- Follows the imports of the module at a path, one after the other. -/
def visitImports (t : FileTree) (extension : String) (visit : Path → Visit Unit) (p : Path) :
    List Import → Visit Unit
  | [] => pure ()
  | i :: rest => do
    visitImport t extension visit p i
    visitImports t extension visit p rest

/-- Visits the module at a path and those it imports.  The bound limits
how many modules are visited one inside the other. -/
def visit (t : FileTree) (extension : String) : Nat → Path → Visit Unit
  | 0, _ => pure ()
  | bound + 1, p => do
    let g ← get
    if g.order.contains p then pure ()
    else if g.visiting.contains p then report ⟨.cycleAt p.name, p.text, 1, 1⟩
    else if !t.exists? p then report ⟨.notFound, p.text, 1, 1⟩
    else
      modify fun g => { g with visiting := p :: g.visiting }
      let m ← load t p
      modify fun g => { g with modules := g.modules ++ [m] }
      visitImports t extension (visit t extension bound) p m.imports
      modify fun g => { g with visiting := g.visiting.erase p, order := g.order ++ [p] }

/-- The ending of module files that need not be written. -/
def defaultExtension : String := ".myext"

/-- The paths that the imports of the module at a path may mean. -/
def importPlaces (t : FileTree) (p : Path) : List Path :=
  match load t p with
  | .error _ => []
  | .ok m => m.imports.flatMap fun i => candidates defaultExtension p.parent i.path

/-- Extends a graph by an entry.  Modules visited one inside the other
are different entries of the tree, so a visit is never cut short. -/
def addEntry (t : FileTree) (extension : String) (entry : Path) : Visit Path := do
  let root := t.home.resolve entry
  visit t extension (t.entries.length + 2) root
  return root

/-- The declarations of all modules in dependency order, without their
imports.  The span is that of the entry. -/
def merge (g : ModuleGraph) (entry : Path) : Program :=
  let declarations := g.order.flatMap fun p =>
    match g.module? p with
    | none => []
    | some m => m.source.program.declarations.filter fun
      | .importDecl .. => false
      | _ => true
  let span := match g.module? entry with
    | some m => m.source.program.span
    | none => { file := entry.text }
  { span, declarations }

end ModuleGraph

end SketchCompiler
