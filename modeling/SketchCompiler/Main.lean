/-
The program: reads the files that a request touches, carries the request
out, and writes what has changed.
-/
import SketchCompiler.CommandLine

namespace SketchCompiler

/-- Adds what stands at a path on disk to the tree. -/
def loadPlace (t : FileTree) (p : Path) : IO FileTree := do
  let place := (← IO.currentDir) / p.text
  if ← place.isDir then return t.add p .directory
  else if ← place.pathExists then
    return t.add p (.file (.ofBytes (← IO.FS.readBinFile place).toList))
  else return t

/-- Adds what stands at the paths, and the modules they import, to the
tree. -/
partial def loadPlaces (t : FileTree) (seen : List Path) : List Path → IO FileTree
  | [] => return t
  | p :: rest => do
    let p := t.home.resolve p
    if seen.contains p then loadPlaces t seen rest
    else
      let t ← loadPlace t p
      loadPlaces t (p :: seen) (rest ++ ModuleGraph.importPlaces t p)

/-- Makes the directories of a tree that are new, and writes the files
that were changed. -/
def storeChanges (before after : FileTree) : IO Unit := do
  for names in after.directoriesSince before do
    IO.FS.createDirAll (Path.text ⟨"/", names⟩)
  for (names, content) in after.changedFrom before do
    if let .text s := content then
      let p : Path := ⟨"/", names⟩
      IO.FS.createDirAll p.parent.text
      IO.FS.writeFile p.text s

/-- The wording of a fault that ends a command. -/
def CommandFault.message : CommandFault → String
  | build (.module (.file f)) | build (.file f) | file f => f.message
  | build (.module (.source (.numeral reason))) | build (.numeral reason) | numeral reason =>
    reason.message
  | build (.module (.source (.scan .danglingEscape))) => "string index out of range"
  | build (.module (.source .nestedTooDeep)) => "nested too deep"
  | build (.module .nullInPath) => "embedded null byte"
  | build (.unknownTarget target) => SketchCompiler.unknownTarget target
  | build .endlessCore => EmitFault.endlessCore.message
  | diagnostic fault => fault.message
  | notString typeText => "expected a string, got '" ++ typeText ++ "'"

/-- Carries a request out on disk. -/
def carryOut (request : Request) : IO UInt32 := do
  let home := Path.ofString (← IO.currentDir).toString
  let before ← loadPlaces (.empty home) [] (request.places home)
  let (outcome, s) := request.run.run { tree := before }
  storeChanges before s.tree
  s.out.forM fun line => IO.println line
  s.err.forM fun line => IO.eprintln line
  match outcome with
  | .ok exit => return UInt32.ofNat (exit % 256).toNat
  | .error fault =>
    IO.eprintln fault.message
    return 1

end SketchCompiler

open SketchCompiler in
/-- The command line of the compiler. -/
def main (args : List String) : IO UInt32 := do
  match Request.ofArguments args with
  | .ok request => carryOut request
  | .error (.help program) =>
    IO.println ("usage: " ++ program ++ " [-h] ...")
    return 0
  | .error (.usage program issue) =>
    IO.eprintln (program ++ ": error: " ++ issue.message)
    return 2
