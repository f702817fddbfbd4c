/-
Diagnostics of the board's toolchain.  A line of its output that names a
place in the generated code is told again with the place in the source
that the generated line comes from.
-/
import SketchCompiler.Path
import SketchCompiler.Sketch
import SketchCompiler.Text.Points

namespace SketchCompiler

open Text (Point Points)

/-- A diagnostic as the toolchain words it, its numbers as written. -/
structure Diagnostic where
  path : Points
  line : String
  column : String
  kind : String
  message : Points
  deriving DecidableEq, Repr

/-- Why a text of the toolchain cannot be told: no file has a path with
such a point, a number is too long, or a half would have to be printed. -/
inductive DiagnosticFault where
  | path (point : Point)
  | numeral (reason : NumeralError)
  | half

/-- The wording of a fault. -/
def DiagnosticFault.message : DiagnosticFault → String
  | path (.char _) => "embedded null byte"
  | numeral reason => reason.message
  | path (.half _) | half => "surrogates not allowed"

namespace Diagnostic

/-- The points that a path is made of. -/
def inPath (p : Point) : Bool :=
  p != .char ':' && p != .char '\n'

/-- A path at the start of a text and what follows the colon behind it:
one that starts with a drive letter, or the path of a sketch file. -/
def pathAt (ps : Points) : Option (Points × Points) :=
  match ps with
  | .char drive :: .char ':' :: rest =>
    let names := rest.takeWhile inPath
    match rest.drop names.length with
    | .char ':' :: behind =>
      if drive.isAlpha && !names.isEmpty then
        some (.char drive :: .char ':' :: names, behind)
      else none
    | _ => none
  | _ =>
    let path := ps.takeWhile inPath
    match ps.drop path.length with
    | .char ':' :: behind =>
      if 5 ≤ path.length && (Points.ofString ".ino").isSuffixOf path then some (path, behind)
      else none
    | _ => none

/-- A number at the start of a text and what follows the colon behind it. -/
def numberAt (ps : Points) : Option (String × Points) :=
  let digits := ps.takeWhile (·.is Text.isDecimal)
  match ps.drop digits.length with
  | .char ':' :: behind => if digits.isEmpty then none else some (Points.legible digits, behind)
  | _ => none

/-- The kind of a diagnostic at the start of a text and what follows the
colon behind it. -/
def kindAt (ps : Points) : Option (String × Points) :=
  ["error", "warning"].findSome? fun kind =>
    let word := Points.ofString (kind ++ ":")
    if word.isPrefixOf ps then some (kind, ps.drop word.length) else none

/-- The text without the blanks at its start. -/
def behindBlanks (ps : Points) : Points :=
  ps.dropWhile (·.is Text.isBlank)

/-- A diagnostic that starts with the text. -/
def startingAt (ps : Points) : Option Diagnostic := do
  let (path, rest) ← pathAt ps
  let (line, rest) ← numberAt rest
  let (column, rest) ← numberAt rest
  let (kind, rest) ← kindAt (behindBlanks rest)
  let message := (behindBlanks rest).takeWhile (· != .char '\n')
  return { path, line, column, kind, message }

/-- The first diagnostic in a text. -/
def find? : Points → Option Diagnostic
  | [] => none
  | p :: ps => (startingAt (p :: ps)).or (find? ps)

/-- A path may hold the point: a character other than null, or a half
that stands for a byte. -/
def nameable : Point → Bool
  | .char c => c != '\x00'
  | .half code => 0xDC80 ≤ code && code ≤ 0xDCFF

/-- The file that a diagnostic is about.  A half of its path stands as a
null character, which is in no other path. -/
def file (home : Path) (d : Diagnostic) : Path :=
  home.resolve (.ofString (String.ofList (d.path.map (·.charOr '\x00'))))

/-- A diagnostic told with the place in the source.  One about another
file, or about a line that comes from nowhere, is not told. -/
def retell (home sketch : Path) (map : LineMap) (level : Option String) (d : Diagnostic) :
    Except DiagnosticFault (Option Points) := do
  if let some point := d.path.find? (!nameable ·) then throw (.path point)
  let path := d.file home
  if !path.isWithin (home.resolve sketch) && path.suffix != ".ino" then return none
  else
    let line ← (Numeral.readInt .ten d.line).mapError .numeral
    let column ← (Numeral.readInt .ten d.column).mapError .numeral
    match map.lookup line.toNat with
    | none => return none
    | some origin =>
      let place := origin.file ++ ":" ++ toString origin.line ++ ":" ++ toString origin.column
      return some (.ofString ("[dsl-compile:" ++ level.getD d.kind ++ "] " ++ place ++ " ")
        ++ d.message
        ++ .ofString (" (generated:" ++ toString line ++ ":" ++ toString column ++ ")"))

end Diagnostic

/-- A text of the toolchain told with the place in the source, if it
holds a diagnostic that can be. -/
def retellText (home sketch : Path) (map : LineMap) (level : Option String) (text : Points) :
    Except DiagnosticFault (Option Points) :=
  match Diagnostic.find? text with
  | none => return none
  | some d => d.retell home sketch map level

/-- A line as it is printed; a half cannot be. -/
def printable (line : Points) : Except DiagnosticFault String :=
  if line.all (·.is fun _ => true) then .ok line.legible else .error .half

/-- The line that is printed for a text of the toolchain. -/
def toldLine (home sketch : Path) (map : LineMap) (level : Option String) (text : Points) :
    Except DiagnosticFault String := do
  let told ← retellText home sketch map level text
  let plain := .ofString ("[arduino-cli:" ++ level.getD "info" ++ "] ") ++ text
  printable (told.getD plain)

end SketchCompiler
