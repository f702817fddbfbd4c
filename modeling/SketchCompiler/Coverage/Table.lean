/-
The coverage table: for each file how many statements there are, how
many were missed, and which lines.  The files covered least come first,
of those alike the longer ones.
-/
import SketchCompiler.Coverage.Data
import SketchCompiler.Path
import SketchCompiler.Text.Pad

namespace SketchCompiler.Coverage

/-- The coverage of a file. -/
structure FileCoverage where
  name : String
  statements : Int
  missed : Int
  percent : Float
  missedLines : List String

/-- The coverage of a program. -/
structure Summary where
  percent : Float
  covered : Int
  statements : Int
  files : List FileCoverage
  errors : List (String × String)

/-- The directory whose files are measured. -/
def root : Path := .ofString "/repo"

/-- The name of a file as seen from the measured directory. -/
def relativeName (name : String) : String :=
  let p := Path.ofString name
  if p.root == "" then name
  else
    let target := (root.resolve p).names
    let shared := ((target.zip root.names).takeWhile fun (a, b) => a == b).length
    let up := List.replicate (root.names.length - shared) ".."
    match up ++ target.drop shared with
    | [] => "."
    | names => "/".intercalate names

/-- The widest that a name is shown. -/
def nameLimit : Nat := 60

/-- The coverage of a file from its data. -/
def FileCoverage.ofJson (name : String) (j : Json) : Except DataFault FileCoverage := do
  let summary := orEmpty (← field "summary" j)
  return {
    name := String.ofList ((relativeName name).toList.take nameLimit)
    statements := ← intField "num_statements" summary
    missed := ← intField "missing_lines" summary
    percent := ← floatField "percent_covered" summary
    missedLines := (← sequenceOf (← field "missing_lines" j)).map (·.text) }

/-- The coverage of a program from its data. -/
def Summary.ofJson (j : Json) : Except DataFault Summary := do
  let totals := orEmpty (← field "totals" j)
  let percent ← floatField "percent_covered" totals
  let covered ← intField "covered_lines" totals
  let statements ← intField "num_statements" totals
  let files ← fieldsOf (← field "files" j)
  let details := orEmpty (← field "meta" j)
  let errors ← fieldsOf (← field "_pti_bench_errors" details)
  return {
    percent, covered, statements
    files := ← files.mapM fun (name, data) => FileCoverage.ofJson name data
    errors := errors.map fun (name, error) => (name, error.text) }

/-- The first file comes before the second, or may. -/
def FileCoverage.atMost (a b : FileCoverage) : Bool :=
  a.percent < b.percent
    || (a.percent == b.percent && b.statements ≤ a.statements)

/-- A percentage without places. -/
def wholePercent (x : Float) : String :=
  Decimal.fixed 0 x ++ "%"

/-- The columns of a row but the last. -/
def columns (width : Nat) (name statements missed cover : String) : String :=
  Text.padRight width name ++ "  " ++ Text.padLeft 5 statements ++ "  " ++ Text.padLeft 4 missed
    ++ "  " ++ Text.padLeft 5 cover

/-- The lines that were missed, at most twelve of them. -/
def missedText (lines : List String) : String :=
  ",".intercalate (lines.take 12) ++ if 12 < lines.length then "…" else ""

/-- The width of the names; without files that of the heading. -/
def Summary.nameWidth (s : Summary) : Nat :=
  if s.files.isEmpty then "Name".length
  else s.files.foldl (fun w f => max w f.name.length) 0

/-- The table of a program's coverage. -/
def Summary.table (s : Summary) : List String :=
  let width := s.nameWidth
  let rule := String.ofList (List.replicate (width + 42) '-')
  let row (f : FileCoverage) : String :=
    columns width f.name (toString f.statements) (toString f.missed) (wholePercent f.percent)
      ++ "  " ++ missedText f.missedLines
  [columns width "Name" "Stmts" "Miss" "Cover" ++ "  Missing", rule]
    ++ (s.files.mergeSort FileCoverage.atMost).map row
    ++ [rule, columns width "TOTAL" (toString s.statements) (toString (s.statements - s.covered))
          (wholePercent s.percent), ""]

/-- The errors that benchmarks ended in, at most eight of them. -/
def Summary.errorLines (s : Summary) : List String :=
  if s.errors.isEmpty then []
  else
    (toString s.errors.length ++ " bench error(s):")
      :: (s.errors.take 8).map (fun (name, error) => "  " ++ name ++ ": " ++ error) ++ [""]

end SketchCompiler.Coverage
