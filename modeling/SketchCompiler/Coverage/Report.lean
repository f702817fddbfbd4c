/-
The report on the coverage that benchmarks reach: coverage is measured
by a tool, further tools look at where the time goes and at what the
benchmarks return, and all is printed and added to the history.  A
further tool that fails is mentioned and otherwise passed over.
-/
import SketchCompiler.Coverage.History
import SketchCompiler.Coverage.RepoTime
import SketchCompiler.Coverage.SelfCheck
import SketchCompiler.Coverage.Table
import SketchCompiler.FileTree
import SketchCompiler.Json.Writer

namespace SketchCompiler.Coverage

/-- The tools that a report runs. -/
inductive Tool where
  | coverage
  | repoTime
  | changes
  | selfCheck
  deriving DecidableEq, Repr

/-- The patterns of files that are not measured. -/
def omitted : List String :=
  ["*/microbench.py", "*/_pti_*.py", "*/setup.py", "*/conftest.py", "*/test_*.py", "*/*_test.py",
   "*/tests/*", "*/test/*", "*/__tests__/*", "*/__fixtures__/*", "*/_version.py"]

/-- The files of the measured directory that a report uses. -/
def coverageFile : String := "/repo/_pti_coverage.json"

/-- The file with the benchmarks. -/
def benchFile : String := "/repo/microbench.py"

/-- The file with the history. -/
def historyFile : String := "/repo/.pti_checkpoint.jsonl"

/-- The file of a tool. -/
def Tool.file : Tool → String
  | coverage => "/repo/_pti_cov_runner.py"
  | repoTime => "/repo/_pti_repotime.py"
  | changes => "git"
  | selfCheck => "/repo/_pti_semcheck.py"

/-- The arguments a tool is run with; the first of a tool of our own is
the interpreter. -/
def Tool.command : Tool → List String
  | coverage =>
    ["python", coverage.file, "/repo", "microbench", coverageFile,
     Json.write (.array (omitted.map .ofString))]
  | repoTime => ["python", repoTime.file]
  | changes =>
    [changes.file, "-C", "/repo", "status", "--porcelain", "--", ".", ":!microbench.py", ":!_pti_*",
     ":!.pti_*", ":!.coverage"]
  | selfCheck => ["python", selfCheck.file]

/-- The seconds a tool may take. -/
def Tool.seconds : Tool → Option Nat
  | coverage => none
  | repoTime => some 120
  | changes => some 30
  | selfCheck => some 300

/-- What a run of a tool gives: its output, its complaints, its exit code
and the files it has made; or the reason it could not be run. -/
inductive ToolResult where
  | ended (out err : String) (exit : Int) (made : List (Path × Content))
  | failed (text : String)

/-- What a report is made from: the runs of the tools, the two readings
of the stopwatch, and the time. -/
structure Setting where
  run : Tool → ToolResult
  started : Number
  stopped : Number
  now : Number

/-- The state of a report: the files, what was printed, and the tools
that were run. -/
structure State where
  tree : FileTree
  out : List String := []
  err : List String := []
  calls : List Tool := []

/-- Why a report is not finished: the coverage could not be measured, or
its data cannot be used. -/
inductive ReportFault where
  | notMeasured (exit : Int)
  | data (fault : DataFault)
  | file (fault : FileFault)

/-- A step of a report. -/
abbrev Report := ExceptT ReportFault (StateM State)

namespace Report

/-- Prints lines. -/
def print (lines : List String) : Report Unit :=
  modify fun s => { s with out := s.out ++ lines.map (· ++ "\n") }

/-- Prints a complaint as it stands. -/
def complain (text : String) : Report Unit :=
  modify fun s => { s with err := s.err ++ [text] }

/-- Something stands at a path. -/
def isThere (path : String) : Report Bool := do
  return (← get).tree.exists? (.ofString path)

/-- The text of a file. -/
def read (path : String) : Report String := do
  match (← get).tree.read (.ofString path) with
  | .ok text => return text
  | .error fault => throw (.file fault)

/-- Runs a tool; the files it has made are kept. -/
def runTool (setting : Setting) (tool : Tool) : Report ToolResult := do
  modify fun s => { s with calls := s.calls ++ [tool] }
  let result := setting.run tool
  match result with
  | .ended _ _ _ made =>
    modify fun s =>
      { s with tree := made.foldl (fun t (p, content) => t.add p (.file content)) s.tree }
    return result
  | .failed _ => return result

-- ==== tools

/-- Measures the coverage. -/
def measure (setting : Setting) : Report Summary := do
  match ← runTool setting .coverage with
  | .failed text => throw (.data (.system text))
  | .ended out err exit _ =>
    complain err
    if exit != 0 || !(← isThere coverageFile) then
      print ["coverage measurement failed (exit " ++ toString exit ++ ")", out]
      throw (.notMeasured (if exit == 0 then 1 else exit))
    let data ← read coverageFile
    match readJson data >>= Summary.ofJson with
    | .ok summary => return summary
    | .error fault => throw (.data fault)

/-- The complaint about a tool whose data cannot be used. -/
def mention (name : String) (fault : DataFault) : Report Unit :=
  complain ("[" ++ name ++ " runner: " ++ fault.kind ++ ": " ++ fault.message ++ "]\n")

/-- The data on the last line that a tool prints, if there is any. -/
def lastLine (out : String) : Except DataFault (Option Json) :=
  match (Text.splitLines out).getLast? with
  | none => return none
  | some line => if line == "" then return none else return some (← readJson line)

/-- The data that a tool gives, if there is any. -/
def toolData (setting : Setting) (tool : Tool) (name : String) : Report (Option Json) := do
  match ← runTool setting tool with
  | .failed text =>
    mention name (.system text)
    return none
  | .ended out err _ _ =>
    complain err
    match lastLine out with
    | .ok data => return data
    | .error fault =>
      mention name fault
      return none

/-- Where the time of the benchmarks goes. -/
def repoTime (setting : Setting) : Report RepoTime := do
  if !(← isThere Tool.repoTime.file) then return {}
  match ← toolData setting .repoTime "repotime" with
  | none => return {}
  | some data =>
    match RepoTime.ofJson data with
    | .ok r => return r
    | .error fault =>
      mention "repotime" fault
      return {}

/-- The files of the measured directory that were changed. -/
def changedFiles (setting : Setting) : Report (List String) := do
  match ← runTool setting .changes with
  | .failed _ => return []
  | .ended out _ _ _ =>
    return ((Text.splitLines out).filter fun line => Text.trim line != "").map fun line =>
      String.ofList (line.toList.drop 3)

/-- The verdicts on the benchmarks, and the files that were changed. -/
def selfCheck (setting : Setting) : Report (List Checked × List String) := do
  if !(← isThere Tool.selfCheck.file) then return ([], [])
  let changed ← changedFiles setting
  match ← toolData setting .selfCheck "semcheck" with
  | none => return ([], changed)
  | some data =>
    match field "semcheck" data >>= fieldsOf with
    | .error fault =>
      mention "semcheck" fault
      return ([], changed)
    | .ok fields =>
      let (checks, fault) := Checked.ofFields (!changed.isEmpty) fields
      if let some fault := fault then mention "semcheck" fault
      return (checks, changed)

-- ==== results

/-- The character may stand in a name. -/
def inName (c : Char) : Bool :=
  Text.isAlphanumeric c || c == '_'

/-- How many benchmarks a text defines at the start of its lines. -/
def benchCount (text : String) : Nat :=
  ((text.splitOn "\n").filter fun line =>
    let start := "def bench_".toList
    start.isPrefixOf line.toList
      && (line.toList.drop start.length).head?.any inName).length

/-- The number of benchmarks. -/
def benches : Report Nat := do
  if ← isThere benchFile then return benchCount (← read benchFile) else return 0

/-- The history and the text that holds it.  A file that cannot be read
leaves it incomplete. -/
def history : Report (History × String) := do
  match (← get).tree.entry? (Path.ofString historyFile).names with
  | some (.file (.text text)) => return (.ofText (Text.withLineFeeds text), text)
  | some _ => return ({ complete := false }, "")
  | none => return ({}, "")

/-- Adds a line of data to the history. -/
def record (before : String) (data : Json) : Report Unit :=
  let content : Content := .text (before ++ data.write ++ "\n")
  modify fun s => { s with tree := s.tree.add (.ofString historyFile) (.file content) }

/-- The last lines of a report. -/
def closing (round benches : Nat) (summary : Summary) (time : RepoTime) (checks : List Checked)
    (elapsed : Number) (stop : Option String) : List String :=
  let parts :=
    [toString benches ++ " benches", Decimal.fixed 1 summary.percent ++ "% covered"]
      ++ (if time.shares.isEmpty then []
          else [toString time.below ++ "/" ++ toString time.valid.length ++ " below repo_time 45%"])
      ++ (if checks.isEmpty then []
          else [toString (Checked.failing checks) ++ "/" ++ toString checks.length
            ++ " not self-checking"])
      ++ ["measured in " ++ Decimal.fixed 1 elapsed.toFloat ++ "s"]
  ["[round " ++ toString round ++ ": " ++ ", ".intercalate parts ++ "]"]
    ++ match stop with
      | none => []
      | some reason =>
        ["", ">>> STOP: repo_time converged (" ++ reason ++ "). Finalize microbench.py now. <<<"]

/-- The data of a round. -/
def roundData (round benches : Nat) (now since elapsed : Number) (summary : Summary)
    (time : RepoTime) (checks : List Checked) : Json :=
  .ofFields [
    ("round", .int round), ("ts", now.toJson), ("wall_since_prev_s", since.toJson),
    ("coverage_pct", .float summary.percent), ("covered_lines", .int summary.covered),
    ("num_statements", .int summary.statements), ("n_bench_fns", .int benches),
    ("n_bench_errors", .int summary.errors.length), ("cov_measure_s", (elapsed.round 3).toJson),
    ("repo_time_pct", time.toJson),
    ("n_below_repo_time", match time.below? with | some n => .int n | none => .null),
    ("semcheck", Checked.toJson checks), ("n_not_self_checking", .int (Checked.failing checks))]

end Report

/-- Makes a report. -/
def report (setting : Setting) : Report Unit := do
  let summary ← Report.measure setting
  let elapsed := setting.stopped.sub setting.started
  let time ← Report.repoTime setting
  let (checks, changed) ← Report.selfCheck setting
  let benches ← Report.benches
  let (history, text) ← Report.history
  let round := history.rounds + 1
  if history.complete then
    if let some since := history.sinceLast setting.now then
      Report.record text
        (Report.roundData round benches setting.now since elapsed summary time checks)
  let stop := if 60.0 ≤ summary.percent then time.below?.bind history.stopReason else none
  Report.print (summary.table ++ summary.errorLines ++ time.lines ++ Checked.lines changed checks
    ++ Report.closing round benches summary time checks elapsed stop)

end SketchCompiler.Coverage
