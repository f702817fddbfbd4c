/-
Whether the result of a benchmark says something about the measured
code.  A benchmark is to return a value, the same one every time, made
by the code it measures, and different for different parameters; and
most of its time is to be spent in that code.
-/
import SketchCompiler.Coverage.Data
import SketchCompiler.Text.Pad

namespace SketchCompiler.Coverage

/-- The verdict on a benchmark. -/
inductive Verdict where
  | repoModified
  | error
  | returnsNone
  | unstable
  | returnsInput
  | lowRepoTime
  | tooFast
  | paramInvariant
  | okUnparam
  | ok
  deriving DecidableEq, Repr

/-- The name of a verdict. -/
def Verdict.text : Verdict → String
  | repoModified => "repo-modified"
  | error => "error"
  | returnsNone => "returns-none"
  | unstable => "unstable"
  | returnsInput => "returns-input"
  | lowRepoTime => "low-repo-time"
  | tooFast => "too-fast"
  | paramInvariant => "param-invariant"
  | okUnparam => "ok-unparam"
  | ok => "ok"

/-- The verdict asks for no change. -/
def Verdict.passes : Verdict → Bool
  | ok | okUnparam => true
  | _ => false

/-- What is known about a benchmark: the type of its result, the
fingerprints of repeated results, of the results by parameter and of the
parameters, its times in milliseconds, and the shares of time spent in
the measured code. -/
structure Observation where
  resultType : Option String
  repeated : List String
  byParameter : List String
  parameters : List String
  times : List Float
  shares : List Float

/-- A benchmark with what is known about it and the verdict. -/
structure Checked where
  name : String
  observation : Observation
  verdict : Verdict

namespace Observation

/-- What is known about a benchmark, from the data of the tool. -/
def ofJson (j : Json) : Except DataFault Observation := do
  let resultType := match ← field "ret_type" j with
    | .string s => if s.isEmpty then none else some s.legible
    | _ => none
  let times ← (← fieldsOf (← field "repo_tt_ms" j)).mapM fun (_, x) => floatOf x
  let shares ← (← fieldsOf (← field "repo_frac" j)).mapM fun (_, x) => floatOf x
  return {
    resultType, times, shares
    repeated := (← itemsOf (← field "fp_stable" j)).map (·.shown)
    byParameter := (← fieldsOf (← field "fp_by_param" j)).map (·.2.shown)
    parameters := (← itemsOf (← field "param_fps" j)).map (·.shown) }

/-- The middle of the times, or the mean of the two middle ones. -/
def medianTime (o : Observation) : Float :=
  let sorted := o.times.mergeSort (· ≤ ·)
  let n := sorted.length
  match sorted.drop ((n - 1) / 2) with
  | [] => 0.0
  | a :: rest =>
    if n % 2 == 1 then a
    else match rest with
      | [] => a
      | b :: _ => (a + b) / 2.0

/-- The least share of time spent in the measured code. -/
def leastShare (o : Observation) : Float :=
  match o.shares with
  | [] => 0.0
  | x :: xs => xs.foldl (fun m y => if y < m then y else m) x

/-- All texts are the same one. -/
def allSame : List String → Bool
  | [] => false
  | x :: xs => xs.all (· == x)

/-- The verdict on a benchmark; of several faults the first counts. -/
def verdict (modified : Bool) (o : Observation) : Verdict :=
  if modified then .repoModified
  else match o.resultType with
    | none => .error
    | some type =>
      if type.toList.head? = some '<' then .error
      else if type == "NoneType" then .returnsNone
      else if !allSame o.repeated then .unstable
      else if o.parameters.contains (o.repeated.headD "") then .returnsInput
      else if !o.shares.isEmpty && o.leastShare < 0.5 then .lowRepoTime
      else if !o.times.isEmpty && o.medianTime < 1.0 then .tooFast
      else if o.byParameter.length ≤ 1 then .okUnparam
      else if allSame o.byParameter then .paramInvariant
      else .ok

end Observation

namespace Checked

/-- Verdicts on the benchmarks of the data, up to the first whose data
cannot be used; the fault is kept.  What is no object is passed over. -/
def ofFields (modified : Bool) : List (String × Json) → List Checked × Option DataFault
  | [] => ([], none)
  | (name, data) :: rest =>
    match data with
    | .object _ =>
      match Observation.ofJson data with
      | .error fault => ([], some fault)
      | .ok observation =>
        let (others, fault) := ofFields modified rest
        (⟨name, observation, observation.verdict modified⟩ :: others, fault)
    | _ => ofFields modified rest

/-- The line of a benchmark. -/
def line (c : Checked) : String :=
  "  " ++ (if c.verdict.passes then " " else "*") ++ " " ++ Text.padRight 32 c.name ++ " "
    ++ Text.padRight 16 c.verdict.text ++ " (" ++ c.observation.resultType.getD "?" ++ ", repo "
    ++ Decimal.fixed 0 (c.observation.leastShare * 100.0) ++ "%) "
    ++ Decimal.fixed 1 c.observation.medianTime ++ "ms"

/-- What the verdicts mean. -/
def legend : List String :=
  ["self-check (* = fix needed):",
   "  returns-none: run() has no return — collect and return the call results",
   "  unstable: seed RNG in setup; avoid time/uuid/id in the return",
   "  returns-input: return repo output, not the parameter value",
   "  low-repo-time: <50% of run() time is in repo code — move glue to setup",
   "  param-invariant: return something derived from run()'s work, not setup",
   "  repo-modified: revert edits to repo files (git checkout -- <path>)"]

/-- The lines of all benchmarks, those with a fault first, below the
files that were changed. -/
def lines (changed : List String) (checks : List Checked) : List String :=
  if checks.isEmpty then []
  else
    (if changed.isEmpty then []
     else
      ("** repo modified (" ++ toString changed.length
        ++ " file(s)) — revert these; only microbench.py is yours to edit:")
        :: (changed.take 10).map ("   " ++ ·) ++ [""])
    ++ legend
    ++ ((checks.filter (!·.verdict.passes)) ++ checks.filter (·.verdict.passes)).map line
    ++ [""]

/-- How many benchmarks have a fault. -/
def failing (checks : List Checked) : Nat :=
  (checks.filter (!·.verdict.passes)).length

/-- The verdicts as data. -/
def toJson (checks : List Checked) : Json :=
  .ofFields (checks.map fun c => (c.name, .ofString c.verdict.text))

end Checked

end SketchCompiler.Coverage
