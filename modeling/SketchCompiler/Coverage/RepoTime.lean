/-
The share of each benchmark's time that is spent in the measured code.
A share below the limit is marked, with the outside code that took most
of the rest; a negative share stands for a benchmark that failed.
-/
import SketchCompiler.Coverage.Data
import SketchCompiler.Text.Pad

namespace SketchCompiler.Coverage

/-- The shares of time in percent, and the outside code by benchmark. -/
structure RepoTime where
  shares : List (String × Float) := []
  outside : List (String × List (Float × String)) := []

namespace RepoTime

/-- Outside code and its share. -/
def outsideOf (j : Json) : Except DataFault (Float × String) :=
  match j with
  | .array [share, name] => return (← floatOf share, name.text)
  | other => .error (.noFloat other.typeText)

/-- The shares from the data of the tool. -/
def ofJson (j : Json) : Except DataFault RepoTime := do
  let shares ← (← fieldsOf (← field "repo_time_pct" j)).mapM fun (name, share) => do
    return (name, ← floatOf share)
  let outside ← (← fieldsOf (← field "hot_ext" j)).mapM fun (name, hot) => do
    return (name, ← (← itemsOf hot).mapM outsideOf)
  return { shares, outside }

/-- The shares of benchmarks that did not fail. -/
def valid (r : RepoTime) : List Float :=
  (r.shares.map (·.2)).filter (0.0 ≤ ·)

/-- The share is below the limit. -/
def isBelow (share : Float) : Bool :=
  0.0 ≤ share && share < 45.0

/-- How many shares are below the limit. -/
def below (r : RepoTime) : Nat :=
  (r.valid.filter isBelow).length

/-- How many shares are below the limit, if any benchmark has one. -/
def below? (r : RepoTime) : Option Nat :=
  if r.valid.isEmpty then none else some r.below

/-- What took most of the rest. -/
def outsideText (hot : List (Float × String)) : String :=
  if hot.isEmpty then ""
  else
    " (hot: " ++ " ".intercalate (hot.map fun (share, name) =>
      name ++ " " ++ Decimal.fixed 0 share ++ "%") ++ ")"

/-- The line of a benchmark. -/
def line (r : RepoTime) (name : String) (share : Float) : String :=
  let shown := if share < 0.0 then 0.0 else share
  (if isBelow share then "  * " else "    ") ++ Text.padRight 32 name
    ++ Text.padLeft 6 (Decimal.fixed 1 shown) ++ "%"
    ++ (if share < 0.0 then "  <error>" else "")
    ++ if isBelow share then outsideText ((r.outside.lookup name).getD []) else ""

/-- The lines of all benchmarks, the smallest share first. -/
def lines (r : RepoTime) : List String :=
  if r.shares.isEmpty then []
  else
    "repo_time (target 50%; * = below 45%):"
      :: (r.shares.mergeSort fun a b => a.2 ≤ b.2).map (fun (name, share) => r.line name share)
      ++ [""]

/-- The shares as data. -/
def toJson (r : RepoTime) : Json :=
  .ofFields (r.shares.map fun (name, share) => (name, .float share))

end RepoTime

end SketchCompiler.Coverage
