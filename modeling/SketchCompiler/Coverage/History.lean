/-
The rounds of measuring.  Every round leaves a line of data.  When the
number of benchmarks below the limit is zero, or the least such number
was reached three rounds ago or earlier, measuring may stop.
-/
import SketchCompiler.Coverage.Data

namespace SketchCompiler.Coverage

/-- A number of benchmarks below the limit, and how it is shown. -/
structure BelowCount where
  value : Int
  text : String
  deriving DecidableEq, Repr

namespace BelowCount

/-- The count that a value of the data is.  A truth value counts as zero
or one and is shown as it stands. -/
def ofJson? : Json → Option BelowCount
  | .int n => some ⟨n, (Json.int n).text⟩
  | .bool b => some ⟨if b then 1 else 0, (Json.bool b).text⟩
  | _ => none

end BelowCount

/-- The least count so far, and the number of rounds since it was
reached. -/
structure Progress where
  best : BelowCount
  stale : Nat := 0
  deriving DecidableEq, Repr

namespace Progress

/-- Takes in the count of one more round.  Only a smaller count is an
improvement, so of equal counts the earliest stays the best. -/
def next (p : Progress) (c : BelowCount) : Progress :=
  if c.value < p.best.value then { best := c } else { p with stale := p.stale + 1 }

/-- The progress that a list of counts shows; `none` if it is empty. -/
def ofCounts? : List BelowCount → Option Progress
  | [] => none
  | c :: cs => some (cs.foldl next { best := c })

/-- As many rounds without an improvement are enough. -/
def patience : Nat := 3

end Progress

/-- What the rounds before have left: how many there were, the counts of
benchmarks below the limit, the time of the last one, and whether all
lines could be read. -/
structure History where
  rounds : Nat := 0
  below : List BelowCount := []
  lastTime : Option Json := none
  complete : Bool := true

namespace History

/-- Reads lines up to the first that is no data. -/
def readLines (h : History) : List String → History
  | [] => h
  | line :: rest =>
    match readJson line with
    | .ok (.object fields) =>
      let below := h.below
        ++ ((fields.lookup (.ofString "n_below_repo_time")).bind BelowCount.ofJson?).toList
      readLines { h with below, lastTime := fields.lookup (.ofString "ts") } rest
    | _ => { h with complete := false }

/-- The history that a text holds. -/
def ofText (text : String) : History :=
  let lines := (Text.splitLines text).filter fun line => Text.trim line != ""
  readLines { rounds := lines.length } lines

/-- The time since the last round, zero if there was none; `none` if it
is no time. -/
def sinceLast (h : History) (now : Number) : Option Number :=
  match h.lastTime with
  | none => some (.float 0.0)
  | some time =>
    if !time.isPresent then some (.float 0.0)
    else (Number.ofJson? time).map fun time => (now.sub time).round 2

/-- Why measuring may stop, given the count of this round: it is zero, or
the rounds have long brought no improvement. -/
def stopReason (h : History) (current : Nat) : Option String :=
  if current = 0 then some "0 below"
  else
    (Progress.ofCounts? (h.below ++ [⟨current, toString current⟩])).bind fun p =>
      if Progress.patience ≤ p.stale then
        some ("no improvement in " ++ toString p.stale ++ " rounds; best " ++ p.best.text
          ++ " below")
      else none

end History

end SketchCompiler.Coverage
