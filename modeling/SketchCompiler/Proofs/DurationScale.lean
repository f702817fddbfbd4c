/-
The scale of durations.  A delay and the rate of a task turn a literal in
seconds into milliseconds.  Everywhere else a duration is written as its
bare number, whatever its unit is.  So a sum of durations counts each of
its seconds as one millisecond, and so does a variable that holds one
(`Lapse.scale`).
-/
import SketchCompiler.Proofs.WrittenTexts
import SketchCompiler.Proofs.Visited

namespace SketchCompiler

/-- A duration in milliseconds or seconds, or two of them added or
subtracted: what the analysis takes for one. -/
inductive Lapse where
  | literal (span : Span) (amount : Int) (inSeconds : Bool)
  | combined (span : Span) (left : Lapse) (isSum : Bool) (right : Lapse)

namespace Lapse

/-- The duration as it is written in a program. -/
def expr : Lapse → Expr
  | literal span amount inSeconds =>
    .literal span (.duration amount (if inSeconds then "s" else "ms")) "Duration"
  | combined span left isSum right =>
    .binary span left.expr (if isSum then "+" else "-") right.expr

/-- The integer expression with the bare numbers of a duration. -/
def counted : Lapse → Expr
  | literal span amount _ => .literal span (.int amount) "int"
  | combined span left isSum right =>
    .binary span left.counted (if isSum then "+" else "-") right.counted

/-- How long the duration is, in milliseconds. -/
def millis : Lapse → Int
  | literal _ amount inSeconds => if inSeconds then amount * 1000 else amount
  | combined _ left isSum right =>
    if isSum then left.millis + right.millis else left.millis - right.millis

/-- The seconds that are written in it. -/
def seconds : Lapse → Int
  | literal _ amount inSeconds => if inSeconds then amount else 0
  | combined _ left isSum right =>
    if isSum then left.seconds + right.seconds else left.seconds - right.seconds

/-- It is written as one literal. -/
def isLiteral : Lapse → Bool
  | literal .. => true
  | combined .. => false

/-- The integer expression that a delay waits for. -/
def waited : Lapse → Expr
  | d@(literal span _ _) => .literal span (.int d.millis) "int"
  | d => d.counted

end Lapse

/-- The value of an integer expression of sums and differences. -/
def Expr.intValue? : Expr → Option Int
  | .literal _ (.int n) _ => some n
  | .binary _ left op right => do
    let x ← left.intValue?
    let y ← right.intValue?
    if op = "+" then some (x + y) else if op = "-" then some (x - y) else none
  | _ => none

namespace Lapse

variable (cx : EmitContext) (d : Lapse)

theorem inferType_expr (a : Analysis) :
    (inferType d.expr).run a = ("Duration", a) := by
  induction d generalizing a with
  | literal span amount inSeconds => rfl
  | combined span left isSum right ihl ihr =>
    have hsum : (Check.binaryType span (if isSum then "+" else "-") "Duration" "Duration").run a
        = ("Duration", a) := by
      cases isSum <;> rfl
    rw [expr, inferType, StateT.run_bind, ihl]
    change StateT.run (inferType right.expr >>= _) a = _
    rw [StateT.run_bind, ihr]
    exact hsum

/-- It is written as its bare numbers. -/
theorem emit_expr : Emit.expr cx d.expr = Emit.expr cx d.counted := by
  induction d with
  | literal span amount inSeconds => rfl
  | combined span left isSum right ihl ihr =>
    rw [expr, counted, Emit.expr, Emit.expr, ihl, ihr]

theorem intValue?_counted : d.counted.intValue? = some (d.millis - 999 * d.seconds) := by
  induction d with
  | literal span amount inSeconds =>
    cases inSeconds with
    | false => simp [counted, Expr.intValue?, millis, seconds]
    | true =>
      simp only [counted, Expr.intValue?, millis, seconds, if_pos, Option.some.injEq]
      omega
  | combined span left isSum right ihl ihr =>
    rw [counted, Expr.intValue?, ihl, ihr]
    cases isSum with
    | false =>
      simp only [millis, seconds, Option.bind_eq_bind, Option.bind_some]
      simp
      omega
    | true =>
      simp only [millis, seconds, Option.bind_eq_bind, Option.bind_some]
      simp
      omega

/-- A delay writes a literal in milliseconds, and any other duration in
bare numbers. -/
theorem emit_delay (span : Span) :
    Emit.stmt cx (.delay span d.expr) = do
      return [⟨"delay(" ++ (← Emit.expr cx d.waited) ++ ");", some span⟩] := by
  have hcall : Emit.delayCall cx d.expr
      = do return "delay(" ++ (← Emit.expr cx d.waited) ++ ");" := by
    cases d with
    | literal place amount inSeconds => cases inSeconds <;> rfl
    | combined place left isSum right =>
      exact congrArg (· >>= fun t => pure ("delay(" ++ t ++ ");"))
        (emit_expr cx (.combined place left isSum right))
  rw [Emit.stmt_delay, hcall]
  simp only [bind_assoc, pure_bind]

theorem taskRate_expr (span : Span) :
    Sketch.taskRate cx [.mk span "rate" d.expr] = Emit.expr cx d.waited := by
  cases d with
  | literal place amount inSeconds => cases inSeconds <;> rfl
  | combined place left isSum right =>
    exact emit_expr cx (.combined place left isSum right)

/-- **The scale of durations.**  Every sum and difference of durations in
milliseconds and seconds is a duration for the analysis.  It is written as
an integer expression whose value is too small by 999 for every second in
it, so it is the length in milliseconds exactly if the seconds add up to
none.  A delay and the rate of a task write the same expression, but for
a literal, which they write in milliseconds. -/
theorem scale :
    (∀ a, (inferType d.expr).run a = ("Duration", a))
      ∧ Emit.expr cx d.expr = Emit.expr cx d.counted
      ∧ d.counted.intValue? = some (d.millis - 999 * d.seconds)
      ∧ (d.counted.intValue? = some d.millis ↔ d.seconds = 0)
      ∧ (∀ span, Emit.stmt cx (.delay span d.expr) = do
        return [⟨"delay(" ++ (← Emit.expr cx d.waited) ++ ");", some span⟩])
      ∧ (∀ span, Sketch.taskRate cx [.mk span "rate" d.expr] = Emit.expr cx d.waited)
      ∧ d.waited.intValue? = some
        (if d.isLiteral then d.millis else d.millis - 999 * d.seconds) := by
  have hvalue := d.intValue?_counted
  refine ⟨d.inferType_expr, d.emit_expr cx, hvalue, ?_, d.emit_delay cx, d.taskRate_expr cx, ?_⟩
  · rw [hvalue, Option.some.injEq]
    omega
  · cases d with
    | literal span amount inSeconds => rfl
    | combined span left isSum right => exact hvalue

/-- A sum of a second and half a second is waited for as 501
milliseconds, and a variable of two seconds as two. -/
theorem scale_lost :
    writesLine .esp32 "delay(1s + 500ms);" "  delay((1 + 500));" = true
      ∧ (∀ s, (combined s (literal s 1 true) true (literal s 500 false)).millis = 1500)
      ∧ writesLine .esp32 "let d: Duration = 2s; delay(d);" "uint32_t d = 2;" = true := by
  exact ⟨by decide +kernel, fun _ => rfl, by decide +kernel⟩

end Lapse

end SketchCompiler
