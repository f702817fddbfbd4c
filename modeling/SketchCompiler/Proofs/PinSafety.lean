/-
Pins are safe: if the analysis of a program finds no error, every pin
that a hardware statement or a call of `analogRead` writes down as a
number, at any depth, is one that the board has and that can do what is
asked of it (`Program.pins_safe`).

Every node was visited without an error (`Program.visited`), so it is
enough to say what a single check makes sure of the board when it reports
none.  `Ensures` is about one check, and is put together along its steps
like the check itself.
-/
import SketchCompiler.Proofs.Image
import SketchCompiler.Proofs.Visited

namespace SketchCompiler

open Check

-- ==== what a check makes sure

/-- A check without errors makes sure of a fact about the board. -/
structure Ensures {α : Type} (φ : Board → Prop) (c : Check α) : Prop where
  steps : Steps (anywhere false) true c
  holds : ∀ a : Analysis, (c.run a).2.Quiet → φ a.board

namespace Ensures

variable {α β : Type} {φ ψ : Board → Prop} {c : Check α} {f : α → Check β}
  {g : Analysis → Check α} {finding : Finding}

/-- The first step makes sure of the fact. -/
theorem first (hc : Ensures φ c) (hf : ∀ x, Steps (anywhere false) true (f x)) :
    Ensures φ (c >>= f) where
  steps := .bind hc.steps hf
  holds a hquiet := hc.holds a (((hf _).later _).quiet hquiet)

theorem next (hc : Steps (anywhere false) true c) (hf : ∀ x, Ensures φ (f x)) :
    Ensures φ (c >>= f) where
  steps := .bind hc fun x => (hf x).steps
  holds a hquiet := by
    rw [← (hc.later a).board]
    exact (hf _).holds _ hquiet

/-- Each makes sure of its own. -/
theorem both (hc : Ensures φ c) (hf : ∀ x, Ensures ψ (f x)) :
    Ensures (fun b => φ b ∧ ψ b) (c >>= f) where
  steps := .bind hc.steps fun x => (hf x).steps
  holds a hquiet := ⟨(hc.first fun x => (hf x).steps).holds a hquiet,
    (next hc.steps hf).holds a hquiet⟩

theorem mono (h : Ensures φ c) (himp : ∀ b, φ b → ψ b) : Ensures ψ c where
  steps := h.steps
  holds a hquiet := himp _ (h.holds a hquiet)

/-- A check that asks for the board. -/
theorem ask (hsame : ∀ a b : Analysis, b.board = a.board → g a = g b)
    (h : ∀ a, Ensures (fun _ => φ a.board) (g a)) : Ensures φ (get >>= g) where
  steps := .board hsame fun a => (h a).steps
  holds a hquiet := (h a).holds a hquiet

/-- A check that reports an error makes sure of anything. -/
theorem reported (h : finding.severity = .error) (hkind : finding.isDeclaring = false)
    (span : Span) : Ensures φ (report span finding) where
  steps := .report trivial hkind
  holds _ hquiet := absurd hquiet (not_quiet_report h)

theorem reportIf (h : finding.severity = .error) (hkind : finding.isDeclaring = false)
    (condition : Bool) (span : Span) :
    Ensures (fun _ => condition = false) (reportIf condition span finding) where
  steps := .reportIf _ trivial hkind
  holds _ hquiet := eq_false_of_quiet h hquiet

/-- A check of the integer that a literal is. -/
theorem literal {g : Int → Analysis → Check Unit} {n : Int} (span : Span)
    (hsame : ∀ a b : Analysis, b.board = a.board → g n a = g n b)
    (h : ∀ a, Ensures (fun _ => φ a.board) (g n a)) :
    Ensures φ (do
      let some n ← constInt? (.literal span (.int n) "int") | return
      g n (← get)) where
  steps := (ask hsame h).steps
  holds := (ask hsame h).holds

end Ensures

-- ==== single pins

/-- A number that is written down. -/
def Expr.intLiteral? : Expr → Option Int
  | .literal _ (.int n) _ => some n
  | _ => none

theorem Expr.Proper.intLiteral {e : Expr} {n : Int} (h : e.Proper True)
    (hn : e.intLiteral? = some n) : ∃ span, e = .literal span (.int n) "int" := by
  unfold intLiteral? at hn
  split at hn
  · rename_i span m typeName
    cases hn
    have htype : 0 ≤ n ∧ typeName = "int" := h
    exact ⟨span, by rw [htype.2]⟩
  · cases hn

/-- The board has the pin and does not keep it to itself. -/
def Board.Usable (b : Board) (n : Int) : Prop :=
  n ∈ b.validPins ∧ n ∉ b.reservedPins

section Literal

variable (span : Span) (n : Int)

theorem pin_ensures (type call : String) :
    Ensures (·.Usable n) (pin (.literal span (.int n) "int") type call) := by
  unfold pin
  split
  · exact .reported rfl rfl _
  · refine .literal span (fun _ _ h => by rw [h]) fun a => ?_
    refine .mono (.both (.reportIf rfl rfl _ _) fun _ => .reportIf rfl rfl _ _) ?_
    simp [Board.Usable]

theorem pinMode_ensures (at' : Span) (mode : String) :
    Ensures (fun b => mode = "out" → n ∉ b.inputOnlyPins)
      (pinMode at' (.literal span (.int n) "int") mode) := by
  refine .literal span (fun _ _ h => by rw [h]) fun a => ?_
  refine .mono (.first (.reportIf rfl rfl _ _) fun _ => ?_) ?_
  · exact .bind (.reportIf _ trivial rfl) fun _ => .reportIf _ trivial rfl
  · rintro _ hfalse rfl
    simpa using hfalse

theorem outputPin_ensures (call : String) :
    Ensures (n ∉ ·.inputOnlyPins) (outputPin (.literal span (.int n) "int") call) := by
  refine .literal span (fun _ _ h => by rw [h]) fun a => ?_
  refine .mono (.first (.reportIf rfl rfl _ _) fun _ => ?_) ?_
  · exact .reportIf _ trivial rfl
  · simp

theorem pwmPin_ensures : Ensures (n ∈ ·.pwmPins) (pwmPin (.literal span (.int n) "int")) := by
  refine .literal span (fun _ _ h => by rw [h]) fun a => ?_
  refine .mono (.reportIf rfl rfl _ _) ?_
  simp

theorem adcPin_ensures : Ensures (n ∈ ·.adcPins) (adcPin (.literal span (.int n) "int")) := by
  refine .literal span (fun _ _ h => by rw [h]) fun a => ?_
  dsimp only
  split
  · exact .reported rfl rfl _
  · rename_i hadc
    exact ⟨.reportIf _ trivial rfl, fun _ _ => by simpa using hadc⟩

end Literal

-- ==== single nodes

/-- The pins that a node writes down can do what the node asks of them. -/
def Node.PinSafe (b : Board) : Node → Prop
  | .stmt _ (.gpioMode _ pin mode) =>
    ∀ n ∈ pin.intLiteral?, b.Usable n ∧ (mode = "out" → n ∉ b.inputOnlyPins)
  | .stmt _ (.digitalWrite _ pin _) =>
    ∀ n ∈ pin.intLiteral?, b.Usable n ∧ n ∉ b.inputOnlyPins
  | .stmt _ (.rgbWrite _ pin _ _ _) =>
    ∀ n ∈ pin.intLiteral?, b.Usable n ∧ n ∉ b.inputOnlyPins
  | .stmt _ (.pwmWrite _ pin _ _) => ∀ n ∈ pin.intLiteral?, b.Usable n ∧ n ∈ b.pwmPins
  | .expr _ (.call _ (.ident _ name) (pin :: _)) =>
    name = "analogRead" → ∀ n ∈ pin.intLiteral?, b.Usable n ∧ n ∈ b.adcPins
  | _ => True

section Nodes

variable {span litSpan : Span} {n : Int} {file call : String} {φ : Board → Prop}
  {rest : Check Unit}

theorem pinFirst_ensures (h : Ensures φ rest) :
    Ensures (fun b => b.Usable n ∧ φ b) (do
      enterFile file
      let type ← inferType (.literal litSpan (.int n) "int")
      pin (.literal litSpan (.int n) "int") type call
      rest) :=
  .next (.enterFile trivial) fun _ => .next (.pure _) fun _ =>
    .both (pin_ensures litSpan n _ _) fun _ => h

theorem gpioMode_ensures (mode : String) :
    Ensures (fun b => b.Usable n ∧ (mode = "out" → n ∉ b.inputOnlyPins))
      (visit (.gpioMode span (.literal litSpan (.int n) "int") mode)) :=
  pinFirst_ensures (pinMode_ensures litSpan n span mode)

theorem digitalWrite_ensures (value : Expr) :
    Ensures (fun b => b.Usable n ∧ n ∉ b.inputOnlyPins)
      (visit (.digitalWrite span (.literal litSpan (.int n) "int") value)) :=
  pinFirst_ensures (.first (outputPin_ensures litSpan n _) fun _ =>
    .numeric .anywhere (value.steps .anywhere) _)

theorem rgbWrite_ensures (red green blue : Expr) :
    Ensures (fun b => b.Usable n ∧ n ∉ b.inputOnlyPins)
      (visit (.rgbWrite span (.literal litSpan (.int n) "int") red green blue)) :=
  pinFirst_ensures (.first (outputPin_ensures litSpan n _) fun _ =>
    .bind (red.steps .anywhere) fun _ => .bind (.reportIf _ trivial rfl) fun _ =>
      .bind (green.steps .anywhere) fun _ => .bind (.reportIf _ trivial rfl) fun _ =>
        .numeric .anywhere (blue.steps .anywhere) _)

theorem pwmWrite_ensures (duty : Expr) (channel : Option Expr) :
    Ensures (fun b => b.Usable n ∧ n ∈ b.pwmPins)
      (visit (.pwmWrite span (.literal litSpan (.int n) "int") duty channel)) := by
  rw [visit_pwmWrite]
  exact pinFirst_ensures (.first (pwmPin_ensures litSpan n) fun _ =>
    .bind (duty.steps .anywhere) fun _ => .bind (.reportIf _ trivial rfl) fun _ =>
      .optional fun e _ => .numeric .anywhere (e.steps .anywhere) _)

theorem analogRead_ensures (identSpan : Span) (args : List Expr) :
    Ensures (n ∈ ·.adcPins) (inferType
      (.call span (.ident identSpan "analogRead") (.literal litSpan (.int n) "int" :: args))) := by
  refine .next (.resolve "analogRead") fun s => ?_
  cases s with
  | none => exact .first (.reported rfl rfl span) fun _ => .pure _
  | some s =>
    dsimp only
    split
    · exact .first (.reported rfl rfl span) fun _ => .pure _
    · split
      · exact .first (.reported rfl rfl span) fun _ =>
          .bind (exprsSteps _ .anywhere).1 fun _ => .pure _
      · exact .next ((exprsSteps _ .anywhere).2 _ _ _) fun _ =>
          .first (adcPin_ensures litSpan n) fun _ => .pure _

end Nodes

-- ==== boards

theorem Board.ofName_mem (name : String) : Board.ofName name ∈ boards := by
  have hkey (key : String) : (boards.find? (·.name == key)).getD esp32Board ∈ boards := by
    cases hfind : boards.find? (·.name == key) with
    | none => simp [boards]
    | some b => exact List.mem_of_find?_eq_some hfind
  unfold Board.ofName
  exact hkey _

theorem usable_of_mem_adcPins {b : Board} {n : Int} (hb : b ∈ boards) (h : n ∈ b.adcPins) :
    b.Usable n := by
  have hboards : ∀ b ∈ boards, ∀ n ∈ b.adc1Pins ++ b.adc2Pins,
      n ∈ b.validPins ∧ n ∉ b.reservedPins := by
    decide
  exact hboards b hb n (List.mem_mergeSort.mp h)

-- ==== whole programs

theorem Node.Visited.pinSafe {b : Board} (hb : b ∈ boards) {node : Node} (hp : node.Proper)
    (h : node.Visited b) : node.PinSafe b := by
  unfold Node.PinSafe
  split
  · rename_i span pin mode
    intro n hn
    obtain ⟨-, a, rfl, -, hquiet⟩ := h
    obtain ⟨litSpan, rfl⟩ := Expr.Proper.intLiteral hp.1 hn
    exact (gpioMode_ensures mode).holds a hquiet
  · intro n hn
    obtain ⟨-, a, rfl, -, hquiet⟩ := h
    obtain ⟨litSpan, rfl⟩ := Expr.Proper.intLiteral hp.1 hn
    exact (digitalWrite_ensures _).holds a hquiet
  · intro n hn
    obtain ⟨-, a, rfl, -, hquiet⟩ := h
    obtain ⟨litSpan, rfl⟩ := Expr.Proper.intLiteral hp.1 hn
    exact (rgbWrite_ensures _ _ _).holds a hquiet
  · intro n hn
    obtain ⟨-, a, rfl, -, hquiet⟩ := h
    obtain ⟨litSpan, rfl⟩ := Expr.Proper.intLiteral hp.1 hn
    exact (pwmWrite_ensures _ _).holds a hquiet
  · rintro rfl n hn
    obtain ⟨-, a, rfl, -, hquiet⟩ := h
    have hargs := (hp.resolve_right (by simp [Expr.isAnalogRead])).2
    obtain ⟨litSpan, rfl⟩ := Expr.Proper.intLiteral hargs.1 hn
    have hadc := (analogRead_ensures _ _).holds a hquiet
    exact ⟨usable_of_mem_adcPins hb hadc, hadc⟩
  · trivial

/-- In a program that is read and analysed without errors, every pin that
is written down as a number can do what is asked of it. -/
theorem Program.pins_safe {file source : String} {src : Source}
    (h : Program.ofSource file source = .ok src) (hscan : src.scanErrors = [])
    (hparse : src.parseErrors = []) {board : String}
    (hquiet : ∀ i ∈ (src.program.analyze board).issues, i.severity ≠ .error) :
    ∀ node ∈ src.program.nodes, node.PinSafe (.ofName board) := by
  have hp : src.program.Proper True := Program.proper_of_clean h hscan hparse
  intro node hnode
  exact (Program.visited hp hquiet node hnode).pinSafe (Board.ofName_mem board)
    (hp.nodes node hnode)

/-- A pin that can only be read, in one branch of a conditional, and one
that is driven, in the other. -/
def pinsInBranches : String :=
  "fn f() -> int \x7b return if (true) \x7b gpioMode(34, in); 1 \x7d"
    ++ " else \x7b digitalWrite(4, 1); 0 \x7d; \x7d"

/-- The pins in the branches are safe. -/
theorem Program.pins_safe_branches :
    ∃ src, Program.ofSource "sketch" pinsInBranches = .ok src
      ∧ (∀ i ∈ (src.program.analyze "esp32").issues, i.severity ≠ .error)
      ∧ ∀ node ∈ src.program.nodes, node.PinSafe (.ofName "esp32") := by
  have hclean : acceptsCleanly "esp32" pinsInBranches = true := by
    decide +kernel
  obtain ⟨src, hsrc, hscan, hparse, hquiet⟩ := exists_of_acceptsCleanly hclean
  exact ⟨src, hsrc, hquiet, Program.pins_safe hsrc hscan hparse hquiet⟩

end SketchCompiler
