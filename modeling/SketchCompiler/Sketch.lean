/-
Sketch: the generated code of a program.  Struct types come first, then
the tasks' prototypes and the global variables, then the functions, and
last the two functions that the board calls: `setup`, which starts buses
and tasks and runs the statements of the program's top level, and `loop`.
-/
import SketchCompiler.Sketch.Emit
import SketchCompiler.Sketch.Headers

namespace SketchCompiler

/-- The family of code that a target's name asks for. -/
def Backend.ofTarget? (target : String) : Option Backend :=
  let name := Text.lower (Text.trim target)
  if name == "esp32" then some .esp32
  else if name == "generic" then some .generic
  else none

/-- The message about a target without a family of code. -/
def unknownTarget (target : String) : String :=
  "Unknown codegen target '" ++ target ++ "'"

/-- Generated code: its lines and the headers it includes. -/
structure Sketch where
  lines : List Line
  headers : Headers
  deriving DecidableEq, Repr

/-- Where a generated line comes from. -/
structure Origin where
  file : String
  line : Nat
  column : Nat
  deriving DecidableEq, Repr

/-- The lines of the generated code by number, with the places they come
from. -/
abbrev LineMap := List (Nat × Origin)

namespace Sketch

/-- The text of the generated code. -/
def code (s : Sketch) : String :=
  "\n".intercalate (s.lines.map (·.text)) ++ "\n"

/-- The numbers of lines that have a span, from a first number on. -/
def lineMapFrom (number : Nat) : List Line → LineMap
  | [] => []
  | ⟨_, none⟩ :: lines => lineMapFrom (number + 1) lines
  | ⟨_, some span⟩ :: lines =>
    (number, ⟨span.file, span.startLine, span.startCol⟩) :: lineMapFrom (number + 1) lines

/-- Where the lines of the generated code come from. -/
def lineMap (s : Sketch) : LineMap :=
  lineMapFrom 1 s.lines

-- ==== sections

/-- The parts of generated code that declarations add to. -/
structure Sections where
  globals : List Line := []
  functions : List (List Line) := []
  setup : List Line := []
  loop : List Line := []
  deriving DecidableEq, Repr

/-- The parts of one followed by those of the other. -/
def Sections.append (a b : Sections) : Sections :=
  { globals := a.globals ++ b.globals, functions := a.functions ++ b.functions,
    setup := a.setup ++ b.setup, loop := a.loop ++ b.loop }

instance : Append Sections := ⟨Sections.append⟩

/-- The body of a function, or its one comment when it is empty. -/
def bodyOr (comment : String) (body : List Line) : List Line :=
  (if body.isEmpty then [⟨comment, none⟩] else body).map (·.indent)

/-- All lines of the generated code. -/
def compose (s : Sections) : List Line :=
  let blank : Line := ⟨"", none⟩
  s.globals ++ (if s.globals.isEmpty then [] else [blank])
    ++ (s.functions.flatMap (· ++ [blank]))
    ++ [⟨"void setup() \x7b", none⟩] ++ bodyOr "// setup" s.setup ++ [⟨"\x7d", none⟩, blank]
    ++ [⟨"void loop() \x7b", none⟩] ++ bodyOr "// loop" s.loop ++ [⟨"\x7d", none⟩]

/-- The include lines of the headers. -/
def includes (h : Headers) : List String :=
  ["#include <Arduino.h>"]
    ++ (if h.wifi then ["#include <WiFi.h>"] else [])
    ++ (if h.webServer then ["#include <WebServer.h>"] else [])
    ++ (if h.wire then ["#include <Wire.h>"] else [])
    ++ (if h.digest then ["#include <mbedtls/md.h>"] else [])
    ++ [""]

/-- The helper that writes a pin of the ESP32 through its registers. -/
def fastWrite : List String :=
  ["#include \"soc/gpio_struct.h\"",
   "",
   "static inline void __dsl_fast_write(uint8_t pin, bool high) \x7b",
   "  if (pin < 32) \x7b",
   "    if (high) GPIO.out_w1ts = (1UL << pin);",
   "    else GPIO.out_w1tc = (1UL << pin);",
   "  \x7d else \x7b",
   "    uint32_t bit = (1UL << (pin - 32));",
   "    if (high) GPIO.out1_w1ts.val = bit;",
   "    else GPIO.out1_w1tc.val = bit;",
   "  \x7d",
   "\x7d",
   ""]

/-- The first lines of the generated code. -/
def opening (backend : Backend) (h : Headers) : List Line :=
  (includes h ++ if backend = .esp32 then fastWrite else []).map (⟨·, none⟩)

-- ==== declarations

/-- The type of a struct, and a blank line. -/
def structType : Stmt → List Line
  | .structDecl span name fields =>
    ⟨"struct " ++ name ++ " \x7b", some span⟩
      :: fields.map (fun f =>
        ⟨"  " ++ TypeName.toGenerated f.typeName ++ " " ++ f.name ++ ";", some f.span⟩)
      ++ [⟨"\x7d;", some span⟩, ⟨"", none⟩]
  | _ => []

/-- The prototype of a task. -/
def taskPrototype : Stmt → List Line
  | .taskDecl span name _ _ => [⟨"void __task_" ++ name ++ "(void* pvParameters);", some span⟩]
  | _ => []

/-- The value of the first decorator of a name. -/
def decorator? (name : String) : List Decorator → Option Expr
  | [] => none
  | .mk _ decorator value :: rest =>
    if decorator == name then some value else decorator? name rest

/-- The pause between two rounds of a task, in milliseconds. -/
def taskRate (cx : EmitContext) (decorators : List Decorator) : Except EmitFault String :=
  match decorator? "rate" decorators with
  | none => return "1"
  | some (.literal span value typeName) =>
    if typeName == "int" then
      match value.toInt? with
      | some n => Emit.int n
      | none => Emit.value value
    else match value with
      | .duration amount unit =>
        if Text.lower typeName == "duration" then
          if unit == "us" then Emit.int (max 1 (amount.fdiv 1000))
          else if unit == "s" then Emit.int (amount * 1000)
          else Emit.int amount
        else Emit.expr cx (.literal span value typeName)
      | _ => Emit.expr cx (.literal span value typeName)
  | some value => Emit.expr cx value

/-- The function that a task runs: its body over and over. -/
def taskFunction (cx : EmitContext) (span : Span) (name : String) (decorators : List Decorator)
    (body : Option Block) : Except EmitFault (List Line) := do
  let lines ← match body with
    | none => pure []
    | some body => Emit.block cx body
  let rate ← taskRate cx decorators
  let pause : Line := ⟨"vTaskDelay(pdMS_TO_TICKS(" ++ rate ++ "));", some span⟩
  return Emit.braced ("void __task_" ++ name ++ "(void* pvParameters) \x7b") span
    (Emit.braced "for (;;) \x7b" span (lines ++ [pause]))

/-- A function; an empty one without a result returns at once. -/
def function (cx : EmitContext) (span : Span) (name : String) (params : List Param)
    (returnType : String) (body : Block) : Except EmitFault (List Line) := do
  let params := ", ".intercalate
    (params.map fun p => TypeName.toGenerated p.typeName ++ " " ++ p.name)
  let lines ← Emit.block cx body
  let lines :=
    if lines.isEmpty && returnType == "void" then [⟨"return;", some span⟩] else lines
  return Emit.braced (TypeName.toGenerated returnType ++ " " ++ name ++ "(" ++ params ++ ") \x7b")
    span lines

/-- What a declaration adds to the parts of the code. -/
def ofDecl (cx : EmitContext) : Stmt → Except EmitFault Sections
  | .structDecl .. => return {}
  | .taskDecl span name decorators body => do
    let lines ← taskFunction cx span name decorators body
    let start ← Emit.spawn cx name
    return { functions := [lines], setup := [⟨start, some span⟩] }
  | .busDecl span busType _ sda scl freq _ => do
    if Text.upper busType == "I2C" then
      let sda ← Emit.expr cx sda
      let scl ← Emit.expr cx scl
      let freq ← Emit.expr cx freq
      return { setup := [⟨"Wire.begin(" ++ sda ++ ", " ++ scl ++ ", " ++ freq ++ ");", some span⟩] }
    else return {}
  | .functionDecl span name params returnType body => do
    return { functions := [← function cx span name params returnType body] }
  | .loopDecl _ body => return { loop := ← Emit.block cx body }
  | .varDecl span name typeName init _ isConst isVolatile => do
    let init ← Emit.initializer cx init
    return { globals := [⟨Emit.varDecl true name typeName isConst isVolatile init, some span⟩] }
  | s => return { setup := ← Emit.stmt cx s }

/-- What declarations add to the parts of the code. -/
def ofDecls (cx : EmitContext) : List Stmt → Except EmitFault Sections
  | [] => return {}
  | d :: ds => do
    let first ← ofDecl cx d
    return first ++ (← ofDecls cx ds)

/-- The fields of a struct; a later declaration of the name replaces an
earlier one. -/
def fieldOrder (p : Program) (name : String) : List String :=
  (p.declarations.reverse.findSome? fun
    | .structDecl _ declared fields =>
      if declared == name then some (fields.map (·.name)) else none
    | _ => none).getD []

/-- The decorators of a task; a later declaration of the name replaces an
earlier one. -/
def taskDecorators (p : Program) (name : String) : List Decorator :=
  (p.declarations.reverse.findSome? fun
    | .taskDecl _ declared decorators _ => if declared == name then some decorators else none
    | _ => none).getD []

/-- What writing the nodes of a program depends on.  The core of a task is
an expression which may itself start tasks; the bound limits how deep
this goes. -/
def context (backend : Backend) (p : Program) : Nat → EmitContext
  | 0 => ⟨backend, fieldOrder p, fun _ => .error .endlessCore⟩
  | bound + 1 =>
    ⟨backend, fieldOrder p, fun name =>
      match decorator? "core" (taskDecorators p name) with
      | none => .ok "tskNO_AFFINITY"
      | some value => Emit.expr (context backend p bound) value⟩

end Sketch

/-- The generated code of a program.  A task's core that does not depend
on itself goes through each declaration at most once. -/
def Program.sketch (backend : Backend) (p : Program) : Except EmitFault Sketch := do
  let headers := Headers.ofProgram p
  let prototypes := p.declarations.flatMap Sketch.taskPrototype
  let globals := Sketch.opening backend headers ++ p.declarations.flatMap Sketch.structType
    ++ prototypes ++ (if prototypes.isEmpty then [] else [⟨"", none⟩])
  let cx := Sketch.context backend p (p.declarations.length + 1)
  let sections ← Sketch.ofDecls cx p.declarations
  return { lines := Sketch.compose ({ globals } ++ sections), headers }

end SketchCompiler
