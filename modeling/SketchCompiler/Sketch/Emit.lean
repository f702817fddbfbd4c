/-
Writing statements and expressions as code of the target.  Every line
keeps the span of the node it was written for.  Expressions are written
fully parenthesized; a conditional expression whose branches hold
statements becomes a function that is called in place.
-/
import SketchCompiler.Decimal.Shortest
import SketchCompiler.Numeral
import SketchCompiler.Program
import SketchCompiler.TypeName

namespace SketchCompiler

/-- The families of generated code: plain calls alone, the ESP32 with its
fast pin access, and any other board. -/
inductive Backend where
  | base
  | esp32
  | generic
  deriving DecidableEq, Repr

/-- Why no code can be written. -/
inductive EmitFault where
  | rgbUnsupported (backend : Backend) (span : Span)
  | numeral (reason : NumeralError)
  | endlessCore
  deriving DecidableEq, Repr

/-- The wording of a fault. -/
def EmitFault.message : EmitFault → String
  | rgbUnsupported .generic _ =>
    "rgbWrite is only supported on ESP32 targets with neopixelWrite capability. "
      ++ "Use --target esp32."
  | rgbUnsupported _ _ => "rgbWrite is not supported on this target backend"
  | numeral reason => reason.message
  | endlessCore => "task core depends on itself"

/-- A line of generated code and the span it stands for. -/
structure Line where
  text : String
  span : Option Span := none
  deriving DecidableEq, Repr

/-- The line moved to the right. -/
def Line.indent (l : Line) : Line :=
  { l with text := "  " ++ l.text }

/-- What writing a node depends on: the family of code, the fields of
each struct in order, and the core of each task. -/
structure EmitContext where
  backend : Backend
  fieldOrder : String → List String
  core : String → Except EmitFault String

namespace Emit

-- ==== literals

/-- The text of an integer. -/
def int (n : Int) : Except EmitFault String :=
  (Numeral.writeInt n).mapError .numeral

/-- The text of a literal value by itself. -/
def value : LiteralValue → Except EmitFault String
  | .int n => int n
  | .float x => return Decimal.text x
  | .bool b => return if b then "True" else "False"
  | .text s => return s
  | .duration amount unit => do
    return "\x7b'value': " ++ (← int amount) ++ ", 'unit': " ++ Text.quoted unit ++ "\x7d"

/-- The truth of a literal value. -/
def truth : LiteralValue → Bool
  | .int n => n != 0
  | .float x => x != 0.0
  | .bool b => b
  | .text s => s != ""
  | .duration .. => true

/-- The literal of a type. -/
def literal (v : LiteralValue) (typeName : String) : Except EmitFault String :=
  if typeName == "string" then return "\"" ++ (← value v) ++ "\""
  else if typeName == "bool" then return if truth v then "true" else "false"
  else match v with
    | .duration amount _ => if Text.lower typeName == "duration" then int amount else value v
    | _ => value v

/-- The operator that a compound assignment applies. -/
def compoundOperator : String → Option String
  | "+=" => some "+"
  | "-=" => some "-"
  | "*=" => some "*"
  | "/=" => some "/"
  | _ => none

/-- An assignment; a compound one repeats its target. -/
def assignment (target op value : String) : String :=
  if op == "=" then "(" ++ target ++ " = " ++ value ++ ")"
  else match compoundOperator op with
    | none => "(" ++ target ++ " " ++ op ++ " " ++ value ++ ")"
    | some op => "(" ++ target ++ " = (" ++ target ++ " " ++ op ++ " " ++ value ++ "))"

/-- The values of a struct in the order of its fields, the last one given
for each; in the order given where the struct is not known. -/
def orderedValues (order : List String) (given : List (String × Except EmitFault String)) :
    Except EmitFault (List String) :=
  if order.isEmpty then given.mapM (·.2)
  else (order.filterMap fun name => List.lookup name given.reverse).mapM id

-- ==== statements

/-- A variable declaration with the text of its initializer. -/
def varDecl (isGlobal : Bool) (name : String) (typeName : Option String)
    (isConst isVolatile : Bool) (initializer : String) : String :=
  (if isConst then "const " else "") ++ (if isVolatile then "volatile " else "")
    ++ TypeName.toGenerated ((typeName.filter (· != "")).getD "int") ++ " " ++ name
    ++ (if isGlobal && isConst then " PROGMEM" else "") ++ initializer ++ ";"

/-- A block with the given first line, closed on a line of its own. -/
def braced (head : String) (span : Span) (body : List Line) : List Line :=
  ⟨head, some span⟩ :: body.map (·.indent) ++ [⟨"\x7d", some span⟩]

/-- A write to a digital pin. -/
def digitalWrite : Backend → String → String → String
  | .esp32, pin, value =>
    "__dsl_fast_write(static_cast<uint8_t>(" ++ pin ++ "), static_cast<bool>(" ++ value ++ "));"
  | _, pin, value => "digitalWrite(" ++ pin ++ ", " ++ value ++ ");"

/-- Joining a network and waiting for it. -/
def wifiConnect (backend : Backend) (ssid password : String) : List String :=
  let pause := match backend with
    | .esp32 => "vTaskDelay(pdMS_TO_TICKS(100));"
    | _ => "delay(100);"
  ["WiFi.begin(" ++ ssid ++ ", " ++ password ++ ");",
   "while (WiFi.status() != WL_CONNECTED) \x7b " ++ pause ++ " \x7d"]

/-- A delay of a literal duration, in its unit. -/
def delayLiteral (amount : Int) (unit : String) : Except EmitFault String := do
  if unit == "us" then return "delayMicroseconds(" ++ (← int amount) ++ ");"
  else if unit == "s" then return "delay(" ++ (← int (amount * 1000)) ++ ");"
  else return "delay(" ++ (← int amount) ++ ");"

/-- The start of a task, pinned to a core. -/
def spawn (cx : EmitContext) (name : String) : Except EmitFault String := do
  return "xTaskCreatePinnedToCore(__task_" ++ name ++ ", \"" ++ name
    ++ "\", 8192, nullptr, 1, nullptr, " ++ (← cx.core name) ++ ");"

/-- Raw code in a block of its own. -/
def raw (span : Span) (code : String) : List Line :=
  let lines := match Text.splitLines code with
    | [] => [""]
    | lines => lines
  braced "\x7b" span (lines.map (⟨·, some span⟩))

/-- The statements in front of the value of a conditional branch, on one
line. -/
def inline (lines : List Line) : String :=
  if lines.isEmpty then "" else " ".intercalate (lines.map (·.text)) ++ " "

mutual

/-- An expression as code. -/
def expr (cx : EmitContext) : Expr → Except EmitFault String
  | .ident _ name => return name
  | .member _ object name => return "(" ++ (← expr cx object) ++ "." ++ name ++ ")"
  | .ifElse _ condition thenBlock thenValue elseBlock elseValue => do
    let c ← expr cx condition
    let t ← expr cx thenValue
    let e ← expr cx elseValue
    if thenBlock.statements.isEmpty && elseBlock.statements.isEmpty then
      return "((" ++ c ++ ") ? (" ++ t ++ ") : (" ++ e ++ "))"
    else
      let before ← block cx thenBlock
      let before' ← block cx elseBlock
      return "([&]() \x7b if (" ++ c ++ ") \x7b " ++ inline before ++ "return " ++ t ++ "; \x7d "
        ++ "else \x7b " ++ inline before' ++ "return " ++ e ++ "; \x7d \x7d)()"
  | .literal _ v typeName => literal v typeName
  | .unary _ op operand => return "(" ++ op ++ (← expr cx operand) ++ ")"
  | .postfixed _ operand op => return "(" ++ (← expr cx operand) ++ op ++ ")"
  | .binary _ left op right => do
    let l ← expr cx left
    let r ← expr cx right
    return "(" ++ l ++ " " ++ op ++ " " ++ r ++ ")"
  | .bitwise _ left op right => do
    let l ← expr cx left
    let r ← expr cx right
    return "(" ++ l ++ " " ++ op ++ " " ++ r ++ ")"
  | .cast _ operand typeName => do
    return "((" ++ TypeName.toGenerated typeName ++ ")(" ++ (← expr cx operand) ++ "))"
  | .assign _ target op value => do
    let v ← expr cx value
    let t ← match target with
      | .member _ object name => do pure ((← expr cx object) ++ "." ++ name)
      | other => expr cx other
    return assignment t op v
  | .structInit _ typeName fields => do
    let values ← orderedValues (cx.fieldOrder typeName) (fieldValues cx fields)
    return TypeName.toGenerated typeName ++ "\x7b" ++ ", ".intercalate values ++ "\x7d"
  | .call _ callee args => do
    let f ← expr cx callee
    let as ← exprs cx args
    return f ++ "(" ++ ", ".intercalate as ++ ")"

/-- Expressions as code. -/
def exprs (cx : EmitContext) : List Expr → Except EmitFault (List String)
  | [] => return []
  | e :: es => do
    let first ← expr cx e
    return first :: (← exprs cx es)

/-- The values of a struct initializer, each by its field. -/
def fieldValues (cx : EmitContext) : List FieldInit → List (String × Except EmitFault String)
  | [] => []
  | .mk name value :: fields => (name, expr cx value) :: fieldValues cx fields

/-- The initializer of a variable; that of a struct needs no type. -/
def initializer (cx : EmitContext) : Option Expr → Except EmitFault String
  | none => return ""
  | some (.structInit _ typeName fields) => do
    let values ← orderedValues (cx.fieldOrder typeName) (fieldValues cx fields)
    return " = \x7b" ++ ", ".intercalate values ++ "\x7d"
  | some e => return " = " ++ (← expr cx e)

/-- The statements of a block as lines. -/
def block (cx : EmitContext) : Block → Except EmitFault (List Line)
  | .mk _ statements => stmts cx statements

/-- Statements as lines. -/
def stmts (cx : EmitContext) : List Stmt → Except EmitFault (List Line)
  | [] => return []
  | s :: rest => do
    let first ← stmt cx s
    return first ++ (← stmts cx rest)

/-- The arms of a match as lines. -/
def arms (cx : EmitContext) : List MatchArm → Except EmitFault (List Line)
  | [] => return []
  | .mk span pattern isWildcard body :: rest => do
    let head ←
      if isWildcard then pure "default: \x7b"
      else match pattern with
        | none => pure "case 0: \x7b"
        | some pattern => do pure ("case " ++ (← expr cx pattern) ++ ": \x7b")
    let lines ← block cx body
    let others ← arms cx rest
    return braced head span (lines ++ [⟨"break;", some span⟩]) ++ others

/-- A statement as lines.  Structs, tasks and buses inside a block have
none. -/
def stmt (cx : EmitContext) : Stmt → Except EmitFault (List Line)
  | .structDecl .. | .taskDecl .. | .busDecl .. => return []
  | .spawn span name => return [⟨← spawn cx name, some span⟩]
  | .varDecl span name typeName init _ isConst isVolatile => do
    let init ← initializer cx init
    return [⟨varDecl false name typeName isConst isVolatile init, some span⟩]
  | .expr span e => return [⟨(← expr cx e) ++ ";", some span⟩]
  | .returnValue span value => do
    match value with
    | none => return [⟨"return;", some span⟩]
    | some value => return [⟨"return " ++ (← expr cx value) ++ ";", some span⟩]
  | .ifElse span condition thenBranch elseBranch => do
    let c ← expr cx condition
    let lines := braced ("if (" ++ c ++ ") \x7b") span (← block cx thenBranch)
    match elseBranch with
    | none => return lines
    | some body => return lines ++ braced "else \x7b" body.span (← block cx body)
  | .matchValue span value matchArms => do
    let v ← expr cx value
    let body ← arms cx matchArms
    return ⟨"switch (" ++ v ++ ") \x7b", some span⟩ :: body ++ [⟨"\x7d", some span⟩]
  | .whileLoop span condition body => do
    let c ← expr cx condition
    return braced ("while (" ++ c ++ ") \x7b") span (← block cx body)
  | .forLoop span init condition update body => do
    let i ← match init with
      | some (.varDecl _ name typeName init _ isConst isVolatile) => do
        let text := varDecl false name typeName isConst isVolatile (← initializer cx init)
        pure (String.ofList (Text.trimRightWhile (· == ';') text.toList))
      | some (.expr _ e) => expr cx e
      | _ => pure ""
    let c ← match condition with
      | none => pure "true"
      | some condition => expr cx condition
    let u ← match update with
      | none => pure ""
      | some update => expr cx update
    return braced ("for (" ++ i ++ "; " ++ c ++ "; " ++ u ++ ") \x7b") span (← block cx body)
  | .gpioMode span pin mode => do
    let mode := if mode == "out" then "OUTPUT" else "INPUT"
    return [⟨"pinMode(" ++ (← expr cx pin) ++ ", " ++ mode ++ ");", some span⟩]
  | .digitalWrite span pin value => do
    let p ← expr cx pin
    let v ← expr cx value
    return [⟨digitalWrite cx.backend p v, some span⟩]
  | .pwmWrite span pin duty channel => do
    let ch ← match cx.backend, channel with
      | .base, some channel => expr cx channel
      | _, _ => pure "0"
    let p ← expr cx pin
    let d ← expr cx duty
    let lines := match cx.backend with
      | .base =>
        ["ledcAttachPin(" ++ p ++ ", " ++ ch ++ ");", "ledcWrite(" ++ ch ++ ", " ++ d ++ ");"]
      | .esp32 => ["ledcAttach(" ++ p ++ ", 5000, 8);", "ledcWrite(" ++ p ++ ", " ++ d ++ ");"]
      | .generic => ["analogWrite(" ++ p ++ ", " ++ d ++ ");"]
    return lines.map (⟨·, some span⟩)
  | .rgbWrite span pin red green blue => do
    match cx.backend with
    | .esp32 =>
      let p ← expr cx pin
      let r ← expr cx red
      let g ← expr cx green
      let b ← expr cx blue
      return [⟨"neopixelWrite(" ++ p ++ ", " ++ r ++ ", " ++ g ++ ", " ++ b ++ ");", some span⟩]
    | backend => throw (.rgbUnsupported backend span)
  | .wifiConnect span ssid password => do
    let s ← expr cx ssid
    let p ← expr cx password
    return (wifiConnect cx.backend s p).map (⟨·, some span⟩)
  | .delay span time => do
    let text ← match time with
      | .literal _ (.duration amount unit) typeName =>
        if Text.lower typeName == "duration" then delayLiteral amount unit
        else do pure ("delay(" ++ (← literal (.duration amount unit) typeName) ++ ");")
      | other => do pure ("delay(" ++ (← expr cx other) ++ ");")
    return [⟨text, some span⟩]
  | .raw span code => return raw span code
  | .block body => return braced "\x7b" body.span (← block cx body)
  | .importDecl .. | .functionDecl .. | .loopDecl .. =>
    return [⟨"/* unsupported statement */", none⟩]

end

end Emit

end SketchCompiler
