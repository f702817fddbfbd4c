/-
The state of an analysis and the checks that look at one node only.  An
analysis keeps the open scopes, the declared structs and tasks, the type
that the function around a statement returns, the file of the statement
looked at last, and its findings in the order in which they were made.
-/
import SketchCompiler.Analysis.Finding
import SketchCompiler.Board
import SketchCompiler.Scope
import SketchCompiler.TypeName

namespace SketchCompiler

/-- The fields of a struct and their types, in declaration order. -/
abbrev StructLayout := List (String × String)

/-- What an analysis knows and has found. -/
structure Analysis where
  board : Board
  scopes : ScopeChain
  structs : List (String × StructLayout) := []
  tasks : List String := []
  returnType : String := "void"
  file : String := "<input>"
  issues : List Issue := []

/-- An analysis for a board, before any program. -/
def Analysis.start (board : String) : Analysis :=
  { board := .ofName board, scopes := { globals := builtins } }

/-- A check reads and extends an analysis. -/
abbrev Check := StateM Analysis

namespace Check

-- ==== reading and reporting

/-- Reports a finding at the start of a span, in the current file. -/
def report (span : Span) (finding : Finding) : Check Unit :=
  modify fun a =>
    { a with issues := a.issues ++ [⟨finding, a.file, span.startLine, span.startCol⟩] }

/-- Reports a finding if the condition holds. -/
def reportIf (condition : Bool) (span : Span) (finding : Finding) : Check Unit :=
  if condition then report span finding else pure ()

/-- Makes a file the current one. -/
def enterFile (file : String) : Check Unit :=
  modify fun a => { a with file }

/-- The symbol of a name. -/
def resolve (name : String) : Check (Option Symbol) := do
  return (← get).scopes.resolve name

/-- The layout of a struct. -/
def layout? (name : String) : Check (Option StructLayout) := do
  return (← get).structs.lookup name

/-- Defines a symbol in the innermost scope, and tells whether its name
was free. -/
def define (s : Symbol) : Check Bool := do
  match (← get).scopes.define s with
  | some scopes => modify fun a => { a with scopes }; return true
  | none => return false

/-- Defines a symbol in the global scope, and tells whether its name was
free. -/
def defineGlobal (s : Symbol) : Check Bool := do
  match (← get).scopes.defineGlobal s with
  | some scopes => modify fun a => { a with scopes }; return true
  | none => return false

/-- Opens a scope. -/
def openScope : Check Unit :=
  modify fun a => { a with scopes := a.scopes.push }

/-- Closes the innermost scope. -/
def closeScope : Check Unit :=
  modify fun a => { a with scopes := a.scopes.pop }

/-- A check of the body of a function that returns the type.  The type
that was expected before is expected again behind it. -/
def returning (type : String) (body : Check Unit) : Check Unit := do
  let previous := (← get).returnType
  modify fun a => { a with returnType := type }
  body
  modify fun a => { a with returnType := previous }

/-- Defines a parameter of a function. -/
def defineParam (p : Param) : Check Unit := do
  let free ← define { name := p.name, kind := "param", typeName := TypeName.normalize p.typeName }
  reportIf (!free) p.span (.duplicateParameter p.name)

/-- The integer that an expression is known to be: a literal, or a name
whose variable starts with one. -/
def constInt? : Expr → Check (Option Int)
  | .literal _ value typeName => return if typeName == "int" then value.toInt? else none
  | .ident _ name => return (← resolve name).bind (·.constInt)
  | _ => return none

-- ==== pins

/-- Checks a pin argument of a known type. -/
def pin (e : Expr) (type call : String) : Check Unit := do
  if !(["int", "Pin"].contains type) then report e.span (.pinNotInt call)
  else
    let some n ← constInt? e | return
    let board := (← get).board
    reportIf (!board.validPins.contains n) e.span (.pinInvalid n board.name)
    reportIf (board.reservedPins.contains n) e.span (.pinReserved n board.name)

/-- Checks that a pin can have a mode. -/
def pinMode (span : Span) (e : Expr) (mode : String) : Check Unit := do
  let some n ← constInt? e | return
  let board := (← get).board
  reportIf (board.inputOnlyPins.contains n && mode == "out") span (.pinInputOnlyMode n board.name)
  reportIf (board.reservedPins.contains n) span (.pinReservedMode n board.name)
  reportIf (board.strappingPins.contains n) span (.pinStrapping n)

/-- Checks that a pin can be driven. -/
def outputPin (e : Expr) (call : String) : Check Unit := do
  let some n ← constInt? e | return
  let board := (← get).board
  reportIf (board.inputOnlyPins.contains n) e.span (.pinInputOnly call n board.name)
  reportIf (board.flashPins.contains n) e.span (.pinFlash n call)

/-- Checks that a pin can carry a pulse width signal. -/
def pwmPin (e : Expr) : Check Unit := do
  let some n ← constInt? e | return
  let board := (← get).board
  reportIf (!board.pwmPins.contains n) e.span (.pinNotPwm n board.name)

/-- Checks that a pin can read an analog voltage. -/
def adcPin (e : Expr) : Check Unit := do
  let some n ← constInt? e | return
  let board := (← get).board
  if !board.adcPins.contains n then report e.span (.pinNotAdc n board.name)
  else reportIf (board.adc2Pins.contains n) e.span (.pinAdc2 n)

/-- Checks the pins of a bus. -/
def busPins (span : Span) (sda scl : Expr) : Check Unit := do
  match ← constInt? sda, ← constInt? scl with
  | some sda, some scl =>
    let board := (← get).board
    reportIf (board.reservedPins.contains sda) span (.busPinReserved "sda" sda board.name)
    reportIf (board.reservedPins.contains scl) span (.busPinReserved "scl" scl board.name)
  | _, _ => report span .busPinsNotConstant

-- ==== types

/-- Checks the type of what is returned. -/
def returnedType (span : Span) (type : String) : Check Unit := do
  let expected := (← get).returnType
  reportIf (!TypeName.isAssignable expected type) span (.returnMismatch expected type)

/-- Checks that an expression of the type `actual` can stand where
`expected` is wanted. -/
def expectType (e : Expr) (expected actual : String) (finding : Finding) : Check Unit :=
  reportIf (!TypeName.isAssignable expected actual) e.span finding

/-- Checks that an expression is of a numeric type. -/
def expectNumeric (e : Expr) (actual what : String) : Check Unit :=
  reportIf (!(["int", "float", "bool"].contains actual)) e.span (.argumentNotNumeric what)

/-- Reports an assignment to a constant, or to a field of one. -/
def mutableTarget : Expr → Check Unit
  | .ident span name => do
    reportIf ((← resolve name).any (·.isConst)) span (.constReassigned name)
  | .member span (.ident _ name) _ => do
    reportIf ((← resolve name).any (·.isConst)) span (.constFieldMutated name)
  | .member _ object _ => mutableTarget object
  | _ => pure ()

/-- Checks the types of an assignment. -/
def assignmentTypes (span : Span) (op target value : String) : Check Unit := do
  if op == "=" then reportIf (!TypeName.isAssignable target value) span .assignmentMismatch
  else
    reportIf (target == "Pin") span (.operatorOnPin op)
    reportIf (value == "Pin") span (.operatorWithPin op)
    if target == "Duration" || value == "Duration" then
      reportIf (!(["+=", "-="].contains op && target == "Duration" && value == "Duration")) span
        .compoundOnDuration
    else
      reportIf (!(["int", "float"].contains target && ["int", "float", "bool"].contains value))
        span .compoundNotNumeric

/-- The type of a cast. -/
def castType (span : Span) (source target : String) : Check String := do
  let castable := ["int", "float", "bool", "string"]
  if castable.contains source && castable.contains target then return target
  else
    report span (.castNotAllowed source target)
    return "unknown"

/-- The type of a member of a value of the given type. -/
def memberType (span : Span) (object member : String) : Check String := do
  match ← layout? object with
  | none =>
    report span (.noMember object member)
    return "unknown"
  | some layout =>
    match layout.lookup member with
    | some type => return type
    | none =>
      report span (.noField object member)
      return "unknown"

/-- The type of a unary operator applied to a value of the given type. -/
def unaryType (span : Span) (op operand : String) : Check String := do
  if op == "!" then return "bool"
  else if op == "~" then
    if operand == "int" then return "int"
    else
      report span .complementNotInt
      return "unknown"
  else if op == "-" && ["int", "float"].contains operand then return operand
  else return "unknown"

/-- The type of an increment or decrement. -/
def postfixType (span : Span) : Expr → Check String
  | .ident _ name => do
    match ← resolve name with
    | none =>
      report span (.undefinedSymbol name)
      return "unknown"
    | some s =>
      reportIf s.isConst span (.constMutated name)
      reportIf (!(["int", "float"].contains s.typeName)) span .postfixNotNumeric
      return s.typeName
  | _ => do
    report span .postfixTarget
    return "unknown"

/-- The type of a bitwise operator applied to values of the given
types. -/
def bitwiseType (span : Span) (op left right : String) : Check String := do
  if left == "Pin" || right == "Pin" then
    report span .bitwiseOnPin
    return "unknown"
  else if left != "int" || right != "int" then
    report span (.bitwiseNotInt op)
    return "unknown"
  else return "int"

/-- The type of an arithmetic operator applied to values of the given
types. -/
def arithmeticType (span : Span) (op left right : String) : Check String := do
  if left == "Pin" || right == "Pin" then
    report span .arithmeticOnPin
    return "unknown"
  else if left == "Duration" || right == "Duration" then
    if ["+", "-"].contains op && left == "Duration" && right == "Duration" then return "Duration"
    else
      report span .arithmeticOnDuration
      return "unknown"
  else if left == "float" || right == "float" then return "float"
  else if left == "int" && right == "int" then return "int"
  else return "unknown"

/-- The type of a binary operator applied to values of the given
types. -/
def binaryType (span : Span) (op left right : String) : Check String := do
  if ["+", "-", "*", "/", "%"].contains op then arithmeticType span op left right
  else if ["==", "!=", ">", "<", ">=", "<="].contains op then
    if (left == "Duration") != (right == "Duration") then
      report span .comparisonOnDuration
      return "unknown"
    else return "bool"
  else if ["&&", "||"].contains op then return "bool"
  else return "unknown"

end Check

end SketchCompiler
