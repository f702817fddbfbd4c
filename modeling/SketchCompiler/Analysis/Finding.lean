/-
Findings of the analysis: what can be wrong with a program, or worth a
warning, and how it is worded.
-/
import SketchCompiler.Numeral
import SketchCompiler.Program

namespace SketchCompiler

/-- How serious a finding is. -/
inductive Severity where
  | error
  | warning
  deriving DecidableEq, Repr

/-- The word for a severity. -/
def Severity.text : Severity → String
  | error => "error"
  | warning => "warning"

/-- What an analysis can find. -/
inductive Finding where
  -- declarations
  | functionRedefined (name : String)
  | structRedefined (name : String)
  | structConflict (name : String)
  | duplicateField (field struct : String)
  | taskRedefined (name : String)
  | taskConflict (name : String)
  | duplicateParameter (name : String)
  | variableRedefined (name : String)
  | unknownType (name : String)
  | initializerMismatch (name declared actual : String)
  -- tasks and buses
  | coreNotConstant
  | coreOutOfRange
  | coreRepeated
  | rateNotDuration
  | unknownDecorator (name : String)
  | spawnTarget (name : String)
  | unsupportedBus (busType : String)
  | busPinsNotConstant
  | busPinReserved (label : String) (pin : Int) (board : String)
  | busFrequency
  | deviceAddress (name : String)
  -- statements
  | conditionNotBool (construct : String)
  | returnMismatch (expected actual : String)
  | delayArgument
  | wifiArgument (part : String)
  | armWithoutPattern
  | armMismatch (pattern value : String)
  | noWildcardArm
  -- pins
  | pinNotInt (call : String)
  | argumentNotNumeric (what : String)
  | pinInvalid (pin : Int) (board : String)
  | pinReserved (pin : Int) (board : String)
  | pinInputOnlyMode (pin : Int) (board : String)
  | pinReservedMode (pin : Int) (board : String)
  | pinStrapping (pin : Int)
  | pinInputOnly (call : String) (pin : Int) (board : String)
  | pinFlash (pin : Int) (call : String)
  | pinNotPwm (pin : Int) (board : String)
  | pinNotAdc (pin : Int) (board : String)
  | pinAdc2 (pin : Int)
  -- expressions
  | undefinedSymbol (name : String)
  | undefinedFunction (name : String)
  | notCallable (name : String)
  | calleeNotNamed
  | argumentCount (name : String) (expected actual : Nat)
  | argumentMismatch (index : Nat) (name expected actual : String)
  | constReassigned (name : String)
  | constFieldMutated (name : String)
  | constMutated (name : String)
  | assignmentMismatch
  | operatorOnPin (op : String)
  | operatorWithPin (op : String)
  | compoundOnDuration
  | compoundNotNumeric
  | castNotAllowed (source target : String)
  | noMember (typeName member : String)
  | noField (struct field : String)
  | branchMismatch (thenType elseType : String)
  | unknownStruct (name : String)
  | duplicateInitializer (field : String)
  | fieldMismatch (field expected actual : String)
  | missingFields (names : List String)
  | postfixTarget
  | postfixNotNumeric
  | complementNotInt
  | bitwiseOnPin
  | bitwiseNotInt (op : String)
  | arithmeticOnPin
  | arithmeticOnDuration
  | comparisonOnDuration
  deriving DecidableEq, Repr

namespace Finding

/-- Findings on pins that work but deserve care are warnings. -/
def severity : Finding → Severity
  | pinStrapping _ | pinFlash .. | pinAdc2 _ => .warning
  | _ => .error

/-- The wording of a finding.  A pin number that is too long to write
has none. -/
def message : Finding → Except NumeralError String
  | functionRedefined name => .ok s!"Function '{name}' is already defined"
  | structRedefined name => .ok s!"Struct '{name}' is already defined"
  | structConflict name => .ok s!"Symbol '{name}' conflicts with an existing declaration"
  | duplicateField field struct => .ok s!"Duplicate field '{field}' in struct '{struct}'"
  | taskRedefined name => .ok s!"Task '{name}' is already defined"
  | taskConflict name => .ok s!"Task '{name}' conflicts with an existing symbol"
  | duplicateParameter name => .ok s!"Duplicate parameter '{name}'"
  | variableRedefined name => .ok s!"Variable '{name}' already declared in this scope"
  | unknownType name => .ok s!"Unknown type '{name}'"
  | initializerMismatch name declared actual =>
    .ok s!"Type mismatch for '{name}': declared '{declared}', got '{actual}'"
  | coreNotConstant => .ok "@core decorator requires an integer literal"
  | coreOutOfRange => .ok "@core must be 0 or 1 on ESP32-S3"
  | coreRepeated => .ok "Task may only define @core once"
  | rateNotDuration => .ok "@rate decorator expects a Duration/int value"
  | unknownDecorator name => .ok s!"Unknown task decorator '@{name}'"
  | spawnTarget name => .ok s!"Spawn target '{name}' is not a declared task"
  | unsupportedBus busType => .ok s!"Unsupported bus type '{busType}'"
  | busPinsNotConstant => .ok "Bus sda/scl must be compile-time integer pins"
  | busPinReserved label pin board => do
    let pin ← Numeral.writeInt pin
    return s!"Bus {label} pin GPIO{pin} conflicts with reserved pins on board '{board}'"
  | busFrequency => .ok "Bus freq must be numeric"
  | deviceAddress name => .ok s!"Device '{name}' address must be int"
  | conditionNotBool construct => .ok s!"{construct} condition must be bool"
  | returnMismatch expected actual =>
    .ok s!"Return type mismatch: expected '{expected}', got '{actual}'"
  | delayArgument => .ok "delay expects a Duration or int value"
  | wifiArgument part => .ok s!"wifiConnect {part} must be string"
  | armWithoutPattern => .ok "Non-wildcard match arm must define a pattern"
  | armMismatch pattern value =>
    .ok s!"Match arm pattern type '{pattern}' is not compatible with '{value}'"
  | noWildcardArm => .ok "Match statement must include wildcard arm '_' for exhaustiveness"
  | pinNotInt call => .ok s!"{call} pin must be int"
  | argumentNotNumeric what => .ok s!"{what}"
  | pinInvalid pin board => do
    let pin ← Numeral.writeInt pin
    return s!"GPIO{pin} is not a valid GPIO pin on board '{board}'"
  | pinReserved pin board => do
    let pin ← Numeral.writeInt pin
    return s!"GPIO{pin} is reserved on board '{board}' and cannot be used"
  | pinInputOnlyMode pin board => do
    let pin ← Numeral.writeInt pin
    return s!"GPIO{pin} is input-only on board '{board}' and cannot be configured as 'out'"
  | pinReservedMode pin board => do
    let pin ← Numeral.writeInt pin
    return s!"GPIO{pin} is reserved on board '{board}' and cannot be used for gpioMode"
  | pinStrapping pin => do
    let pin ← Numeral.writeInt pin
    return s!"GPIO{pin} is a strapping pin; validate boot-state side effects"
  | pinInputOnly call pin board => do
    let pin ← Numeral.writeInt pin
    return s!"{call} cannot use GPIO{pin}; it is input-only on board '{board}'"
  | pinFlash pin call => do
    let pin ← Numeral.writeInt pin
    return s!"GPIO{pin} is connected to SPI flash on most ESP32 modules; avoid using it for {call}"
  | pinNotPwm pin board => do
    let pin ← Numeral.writeInt pin
    return s!"GPIO{pin} is not PWM-capable/safe for ledc on board '{board}'"
  | pinNotAdc pin board => do
    let pin ← Numeral.writeInt pin
    return s!"GPIO{pin} does not support ADC on board '{board}'"
  | pinAdc2 pin => do
    let pin ← Numeral.writeInt pin
    return s!"GPIO{pin} is on ADC2; analogRead may conflict when Wi-Fi is active"
  | undefinedSymbol name => .ok s!"Undefined symbol '{name}'"
  | undefinedFunction name => .ok s!"Undefined function '{name}'"
  | notCallable name => .ok s!"Symbol '{name}' is not callable"
  | calleeNotNamed => .ok "Only named functions are callable"
  | argumentCount name expected actual =>
    .ok s!"Function '{name}' expects {expected} argument(s), got {actual}"
  | argumentMismatch index name expected actual =>
    .ok s!"Argument {index} of '{name}' expects '{expected}', got '{actual}'"
  | constReassigned name => .ok s!"Cannot reassign const variable '{name}'"
  | constFieldMutated name => .ok s!"Cannot mutate field of const variable '{name}'"
  | constMutated name => .ok s!"Cannot mutate const variable '{name}'"
  | assignmentMismatch => .ok "Assignment type mismatch"
  | operatorOnPin op => .ok s!"Operator '{op}' is not supported for Pin"
  | operatorWithPin op => .ok s!"Operator '{op}' is not supported with Pin"
  | compoundOnDuration => .ok "Only '+=' and '-=' are supported for Duration operands"
  | compoundNotNumeric => .ok "Compound assignment requires numeric operands"
  | castNotAllowed source target =>
    .ok s!"Explicit cast from '{source}' to '{target}' is not allowed"
  | noMember typeName member => .ok s!"Type '{typeName}' has no member '{member}'"
  | noField struct field => .ok s!"Struct '{struct}' has no field '{field}'"
  | branchMismatch thenType elseType =>
    .ok s!"If expression branches must return same type, got '{thenType}' and '{elseType}'"
  | unknownStruct name => .ok s!"Unknown struct type '{name}'"
  | duplicateInitializer field => .ok s!"Duplicate initializer for field '{field}'"
  | fieldMismatch field expected actual =>
    .ok s!"Field '{field}' expects '{expected}', got '{actual}'"
  | missingFields names =>
    .ok ("Missing struct field initializer(s): " ++ ", ".intercalate names)
  | postfixTarget => .ok "Postfix operators require an identifier target"
  | postfixNotNumeric => .ok "Postfix operators require numeric operand"
  | complementNotInt => .ok "Bitwise not requires int operand"
  | bitwiseOnPin => .ok "Math/bitwise operations are not allowed on Pin values"
  | bitwiseNotInt op => .ok s!"Operator '{op}' requires int operands"
  | arithmeticOnPin => .ok "Math operations are not allowed on Pin values"
  | arithmeticOnDuration => .ok "Only Duration +/- Duration is supported"
  | comparisonOnDuration => .ok "Duration comparisons require both operands to be Duration"

end Finding

/-- A finding and the place it is reported at. -/
structure Issue where
  finding : Finding
  file : String
  line : Nat
  column : Nat
  deriving DecidableEq, Repr

/-- The severity of an issue. -/
def Issue.severity (i : Issue) : Severity :=
  i.finding.severity

end SketchCompiler
