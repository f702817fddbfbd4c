/-
The analysis of a program: names, types and hardware rules.

Structs and tasks are declared first, then functions, so that a body may
use what is declared behind it; then every declaration is visited in
order.  Visiting descends into blocks, each with a scope of its own, and
infers the type of every expression on the way.
-/
import SketchCompiler.Analysis.State

namespace SketchCompiler

open Check

mutual

/-- The type of an expression, `unknown` where it has none. -/
def inferType : Expr → Check String
  | .literal _ _ typeName => return TypeName.normalize typeName
  | .ident span name => do
    match ← resolve name with
    | some s => return s.typeName
    | none =>
      report span (.undefinedSymbol name)
      return "unknown"
  | .assign span target op value => do
    mutableTarget target
    let targetType ← inferType target
    let valueType ← inferType value
    assignmentTypes span op targetType valueType
    return targetType
  | .cast span operand typeName => do
    let source ← inferType operand
    castType span source (TypeName.normalize typeName)
  | .member span object name => do
    let objectType ← inferType object
    memberType span objectType name
  | .ifElse span condition thenBlock thenValue elseBlock elseValue => do
    let conditionType ← inferType condition
    expectType condition "bool" conditionType (.conditionNotBool "If expression")
    visitBlock thenBlock
    visitBlock elseBlock
    let thenType ← inferType thenValue
    let elseType ← inferType elseValue
    if thenType == elseType then return thenType
    else
      report span (.branchMismatch thenType elseType)
      return "unknown"
  | .structInit span typeName fields => do
    match ← layout? typeName with
    | none =>
      report span (.unknownStruct typeName)
      inferFields fields
      return "unknown"
    | some layout =>
      let seen ← checkFields span typeName layout [] fields
      let missing := (layout.map (·.1)).filter (!seen.contains ·)
      reportIf (!missing.isEmpty) span (.missingFields missing)
      return typeName
  | .postfixed span operand _ => postfixType span operand
  | .unary span op operand => do
    let operandType ← inferType operand
    unaryType span op operandType
  | .bitwise span left op right => do
    let leftType ← inferType left
    let rightType ← inferType right
    bitwiseType span op leftType rightType
  | .binary span left op right => do
    let leftType ← inferType left
    let rightType ← inferType right
    binaryType span op leftType rightType
  | .call span (.ident _ name) args => do
    match ← resolve name with
    | none =>
      report span (.undefinedFunction name)
      return "unknown"
    | some s =>
      if s.kind != "function" then
        report span (.notCallable name)
        return "unknown"
      else
        let expected := s.paramTypes.getD []
        let result := (s.returnType.filter (· != "")).getD "unknown"
        if args.length != expected.length then
          report span (.argumentCount name expected.length args.length)
          inferAll args
          return result
        else
          checkArguments name 1 expected args
          if name == "analogRead" then
            match args with
            | [] => pure ()
            | arg :: _ => adcPin arg
          return result
  | .call span _ _ => do
    report span .calleeNotNamed
    return "unknown"

/-- Infers the types of expressions, for their findings alone. -/
def inferAll : List Expr → Check Unit
  | [] => pure ()
  | e :: es => do
    let _ ← inferType e
    inferAll es

/-- Checks arguments against the types of parameters, counting from
`index`. -/
def checkArguments (name : String) : Nat → List String → List Expr → Check Unit
  | index, expected :: types, arg :: args => do
    let actual ← inferType arg
    expectType arg expected actual (.argumentMismatch index name expected actual)
    checkArguments name (index + 1) types args
  | _, _, _ => pure ()

/-- Infers the types of initializers, for their findings alone. -/
def inferFields : List FieldInit → Check Unit
  | [] => pure ()
  | .mk _ value :: fields => do
    let _ ← inferType value
    inferFields fields

/-- Checks initializers against the layout of a struct; the result adds
the names they initialize to those `seen` before. -/
def checkFields (span : Span) (struct : String) (layout : StructLayout)
    (seen : List String) : List FieldInit → Check (List String)
  | [] => return seen
  | .mk name value :: fields => do
    if seen.contains name then
      report span (.duplicateInitializer name)
      let _ ← inferType value
      checkFields span struct layout seen fields
    else
      match layout.lookup name with
      | none =>
        report span (.noField struct name)
        let _ ← inferType value
      | some expected =>
        let actual ← inferType value
        expectType value expected actual (.fieldMismatch name expected actual)
      checkFields span struct layout (seen ++ [name]) fields

/-- Visits the statements of a block in a scope of its own. -/
def visitBlock : Block → Check Unit
  | .mk _ statements => do
    openScope
    visitAll statements
    closeScope

/-- Visits statements in order. -/
def visitAll : List Stmt → Check Unit
  | [] => pure ()
  | s :: rest => do
    visit s
    visitAll rest

/-- Visits the arms of a match on a value of the given type, and tells
whether one of them is the wildcard. -/
def visitArms (valueType : String) : List MatchArm → Check Bool
  | [] => return false
  | .mk span pattern isWildcard body :: arms => do
    if !isWildcard then
      match pattern with
      | none => report span .armWithoutPattern
      | some pattern =>
        let patternType ← inferType pattern
        reportIf (patternType != valueType) span (.armMismatch patternType valueType)
    visitBlock body
    let others ← visitArms valueType arms
    return isWildcard || others

/-- Visits the decorators of a task, and counts the cores they name. -/
def visitDecorators : List Decorator → Check Nat
  | [] => return 0
  | .mk span name value :: rest => do
    let cores ←
      if name == "core" then
        match ← constInt? value with
        | none =>
          report span .coreNotConstant
          pure 0
        | some core =>
          reportIf (core != 0 && core != 1) span .coreOutOfRange
          pure 1
      else if name == "rate" then
        let rateType ← inferType value
        reportIf (rateType != "Duration" && rateType != "int") span .rateNotDuration
        pure 0
      else
        report span (.unknownDecorator name)
        pure 0
    return cores + (← visitDecorators rest)

/-- Visits the devices of a bus. -/
def visitDevices : List Device → Check Unit
  | [] => pure ()
  | .mk span name address :: rest => do
    let addressType ← inferType address
    reportIf (addressType != "int") span (.deviceAddress name)
    visitDevices rest

/-- Visits a statement or declaration. -/
def visit : Stmt → Check Unit
  | .importDecl span _ => enterFile span.file
  | .structDecl span _ _ => enterFile span.file
  | .functionDecl span _ params returnType body => do
    enterFile span.file
    returning (TypeName.normalize returnType) do
      openScope
      params.forM defineParam
      visitBlock body
      closeScope
  | .taskDecl span _ decorators body => do
    enterFile span.file
    let cores ← visitDecorators decorators
    reportIf (cores > 1) span .coreRepeated
    match body with
    | none => pure ()
    | some body => visitBlock body
  | .busDecl span busType _ sda scl freq devices => do
    enterFile span.file
    let kind := Text.upper busType
    reportIf (kind != "I2C" && kind != "SPI") span (.unsupportedBus busType)
    busPins span sda scl
    let freqType ← inferType freq
    reportIf (freqType != "int" && freqType != "float") span .busFrequency
    visitDevices devices
  | .loopDecl span body => do
    enterFile span.file
    visitBlock body
  | .varDecl span name typeName initializer _ isConst isVolatile => do
    enterFile span.file
    let inferred ← match initializer with
      | none => pure "unknown"
      | some value => inferType value
    let written := typeName.filter (· != "")
    let declared := TypeName.normalize (written.getD inferred)
    let known := TypeName.isPrimitive declared || (← layout? declared).isSome
    reportIf (!known) span (.unknownType (written.getD declared))
    match typeName with
    | none => pure ()
    | some typeName =>
      reportIf (initializer.isSome && !TypeName.isAssignable typeName inferred) span
        (.initializerMismatch name typeName inferred)
    let constInt := match initializer with
      | some (.literal _ value "int") => value.toInt?
      | _ => none
    let free ← define { name, kind := "var", typeName := declared, constInt, isConst, isVolatile }
    reportIf (!free) span (.variableRedefined name)
  | .block body => do
    enterFile body.span.file
    visitBlock body
  | .ifElse span condition thenBranch elseBranch => do
    enterFile span.file
    let conditionType ← inferType condition
    expectType condition "bool" conditionType (.conditionNotBool "If")
    visitBlock thenBranch
    match elseBranch with
    | none => pure ()
    | some body => visitBlock body
  | .matchValue span value arms => do
    enterFile span.file
    let valueType ← inferType value
    let hasWildcard ← visitArms valueType arms
    reportIf (!hasWildcard) span .noWildcardArm
  | .spawn span taskName => do
    enterFile span.file
    let isTask := ((← get).scopes.globals.get? taskName).any (·.kind == "task")
    reportIf (!isTask) span (.spawnTarget taskName)
  | .whileLoop span condition body => do
    enterFile span.file
    let conditionType ← inferType condition
    expectType condition "bool" conditionType (.conditionNotBool "While")
    visitBlock body
  | .forLoop span init condition update body => do
    enterFile span.file
    match init with
    | none => pure ()
    | some init => visit init
    match condition with
    | none => pure ()
    | some condition =>
      let conditionType ← inferType condition
      expectType condition "bool" conditionType (.conditionNotBool "For")
    match update with
    | none => pure ()
    | some update =>
      let _ ← inferType update
    visitBlock body
  | .returnValue span value => do
    enterFile span.file
    let valueType ← match value with
      | none => pure "void"
      | some value => inferType value
    returnedType span valueType
  | .expr span expression => do
    enterFile span.file
    let _ ← inferType expression
  | .gpioMode span pinExpr mode => do
    enterFile span.file
    let pinType ← inferType pinExpr
    pin pinExpr pinType "gpioMode"
    pinMode span pinExpr mode
  | .digitalWrite span pinExpr value => do
    enterFile span.file
    let pinType ← inferType pinExpr
    pin pinExpr pinType "digitalWrite"
    outputPin pinExpr "digitalWrite"
    let valueType ← inferType value
    expectNumeric value valueType "digitalWrite value must be int/bool"
  | .pwmWrite span pinExpr duty channel => do
    enterFile span.file
    let pinType ← inferType pinExpr
    pin pinExpr pinType "pwmWrite"
    pwmPin pinExpr
    let dutyType ← inferType duty
    expectNumeric duty dutyType "pwmWrite duty must be numeric"
    match channel with
    | none => pure ()
    | some channel =>
      let channelType ← inferType channel
      expectNumeric channel channelType "pwmWrite channel must be numeric"
  | .rgbWrite span pinExpr red green blue => do
    enterFile span.file
    let pinType ← inferType pinExpr
    pin pinExpr pinType "rgbWrite"
    outputPin pinExpr "rgbWrite"
    let redType ← inferType red
    expectNumeric red redType "rgbWrite red channel must be numeric"
    let greenType ← inferType green
    expectNumeric green greenType "rgbWrite green channel must be numeric"
    let blueType ← inferType blue
    expectNumeric blue blueType "rgbWrite blue channel must be numeric"
  | .wifiConnect span ssid password => do
    enterFile span.file
    let ssidType ← inferType ssid
    expectType ssid "string" ssidType (.wifiArgument "SSID")
    let passwordType ← inferType password
    expectType password "string" passwordType (.wifiArgument "password")
  | .delay span time => do
    enterFile span.file
    let timeType ← inferType time
    expectType time "Duration" timeType .delayArgument
  | .raw span _ => enterFile span.file

end

-- ==== declarations

/-- The fields of a struct declaration; one named twice is reported and
counted once. -/
def declareFields (struct : String) : List StructField → StructLayout → Check StructLayout
  | [], layout => return layout
  | f :: fields, layout => do
    if (layout.lookup f.name).isSome then
      report f.span (.duplicateField f.name struct)
      declareFields struct fields layout
    else declareFields struct fields (layout ++ [(f.name, TypeName.normalize f.typeName)])

/-- Declares a struct or a task. -/
def declareType : Stmt → Check Unit
  | .structDecl span name fields => do
    if (← layout? name).isSome then report span (.structRedefined name)
    else
      let layout ← declareFields name fields []
      modify fun a => { a with structs := a.structs ++ [(name, layout)] }
      let free ← defineGlobal { name, kind := "struct", typeName := name }
      reportIf (!free) span (.structConflict name)
  | .taskDecl span name _ _ => do
    if (← get).tasks.contains name then report span (.taskRedefined name)
    else
      modify fun a => { a with tasks := a.tasks ++ [name] }
      let free ← defineGlobal { name, kind := "task", typeName := "task" }
      reportIf (!free) span (.taskConflict name)
  | _ => pure ()

/-- Declares a function. -/
def declareFunction : Stmt → Check Unit
  | .functionDecl span name params returnType _ => do
    let types := params.map (·.typeName)
    let free ← defineGlobal
      { name, kind := "function"
        typeName := "fn(" ++ ",".intercalate types ++ ")->" ++ returnType
        paramTypes := some (types.map TypeName.normalize)
        returnType := some (TypeName.normalize returnType) }
    reportIf (!free) span (.functionRedefined name)
  | _ => pure ()

/-- Analyses a program. -/
def Program.check (p : Program) : Check Unit := do
  p.declarations.forM declareType
  p.declarations.forM declareFunction
  visitAll p.declarations

/-- The analysis of a program behind the analyses before it. -/
def Analysis.add (a : Analysis) (p : Program) : Analysis :=
  (p.check.run a).2

/-- The analysis of a program for a board. -/
def Program.analyze (board : String) (p : Program) : Analysis :=
  (Analysis.start board).add p

end SketchCompiler
