/-
The rules for statements, blocks and declarations.  As with expressions,
a rule takes the rules it refers to as parameters.
-/
import SketchCompiler.Program.ExprGrammar

namespace SketchCompiler.Grammar

open SketchCompiler.Parser

/-- A statement or declaration; `none` where a mistake was skipped. -/
abbrev Item := Option Stmt

-- ==== blocks

/-- A block of items in braces. -/
def block (declaration : Parser Item) : Parser Block := do
  let left ← expect .lbrace "'\x7b' to start block"
  let items ← itemsUntil .rbrace declaration
  let right ← expect .rbrace "'\x7d' to close block"
  return .mk ((← spanOf left).upTo (← spanOf right)) (items.filterMap id)

/-- The kinds that start a declaration which a value block cannot
hold. -/
def topLevelKinds : List Kind :=
  [.kwImport, .kwFn, .kwStruct, .kwLoop, .kwBus, .kwTask, .atSign]

/-- The kinds that start a variable declaration. -/
def variableKinds : List Kind :=
  [.kwLet, .kwConst, .kwVolatile]

/-- The kinds that start a statement in a value block.  A leading `if`
starts an expression there. -/
def statementKinds : List Kind :=
  [.kwWhile, .kwFor, .kwMatch, .kwSpawn, .kwReturn, .lbrace, .kwGpioMode, .kwDigitalWrite,
   .kwPwmWrite, .kwRgbWrite, .kwWifiConnect, .kwDelay, .kwUnsafe]

/-- The next item of a value block, the items so far in reverse, or its
value. -/
def valueStep (declaration : Parser Item) (statement : Parser Stmt) (expression : Parser Expr)
    (items : List Stmt) : Parser (Round (List Stmt) (List Stmt × Option Expr)) := do
  let c ← get
  if c.kind = .rbrace ∨ c.atEnd then return .done (items.reverse, none)
  else if topLevelKinds.contains c.kind then failHere .misplacedDeclaration
  else if variableKinds.contains c.kind then
    match ← declaration with
    | some item => return .again (item :: items)
    | none => return .again items
  else if statementKinds.contains c.kind then return .again ((← statement) :: items)
  else
    let value ← expression
    match ← accept .semicolon with
    | some stop => return .again (.expr (value.span.upTo (← spanOf stop)) value :: items)
    | none => return .done (items.reverse, some value)

/-- The items of a value block and its value, the first expression
without a semicolon behind it. -/
def valueItems (declaration : Parser Item) (statement : Parser Stmt)
    (expression : Parser Expr) : Parser (List Stmt × Option Expr) :=
  loop (valueStep declaration statement expression) []

/-- A block that ends in a value; `context` names it in reports. -/
def valueBlock (declaration : Parser Item) (statement : Parser Stmt)
    (expression : Parser Expr) (context : String) : Parser (Block × Expr) := do
  let left ← expect .lbrace ("'\x7b' to start " ++ context ++ " block")
  let (items, value?) ← valueItems declaration statement expression
  match value? with
  | none => failHere (.expected ("value expression before closing " ++ context ++ " block"))
  | some value =>
    let right ← expect .rbrace ("'\x7d' to close " ++ context ++ " block")
    return (.mk ((← spanOf left).upTo (← spanOf right)) items, value)

/-- A conditional expression. -/
def conditional (declaration : Parser Item) (statement : Parser Stmt)
    (expression : Parser Expr) : Parser Expr := do
  let start ← next
  let _ ← expect .lparen "'(' after if"
  let condition ← expression
  let _ ← expect .rparen "')' after condition"
  let (thenBlock, thenValue) ← valueBlock declaration statement expression "if expression"
  let _ ← expect .kwElse "'else' for if expression"
  let (elseBlock, elseValue) ← valueBlock declaration statement expression "else expression"
  return .ifElse ((← spanOf start).upTo elseBlock.span) condition thenBlock thenValue
    elseBlock elseValue

-- ==== variables

/-- The token that a variable declaration ends with: its semicolon, or in
a `for` header, where none belongs to it, the last one read for it. -/
def variableEnd (needsSemicolon : Bool) (name : Token) (initializer : Option Expr) :
    Parser Token :=
  if needsSemicolon then expect .semicolon "';' after variable declaration"
  else if initializer.isSome then last
  else pure name

/-- A variable declaration behind its qualifiers; in a `for` header no
semicolon belongs to it. -/
def variableDecl (expression : Parser Expr) (needsSemicolon isConst isVolatile : Bool) :
    Parser Stmt := do
  let name ← expect .ident "variable name"
  let typeName ← behind .colon (expect .ident "type name after ':'")
  let initializer ← behind .assign expression
  let stop ← variableEnd needsSemicolon name initializer
  return .varDecl ((← spanOf name).upTo (← spanOf stop)) name.lexeme (typeName.map (·.lexeme))
    initializer (!isConst) isConst isVolatile

/-- A variable declaration with its qualifiers, if one starts here:
`const`, `volatile` or both, then `let`, which may be left out behind a
qualifier. -/
def qualifiedDecl? (expression : Parser Expr) (needsSemicolon : Bool) : Parser Item := do
  if ← accepts .kwConst then
    let isVolatile ← accepts .kwVolatile
    let _ ← accept .kwLet
    return some (← variableDecl expression needsSemicolon true isVolatile)
  else if ← accepts .kwVolatile then
    let isConst ← accepts .kwConst
    let _ ← accept .kwLet
    return some (← variableDecl expression needsSemicolon isConst true)
  else if ← accepts .kwLet then
    return some (← variableDecl expression needsSemicolon false false)
  else return none

-- ==== statements

/-- An expression in the parentheses of a statement. -/
def parenthesized (expression : Parser Expr) (word : String) : Parser Expr := do
  let _ ← expect .lparen ("'(' after " ++ word)
  let condition ← expression
  let _ ← expect .rparen "')' after condition"
  return condition

/-- A conditional statement, its keyword read. -/
def ifStmt (expression : Parser Expr) (block : Parser Block) : Parser Stmt := do
  let condition ← parenthesized expression "if"
  let thenBranch ← block
  let elseBranch ← behind .kwElse block
  return .ifElse (condition.span.upTo (elseBranch.getD thenBranch).span) condition thenBranch
    elseBranch

/-- A `while` loop, its keyword read. -/
def whileStmt (expression : Parser Expr) (block : Parser Block) : Parser Stmt := do
  let condition ← parenthesized expression "while"
  let body ← block
  return .whileLoop (condition.span.upTo body.span) condition body

/-- The first clause of a `for` header. -/
def forInit (expression : Parser Expr) : Parser Item := do
  match ← qualifiedDecl? expression false with
  | some decl => return some decl
  | none =>
    if (← kind) = .semicolon then return none
    else
      let init ← expression
      return some (.expr init.span init)

/-- A `for` loop, its keyword read. -/
def forStmt (expression : Parser Expr) (block : Parser Block) : Parser Stmt := do
  let _ ← expect .lparen "'(' after for"
  let init ← forInit expression
  let _ ← expect .semicolon "';' after for initializer"
  let condition ← unlessNext .semicolon expression
  let _ ← expect .semicolon "';' after for condition"
  let update ← unlessNext .rparen expression
  let _ ← expect .rparen "')' after for clauses"
  let body ← block
  let start := match condition with
    | some e => e.span
    | none => body.span
  return .forLoop (start.upTo body.span) init condition update body

/-- A `spawn` statement, its keyword read. -/
def spawnStmt (start : Token) : Parser Stmt := do
  let name ← expect .ident "task name after spawn"
  let _ ← expect .lparen "'(' after task name"
  let _ ← expect .rparen "')' after task spawn arguments"
  let stop ← expect .semicolon "';' after spawn statement"
  return .spawn (← between start stop) name.lexeme

/-- A `return` statement, its keyword read. -/
def returnStmt (expression : Parser Expr) (start : Token) : Parser Stmt := do
  if (← kind) = .semicolon then
    let stop ← expect .semicolon "';' after return"
    return .returnValue (← between start stop) none
  else
    let value ← expression
    let stop ← expect .semicolon "';' after return"
    return .returnValue (value.span.upTo (← spanOf stop)) (some value)

/-- An arm of a `match` statement. -/
def matchArm (expression : Parser Expr) (block : Parser Block) : Parser MatchArm := do
  let c ← get
  if c.kind = .ident ∧ c.peek.lexeme = "_" then
    let wildcard ← next
    let _ ← expect .fatArrow "'=>' after match arm pattern"
    let body ← block
    return .mk ((← spanOf wildcard).upTo body.span) none true body
  else
    let pattern ← expression
    let _ ← expect .fatArrow "'=>' after match arm pattern"
    let body ← block
    return .mk (pattern.span.upTo body.span) (some pattern) false body

/-- A `match` statement, its keyword read. -/
def matchStmt (expression : Parser Expr) (block : Parser Block) (start : Token) :
    Parser Stmt := do
  let _ ← expect .lparen "'(' after match"
  let value ← expression
  let _ ← expect .rparen "')' after match value"
  let _ ← expect .lbrace "'\x7b' to start match arms"
  let arms ← itemsUntil .rbrace (matchArm expression block)
  let right ← expect .rbrace "'\x7d' after match arms"
  return .matchValue (← between start right) value arms

/-- The end of a hardware statement: the closing parenthesis and the
semicolon. -/
def callEnd (arguments statement : String) : Parser Token := do
  let _ ← expect .rparen ("')' after " ++ arguments)
  expect .semicolon ("';' after " ++ statement)

/-- A pin mode statement, its keyword read. -/
def gpioModeStmt (expression : Parser Expr) (start : Token) : Parser Stmt := do
  let _ ← expect .lparen "'(' after gpioMode"
  let pin ← expression
  let _ ← expect .comma "',' after pin"
  let mode ← expectAny [.kwOut, .kwIn] "pin mode 'out' or 'in'"
  let stop ← callEnd "gpioMode arguments" "gpioMode"
  return .gpioMode (← between start stop) pin mode.lexeme

/-- A digital write, its keyword read. -/
def digitalWriteStmt (expression : Parser Expr) (start : Token) : Parser Stmt := do
  let _ ← expect .lparen "'(' after digitalWrite"
  let pin ← expression
  let _ ← expect .comma "',' after pin"
  let value ← expression
  let stop ← callEnd "digitalWrite arguments" "digitalWrite"
  return .digitalWrite (← between start stop) pin value

/-- A pulse width write, its keyword read. -/
def pwmWriteStmt (expression : Parser Expr) (start : Token) : Parser Stmt := do
  let _ ← expect .lparen "'(' after pwmWrite"
  let pin ← expression
  let _ ← expect .comma "',' after pin"
  let duty ← expression
  let channel ← behind .comma expression
  let stop ← callEnd "pwmWrite arguments" "pwmWrite"
  return .pwmWrite (← between start stop) pin duty channel

/-- A colour write, its keyword read. -/
def rgbWriteStmt (expression : Parser Expr) (start : Token) : Parser Stmt := do
  let _ ← expect .lparen "'(' after rgbWrite"
  let pin ← expression
  let _ ← expect .comma "',' after rgbWrite pin"
  let red ← expression
  let _ ← expect .comma "',' after rgbWrite red"
  let green ← expression
  let _ ← expect .comma "',' after rgbWrite green"
  let blue ← expression
  let stop ← callEnd "rgbWrite arguments" "rgbWrite"
  return .rgbWrite (← between start stop) pin red green blue

/-- A network connection, its keyword read. -/
def wifiConnectStmt (expression : Parser Expr) (start : Token) : Parser Stmt := do
  let _ ← expect .lparen "'(' after wifiConnect"
  let ssid ← expression
  let _ ← expect .comma "',' after SSID"
  let password ← expression
  let stop ← callEnd "wifiConnect arguments" "wifiConnect"
  return .wifiConnect (← between start stop) ssid password

/-- A delay, its keyword read. -/
def delayStmt (expression : Parser Expr) (start : Token) : Parser Stmt := do
  let _ ← expect .lparen "'(' after delay"
  let time ← expression
  let stop ← callEnd "delay argument" "delay"
  return .delay (← between start stop) time

/-- Raw code, its keyword read.  Its span ends behind the payload, as if
that stood on one line. -/
def rawStmt (start : Token) : Parser Stmt := do
  let payload ← expect .rawBlock "'\x7b...\x7d' raw block after unsafe"
  let span : Span :=
    { file := ← file, startLine := start.pos.line, startCol := start.pos.column,
      endLine := payload.pos.line,
      endCol := payload.pos.column + max 1 payload.lexeme.length }
  return .raw span payload.lexeme

/-- An expression as a statement. -/
def exprStmt (expression : Parser Expr) : Parser Stmt := do
  let value ← expression
  let stop ← expect .semicolon "';' after expression"
  return .expr (value.span.upTo (← spanOf stop)) value

/-- A statement that is no declaration. -/
def statement (declaration : Parser Item) (expression : Parser Expr) : Parser Stmt := do
  let block := block declaration
  match ← kind with
  | .kwIf => do let _ ← next; ifStmt expression block
  | .kwWhile => do let _ ← next; whileStmt expression block
  | .kwFor => do let _ ← next; forStmt expression block
  | .kwMatch => do matchStmt expression block (← next)
  | .kwSpawn => do spawnStmt (← next)
  | .kwReturn => do returnStmt expression (← next)
  | .lbrace => do return .block (← block)
  | .kwGpioMode => do gpioModeStmt expression (← next)
  | .kwDigitalWrite => do digitalWriteStmt expression (← next)
  | .kwPwmWrite => do pwmWriteStmt expression (← next)
  | .kwRgbWrite => do rgbWriteStmt expression (← next)
  | .kwWifiConnect => do wifiConnectStmt expression (← next)
  | .kwDelay => do delayStmt expression (← next)
  | .kwUnsafe => do rawStmt (← next)
  | _ => exprStmt expression

-- ==== declarations

/-- An import, its keyword read. -/
def importDecl : Parser Stmt := do
  let path ← expect .string "module path string after import"
  let stop ← expect .semicolon "';' after import declaration"
  return .importDecl ((← spanOf path).upTo (← spanOf stop)) path.lexeme

/-- A parameter of a function. -/
def param : Parser Param := do
  let name ← expect .ident "parameter name"
  let _ ← expect .colon "':' after parameter name"
  let typeName ← expect .ident "parameter type"
  return { span := (← spanOf name).upTo (← spanOf typeName), name := name.lexeme,
           typeName := typeName.lexeme }

/-- A function, its keyword read. -/
def functionDecl (block : Parser Block) : Parser Stmt := do
  let name ← expect .ident "function name"
  let _ ← expect .lparen "'(' after function name"
  let params ← separatedUntil .rparen param
  let _ ← expect .rparen "')' after parameter list"
  let _ ← expect .arrow "'->' before return type"
  let returnType ← expect .ident "return type"
  let body ← block
  return .functionDecl ((← spanOf name).upTo body.span) name.lexeme params returnType.lexeme body

/-- The next decorator, the decorators so far in reverse, if one
follows. -/
def decoratorStep (expression : Parser Expr) (items : List Decorator) :
    Parser (Round (List Decorator) (List Decorator)) := do
  match ← accept .atSign with
  | none => return .done items.reverse
  | some start =>
    let name ← expect .ident "decorator name after '@'"
    let _ ← expect .lparen "'(' after decorator name"
    let value ← expression
    let right ← expect .rparen "')' after decorator value"
    return .again (.mk (← between start right) name.lexeme value :: items)

/-- The decorators in front of a task. -/
def decorators (expression : Parser Expr) : Parser (List Decorator) :=
  loop (decoratorStep expression) []

/-- A task, its keyword read. -/
def taskDecl (block : Parser Block) (decorators : List Decorator) : Parser Stmt := do
  let name ← expect .ident "task name"
  let _ ← expect .lparen "'(' after task name"
  let _ ← expect .rparen "')' after task parameters"
  let body ← block
  return .taskDecl ((← spanOf name).upTo body.span) name.lexeme decorators (some body)

/-- A field of a struct. -/
def structField : Parser StructField := do
  let _ ← accept .kwLet
  let name ← expect .ident "struct field name"
  let _ ← expect .colon "':' after struct field name"
  let typeName ← expect .ident "struct field type"
  let stop ← expect .semicolon "';' after struct field"
  return { span := (← spanOf name).upTo (← spanOf stop), name := name.lexeme,
           typeName := typeName.lexeme }

/-- A struct, its keyword read. -/
def structDecl : Parser Stmt := do
  let name ← expect .ident "struct name"
  let _ ← expect .lbrace "'\x7b' after struct name"
  let fields ← itemsUntil .rbrace structField
  let right ← expect .rbrace "'\x7d' after struct declaration"
  return .structDecl ((← spanOf name).upTo (← spanOf right)) name.lexeme fields

/-- What a frequency unit multiplies by. -/
def frequencyFactor (unit : String) : Option Int :=
  let unit := Text.lower unit
  if unit = "k" ∨ unit = "khz" then some 1000
  else if unit = "m" ∨ unit = "mhz" then some 1000000
  else none

/-- The frequency of a bus: a number with a unit behind it, or any
expression. -/
def busFrequency (expression : Parser Expr) : Parser Expr := do
  match ← accept .int with
  | none => expression
  | some digits =>
    let n ← number (Numeral.readInt .marked digits.lexeme)
    let c ← get
    let factor? := if c.kind = .ident then frequencyFactor c.peek.lexeme else none
    match factor? with
    | some factor =>
      let unit ← next
      return .literal (← between digits unit) (.int (n * factor)) "int"
    | none => return .literal (← between digits digits) (.int n) "int"

/-- The name of a device property, of which there is one. -/
def deviceKey : Parser Token := do
  let key ← expect .ident "device property name"
  if key.lexeme = "address" then return key else failAt key .unsupportedDeviceProperty

/-- A device on a bus, its keyword read. -/
def device (expression : Parser Expr) (start : Token) : Parser Device := do
  let name ← expect .ident "device name"
  let _ ← expect .lbrace "'\x7b' to start device declaration"
  let _ ← deviceKey
  let _ ← expect .colon "':' after device property"
  let address ← expression
  let _ ← expect .semicolon "';' after device address"
  let right ← expect .rbrace "'\x7d' after device declaration"
  return .mk (← between start right) name.lexeme address

/-- What is known of a bus while its properties are read. -/
structure BusParts where
  sda : Option Expr := none
  scl : Option Expr := none
  freq : Option Expr := none
  devices : List Device := []

/-- The value of a bus property; one given twice counts as given
last. -/
def busProperty (expression : Parser Expr) (parts : BusParts) (key : Token) :
    Parser BusParts :=
  match key.lexeme with
  | "sda" => do return { parts with sda := some (← expression) }
  | "scl" => do return { parts with scl := some (← expression) }
  | "freq" => do return { parts with freq := some (← busFrequency expression) }
  | name => failAt key (.unknownBusProperty name)

/-- A property of a bus, or a device. -/
def busPart (expression : Parser Expr) (parts : BusParts) : Parser BusParts := do
  match ← accept .kwDevice with
  | some start => return { parts with devices := parts.devices ++ [← device expression start] }
  | none =>
    let key ← expect .ident "bus property name or device declaration"
    let _ ← expect .colon "':' after bus property name"
    let parts ← busProperty expression parts key
    let _ ← expect .semicolon "';' after bus property"
    return parts

/-- The next property or device of a bus, if one follows. -/
def busStep (expression : Parser Expr) (parts : BusParts) : Parser (Round BusParts BusParts) := do
  let c ← get
  if c.kind = .rbrace ∨ c.atEnd then return .done parts
  else return .again (← busPart expression parts)

/-- The properties and devices of a bus. -/
def busParts (expression : Parser Expr) : Parser BusParts :=
  loop (busStep expression) {}

/-- A bus, its keyword read. -/
def busDecl (expression : Parser Expr) (start : Token) : Parser Stmt := do
  let busType ← expectAny [.kwI2C, .kwSPI, .ident] "bus type (I2C/SPI)"
  let name ← expect .ident "bus name"
  let _ ← expect .lbrace "'\x7b' to start bus declaration"
  let parts ← busParts expression
  let right ← expect .rbrace "'\x7d' after bus declaration"
  match parts.sda, parts.scl, parts.freq with
  | some sda, some scl, some freq =>
    return .busDecl (← between start right) busType.lexeme name.lexeme sda scl freq parts.devices
  | _, _, _ => failAt right .incompleteBus

/-- The loop of a program, its keyword read. -/
def loopDecl (block : Parser Block) (start : Token) : Parser Stmt := do
  let body ← block
  return .loopDecl ((← spanOf start).upTo body.span) body

/-- A declaration or statement, with nothing to fall back on. -/
def declarationBody (declaration : Parser Item) (statement : Parser Stmt)
    (expression : Parser Expr) : Parser Stmt := do
  let block := block declaration
  match ← kind with
  | .kwImport => do let _ ← next; importDecl
  | .atSign => do
    let marks ← decorators expression
    let _ ← expect .kwTask "'task' after decorators"
    taskDecl block marks
  | .kwFn => do let _ ← next; functionDecl block
  | .kwTask => do let _ ← next; taskDecl block []
  | .kwStruct => do let _ ← next; structDecl
  | .kwBus => do busDecl expression (← next)
  | .kwLoop => do loopDecl block (← next)
  | _ =>
    match ← qualifiedDecl? expression true with
    | some decl => return decl
    | none => statement

-- ==== recovery

/-- The kinds that reading goes on from after a mistake. -/
def restartKinds : List Kind :=
  [.kwFn, .kwLet, .kwConst, .kwVolatile, .kwStruct, .kwTask, .kwBus, .atSign, .kwIf, .kwWhile,
   .kwFor, .kwMatch, .kwSpawn, .kwLoop, .kwReturn, .kwRgbWrite, .kwImport, .kwUnsafe]

/-- Skips to the end, behind a semicolon or to a kind to go on from. -/
def skipTokens (last : Token) : List Token → Token × List Token
  | [] => (last, [])
  | t :: rest =>
    if t.kind = .eof ∨ last.kind = .semicolon ∨ restartKinds.contains t.kind then
      (last, t :: rest)
    else skipTokens t rest

/-- The cursor to go on from after a mistake, past at least one token
unless all are read. -/
def recover (c : Cursor) : Cursor :=
  let c := c.advance
  let (last, rest) := skipTokens c.last c.rest
  { c with last, rest }

/-- A declaration or statement; after a mistake nothing, the cursor
standing where reading goes on. -/
def declaration (body : Parser Stmt) : Parser Item :=
  fun c => match body c with
    | .ok item c => .ok (some item) c
    | .failed c => .ok none (recover c)
    | .abort e => .abort e
    | .exhausted => .exhausted

end SketchCompiler.Grammar
