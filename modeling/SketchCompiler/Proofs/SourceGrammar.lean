/-
The grammar of the language, twice: as it is published (`published`) and
as sources are read (`accepted`).  The second is the first with ten
rules replaced, so the difference between the two is what those ten
rules say:

* a field of a struct may start with `let`;
* the parts of a bus come in any order, but `sda`, `scl` and `freq` are
  all needed;
* a frequency that starts with a number is that number, with a unit of
  frequency behind it or none;
* an arm of a `match` that starts with `_` is the wildcard;
* an expression that starts with `if` is no statement, and the statements
  before the value of a block do not start with `if` unless they are such
  an expression;
* what is assigned to is a name, a member of anything that can be called,
  or one of these in parentheses;
* only behind a name do arguments have names;
* a cast binds as loosely as an increment;
* a numeral denotes a number.

The last word of a source is the end.
-/
import SketchCompiler.Proofs.Ebnf
import SketchCompiler.Program.StmtGrammar

namespace SketchCompiler

open Ebnf

/-- The rules of the language.  A struct name is a rule only of the
grammar that is read. -/
inductive Rule where
  | program | topDecl | importStmt | functionDecl | loopDecl | paramList | param | typeName
  | structDecl | structField | taskDecl | taskDecorator
  | busDecl | busType | busProperty | frequency | deviceDecl
  | varDecl | varDeclNoSemi
  | statement | block | ifStmt | whileStmt | forStmt | forInit | matchStmt | matchArm
  | spawnStmt | returnStmt | exprStmt
  | gpioModeStmt | digitalWriteStmt | pwmWriteStmt | rgbWriteStmt | wifiConnectStmt | delayStmt
  | unsafeStmt | rawBlock
  | expression | assignment | assignable | assignmentOp
  | logicOr | logicAnd | bitOr | bitXor | bitAnd | equality | comparison | shift | sum | factor
  | unary | postfixed | call | structName | argumentList | namedArgumentList | namedArgument
  | primary | ifExpr | valueBlock | declarationOrStmt

namespace Rule

/-- One item or more, with commas between them. -/
def commaList (r : Rule) : Ebnf Rule :=
  all [rule r, many (all [kind .comma, rule r])]

/-- Operands with operators between them. -/
def operatorChain (operators : List Kind) (operand : Rule) : Ebnf Rule :=
  all [rule operand, many (all [oneOf operators, rule operand])]

/-- The name of a variable, its type and its value. -/
def variableParts : List (Ebnf Rule) :=
  [kind .ident, opt (all [kind .colon, rule typeName]),
   opt (all [kind .assign, rule expression])]

/-- The declaration of a variable, up to what ends it. -/
def variableForms (ending : List (Ebnf Rule)) : Ebnf Rule :=
  any [all (kind .kwLet :: variableParts ++ ending),
       all (kind .kwConst :: opt (kind .kwVolatile) :: opt (kind .kwLet) :: variableParts
         ++ ending),
       all (kind .kwVolatile :: opt (kind .kwConst) :: opt (kind .kwLet) :: variableParts
         ++ ending)]

/-- The grammar as it is published. -/
def published : Rule → Ebnf Rule
  | program => all [many (rule topDecl), kind .eof]
  | topDecl =>
    any [rule importStmt, rule structDecl, rule taskDecl, rule busDecl, rule functionDecl,
         rule loopDecl, rule varDecl, rule statement]
  | importStmt => all [kind .kwImport, kind .string, kind .semicolon]
  | functionDecl =>
    all [kind .kwFn, kind .ident, kind .lparen, opt (rule paramList), kind .rparen, kind .arrow,
         rule typeName, rule block]
  | loopDecl => all [kind .kwLoop, rule block]
  | paramList => commaList param
  | param => all [kind .ident, kind .colon, rule typeName]
  | typeName => kind .ident
  | structDecl =>
    all [kind .kwStruct, kind .ident, kind .lbrace, many (rule structField), kind .rbrace]
  | structField => all [kind .ident, kind .colon, rule typeName, kind .semicolon]
  | taskDecl =>
    all [many (rule taskDecorator), kind .kwTask, kind .ident, kind .lparen, kind .rparen,
         rule block]
  | taskDecorator =>
    all [kind .atSign, kind .ident, kind .lparen, rule expression, kind .rparen]
  | busDecl =>
    all [kind .kwBus, rule busType, kind .ident, kind .lbrace, rule busProperty,
         many (any [rule busProperty, rule deviceDecl]), kind .rbrace]
  | busType => oneOf [.kwI2C, .kwSPI, .ident]
  | busProperty =>
    any [all [any [name "sda", name "scl"], kind .colon, rule expression, kind .semicolon],
         all [name "freq", kind .colon, rule frequency, kind .semicolon]]
  | frequency => any [all [kind .int, opt (kind .ident)], rule expression]
  | deviceDecl =>
    all [kind .kwDevice, kind .ident, kind .lbrace, name "address", kind .colon, rule expression,
         kind .semicolon, kind .rbrace]
  | varDecl => variableForms [kind .semicolon]
  | varDeclNoSemi => variableForms []
  | statement =>
    any [rule block, rule ifStmt, rule whileStmt, rule forStmt, rule matchStmt, rule spawnStmt,
         rule returnStmt, rule gpioModeStmt, rule digitalWriteStmt, rule pwmWriteStmt,
         rule rgbWriteStmt, rule wifiConnectStmt, rule delayStmt, rule unsafeStmt, rule exprStmt]
  | block => all [kind .lbrace, many (rule topDecl), kind .rbrace]
  | ifStmt =>
    all [kind .kwIf, kind .lparen, rule expression, kind .rparen, rule block,
         opt (all [kind .kwElse, rule block])]
  | whileStmt => all [kind .kwWhile, kind .lparen, rule expression, kind .rparen, rule block]
  | forStmt =>
    all [kind .kwFor, kind .lparen, opt (rule forInit), kind .semicolon, opt (rule expression),
         kind .semicolon, opt (rule expression), kind .rparen, rule block]
  | forInit => any [rule varDeclNoSemi, rule expression]
  | matchStmt =>
    all [kind .kwMatch, kind .lparen, rule expression, kind .rparen, kind .lbrace,
         many (rule matchArm), kind .rbrace]
  | matchArm => all [any [name "_", rule expression], kind .fatArrow, rule block]
  | spawnStmt => all [kind .kwSpawn, kind .ident, kind .lparen, kind .rparen, kind .semicolon]
  | returnStmt => all [kind .kwReturn, opt (rule expression), kind .semicolon]
  | exprStmt => all [rule expression, kind .semicolon]
  | gpioModeStmt =>
    all [kind .kwGpioMode, kind .lparen, rule expression, kind .comma, oneOf [.kwOut, .kwIn],
         kind .rparen, kind .semicolon]
  | digitalWriteStmt =>
    all [kind .kwDigitalWrite, kind .lparen, rule expression, kind .comma, rule expression,
         kind .rparen, kind .semicolon]
  | pwmWriteStmt =>
    all [kind .kwPwmWrite, kind .lparen, rule expression, kind .comma, rule expression,
         opt (all [kind .comma, rule expression]), kind .rparen, kind .semicolon]
  | rgbWriteStmt =>
    all [kind .kwRgbWrite, kind .lparen, rule expression, kind .comma, rule expression,
         kind .comma, rule expression, kind .comma, rule expression, kind .rparen,
         kind .semicolon]
  | wifiConnectStmt =>
    all [kind .kwWifiConnect, kind .lparen, rule expression, kind .comma, rule expression,
         kind .rparen, kind .semicolon]
  | delayStmt =>
    all [kind .kwDelay, kind .lparen, rule expression, kind .rparen, kind .semicolon]
  | unsafeStmt => all [kind .kwUnsafe, rule rawBlock]
  | rawBlock => kind .rawBlock
  | expression => rule assignment
  | assignment =>
    any [all [rule assignable, rule assignmentOp, rule assignment], rule logicOr]
  | assignable => all [kind .ident, many (all [kind .dot, kind .ident])]
  | assignmentOp => oneOf [.assign, .plusAssign, .minusAssign, .starAssign, .slashAssign]
  | logicOr => operatorChain [.orOr] logicAnd
  | logicAnd => operatorChain [.andAnd] bitOr
  | bitOr => operatorChain [.pipe] bitXor
  | bitXor => operatorChain [.caret] bitAnd
  | bitAnd => operatorChain [.amp] equality
  | equality => operatorChain [.equal, .notEqual] comparison
  | comparison => operatorChain [.less, .lessEqual, .greater, .greaterEqual] shift
  | shift => operatorChain [.shiftLeft, .shiftRight] sum
  | sum => operatorChain [.plus, .minus] factor
  | factor => operatorChain [.star, .slash, .percent] unary
  | unary => any [all [oneOf [.bang, .minus, .tilde], rule unary], rule postfixed]
  | postfixed => all [rule call, many (oneOf [.increment, .decrement])]
  | call =>
    all [rule primary,
         many (any [all [kind .lparen,
                         opt (any [rule argumentList, rule namedArgumentList]), kind .rparen],
                    all [kind .dot, kind .ident],
                    all [kind .kwAs, kind .ident]])]
  | structName => kind .ident
  | argumentList => commaList expression
  | namedArgumentList => commaList namedArgument
  | namedArgument => all [kind .ident, kind .colon, rule expression]
  | primary =>
    -- a number in base sixteen or two is of the same kind as any other
    any [oneOf [.int, .float, .duration, .string, .kwTrue, .kwFalse], kind .ident, rule ifExpr,
         all [kind .kwAnalogRead, kind .lparen, rule expression, kind .rparen],
         all [kind .lparen, rule expression, kind .rparen]]
  | ifExpr =>
    all [kind .kwIf, kind .lparen, rule expression, kind .rparen, rule valueBlock, kind .kwElse,
         rule valueBlock]
  | valueBlock =>
    all [kind .lbrace, many (rule declarationOrStmt), rule expression, kind .rbrace]
  | declarationOrStmt => any [rule varDecl, rule statement]

-- ==== what is read

/-- The lexeme denotes a value of the kind. -/
def denotes (kd : Kind) (lexeme : String) : Bool :=
  match kd with
  | .int => (Numeral.readInt .marked lexeme).isOk
  | .duration => (Numeral.readInt .ten (Grammar.durationParts lexeme).1).isOk
  | .float => (Numeral.readFloat lexeme).isOk
  | _ => true

/-- The literals of a kind. -/
def literal (kd : Kind) : Terminal :=
  { kind := kd, spelling := some (denotes kd) }

/-- A unit of frequency. -/
def frequencyUnit : Terminal :=
  { kind := .ident, spelling := some fun s => (Grammar.frequencyFactor s).isSome }

/-- The wildcard of a `match`. -/
def wildcard : Terminal :=
  { kind := .ident, spelling := some (· == "_") }

/-- A property of a bus or a device on it. -/
def busPart : Ebnf Rule :=
  any [rule busProperty, rule deviceDecl]

/-- A property of a bus by its name. -/
def busValue (key : String) (value : Rule) : Ebnf Rule :=
  all [name key, kind .colon, rule value, kind .semicolon]

/-- Parts of a bus, one of which is the property of that name. -/
def busPartsWith (key : String) (value : Rule) : Ebnf Rule :=
  all [many busPart, busValue key value, many busPart]

/-- The parts of a bus, with everything it needs. -/
def busParts : Ebnf Rule :=
  both (many busPart)
    (both (busPartsWith "sda" expression)
      (both (busPartsWith "scl" expression) (busPartsWith "freq" frequency)))

/-- Arguments without names, or the name of a member. -/
def callSuffix : Ebnf Rule :=
  any [all [kind .lparen, opt (rule argumentList), kind .rparen], all [kind .dot, kind .ident]]

/-- The grammar as sources are read. -/
def accepted : Rule → Ebnf Rule
  | structField =>
    all [opt (kind .kwLet), kind .ident, kind .colon, rule typeName, kind .semicolon]
  | busDecl =>
    all [kind .kwBus, rule busType, kind .ident, kind .lbrace, busParts, kind .rbrace]
  | frequency =>
    any [all [tok (literal .int), opt (tok frequencyUnit)],
         except { kind := .int } (rule expression)]
  | matchArm =>
    all [any [tok wildcard, except wildcard (rule expression)], kind .fatArrow, rule block]
  | exprStmt => all [except { kind := .kwIf } (rule expression), kind .semicolon]
  | declarationOrStmt =>
    any [rule varDecl, except { kind := .kwIf } (rule statement),
         all [rule expression, kind .semicolon]]
  | assignable =>
    any [kind .ident, all [kind .lparen, rule assignable, kind .rparen],
         all [rule call, kind .dot, kind .ident]]
  | structName => any [kind .ident, all [kind .lparen, rule structName, kind .rparen]]
  | call =>
    all [any [all [rule structName, kind .lparen, rule namedArgumentList, kind .rparen],
              rule primary],
         many callSuffix]
  | postfixed =>
    all [rule call,
         many (any [oneOf [.increment, .decrement], all [kind .kwAs, kind .ident]])]
  | primary =>
    any [tok (literal .int), tok (literal .float), tok (literal .duration), tok (literal .string),
         tok (literal .kwTrue), tok (literal .kwFalse), kind .ident, rule ifExpr,
         all [kind .kwAnalogRead, kind .lparen, rule expression, kind .rparen],
         all [kind .lparen, rule expression, kind .rparen]]
  | r => published r

-- ==== first words

/-- What a literal, a name and anything in parentheses start with. -/
def operandStarts : List Kind :=
  [.int, .float, .duration, .string, .kwTrue, .kwFalse, .ident, .kwIf, .kwAnalogRead, .lparen]

/-- What an expression starts with. -/
def expressionStarts : List Kind :=
  [.bang, .minus, .tilde] ++ operandStarts

/-- What a rule starts with. -/
def first : Rule → List Kind
  | program => .eof :: Grammar.topLevelKinds ++ Grammar.variableKinds ++ .kwIf
      :: Grammar.statementKinds ++ expressionStarts
  | topDecl => Grammar.topLevelKinds ++ Grammar.variableKinds ++ .kwIf :: Grammar.statementKinds
      ++ expressionStarts
  | importStmt => [.kwImport]
  | functionDecl => [.kwFn]
  | loopDecl => [.kwLoop]
  | paramList | param | typeName | namedArgumentList | namedArgument => [.ident]
  | structDecl => [.kwStruct]
  | structField => [.kwLet, .ident]
  | taskDecl => [.atSign, .kwTask]
  | taskDecorator => [.atSign]
  | busDecl => [.kwBus]
  | busType => [.kwI2C, .kwSPI, .ident]
  | busProperty => [.ident]
  | deviceDecl => [.kwDevice]
  | varDecl | varDeclNoSemi => Grammar.variableKinds
  | statement => .kwIf :: Grammar.statementKinds ++ expressionStarts
  | block | valueBlock => [.lbrace]
  | ifStmt | ifExpr => [.kwIf]
  | whileStmt => [.kwWhile]
  | forStmt => [.kwFor]
  | forInit => Grammar.variableKinds ++ expressionStarts
  | matchStmt => [.kwMatch]
  | spawnStmt => [.kwSpawn]
  | returnStmt => [.kwReturn]
  | exprStmt => expressionStarts.filter (· ≠ .kwIf)
  | gpioModeStmt => [.kwGpioMode]
  | digitalWriteStmt => [.kwDigitalWrite]
  | pwmWriteStmt => [.kwPwmWrite]
  | rgbWriteStmt => [.kwRgbWrite]
  | wifiConnectStmt => [.kwWifiConnect]
  | delayStmt => [.kwDelay]
  | unsafeStmt => [.kwUnsafe]
  | rawBlock => [.rawBlock]
  | assignmentOp => Grammar.assignmentOperators
  | structName => [.ident, .lparen]
  | assignable | postfixed | call | primary => operandStarts
  | declarationOrStmt => Grammar.variableKinds ++ .kwIf :: Grammar.statementKinds
      ++ expressionStarts
  | matchArm | frequency | expression | assignment | logicOr | logicAnd | bitOr | bitXor | bitAnd
  | equality | comparison | shift | sum | factor | unary | argumentList => expressionStarts

/-- The rules that are read, with what each starts with. -/
def reading : Productions Rule where
  body := accepted
  first := first
  solid := by
    intro r
    cases r <;> rfl
  closed := by
    intro r
    cases r <;> decide

/-- What a published rule starts with. -/
def publishedFirst : Rule → List Kind
  | exprStmt => expressionStarts
  | structField => [.ident]
  | r => first r

/-- The rules that are published, with what each starts with. -/
def publishing : Productions Rule where
  body := published
  first := publishedFirst
  solid := by
    intro r
    cases r <;> rfl
  closed := by
    intro r
    cases r <;> decide

end Rule

end SketchCompiler
