/-
The rules for expressions.  A rule takes the rules it refers to as
parameters, so each stands alone; the knot is tied in one place, where
the nesting is bounded.

Binary operators come in ten levels, the loosest first, and associate to
the left; assignment binds more loosely than all of them and associates
to the right.
-/
import SketchCompiler.Program.Cursor
import SketchCompiler.Text.Case

namespace SketchCompiler.Grammar

open SketchCompiler.Parser

-- ==== binary operators

/-- Operators that bind equally tightly; the bitwise ones make nodes of
their own. -/
structure Level where
  operators : List Kind
  isBitwise : Bool := false

/-- The levels of binary operators, the loosest first. -/
def levels : List Level :=
  [{ operators := [.orOr] },
   { operators := [.andAnd] },
   { operators := [.pipe], isBitwise := true },
   { operators := [.caret], isBitwise := true },
   { operators := [.amp], isBitwise := true },
   { operators := [.equal, .notEqual] },
   { operators := [.greater, .greaterEqual, .less, .lessEqual] },
   { operators := [.shiftLeft, .shiftRight], isBitwise := true },
   { operators := [.plus, .minus] },
   { operators := [.star, .slash, .percent] }]

/-- The node of a binary operator. -/
def Level.node (level : Level) (left : Expr) (op : Token) (right : Expr) : Expr :=
  let span := left.span.upTo right.span
  if level.isBitwise then .bitwise span left op.lexeme right
  else .binary span left op.lexeme right

/-- An operator of one level and the operand behind it, if they follow. -/
def chainStep (operand : Parser Expr) (level : Level) (left : Expr) :
    Parser (Round Expr Expr) := do
  match ← acceptAny level.operators with
  | some op => return .again (level.node left op (← operand))
  | none => return .done left

/-- Operands joined by the operators of one level. -/
def chain (operand : Parser Expr) (level : Level) : Parser Expr := do
  loop (chainStep operand level) (← operand)

/-- Operands joined by the operators of the levels. -/
def binary (operand : Parser Expr) : List Level → Parser Expr
  | [] => operand
  | level :: tighter => chain (binary operand tighter) level

/-- The assignment operators. -/
def assignmentOperators : List Kind :=
  [.assign, .plusAssign, .minusAssign, .starAssign, .slashAssign]

/-- The expression can stand on the left of an assignment. -/
def isTarget : Expr → Bool
  | .ident .. | .member .. => true
  | _ => false

/-- An assignment, or an expression of binary operators.  An assignment
to anything but a name or a member is reported and only its left side
kept. -/
def assignment (operand value : Parser Expr) : Parser Expr := do
  let left ← binary operand levels
  match ← acceptAny assignmentOperators with
  | none => return left
  | some op =>
    let right ← value
    if isTarget left then
      return .assign (left.span.upTo right.span) left op.lexeme right
    else
      reportAt op .invalidAssignmentTarget
      return left

-- ==== unary and postfix

/-- Operators in front of an operand. -/
def unary (nested operand : Parser Expr) : Parser Expr := do
  match ← acceptAny [.bang, .minus, .tilde] with
  | some op =>
    let inner ← nested
    return .unary ((← spanOf op).upTo inner.span) op.lexeme inner
  | none => operand

/-- An increment, a decrement or a cast, if one follows. -/
def postfixStep (inner : Expr) : Parser (Round Expr Expr) := do
  match ← acceptAny [.increment, .decrement] with
  | some op => return .again (.postfixed (inner.span.upTo (← spanOf op)) inner op.lexeme)
  | none =>
    if ← accepts .kwAs then
      let target ← expect .ident "type name after 'as'"
      return .again (.cast (inner.span.upTo (← spanOf target)) inner target.lexeme)
    else return .done inner

/-- Increments, decrements and casts behind an operand. -/
def postfixed (operand : Parser Expr) : Parser Expr := do
  loop postfixStep (← operand)

/-- A field and its value in a struct initializer. -/
def fieldInit (expression : Parser Expr) : Parser FieldInit := do
  let name ← expect .ident "struct field name in initializer"
  let _ ← expect .colon "':' after struct field name"
  return .mk name.lexeme (← expression)

/-- The arguments of a call, its opening parenthesis read.  Behind a
name, arguments that start with `field:` initialize a struct. -/
def arguments (expression : Parser Expr) (callee : Expr) : Parser Expr := do
  let c ← get
  match callee, decide (c.kind = .ident ∧ c.kindBehind = some .colon) with
  | .ident _ typeName, true =>
    let fields ← separated (fieldInit expression)
    let close ← expect .rparen "')' after struct initializer"
    return .structInit (callee.span.upTo (← spanOf close)) typeName fields
  | _, _ =>
    let args ← separatedUntil .rparen expression
    let close ← expect .rparen "')' after arguments"
    return .call (callee.span.upTo (← spanOf close)) callee args

/-- A call or a member access, if one follows. -/
def callStep (expression : Parser Expr) (inner : Expr) : Parser (Round Expr Expr) := do
  if ← accepts .lparen then return .again (← arguments expression inner)
  else if ← accepts .dot then
    let name ← expect .ident "member name after '.'"
    return .again (.member (inner.span.upTo (← spanOf name)) inner name.lexeme)
  else return .done inner

/-- Calls and member accesses behind an operand. -/
def calls (expression operand : Parser Expr) : Parser Expr := do
  loop (callStep expression) (← operand)

-- ==== operands

/-- The amount and the unit of a duration. -/
def durationParts (lexeme : String) : String × String :=
  let cs := lexeme.toList
  let unit := cs.drop (cs.length - 2)
  if unit = ['m', 's'] ∨ unit = ['u', 's'] then
    (String.ofList (cs.take (cs.length - 2)), String.ofList unit)
  else (String.ofList (cs.take (cs.length - 1)), "s")

/-- The literal that a token denotes. -/
def literalOf (t : Token) : Parser Expr := do
  let span ← spanOf t
  match t.kind with
  | .kwFalse => return .literal span (.bool false) "bool"
  | .kwTrue => return .literal span (.bool true) "bool"
  | .int => return .literal span (.int (← number (Numeral.readInt .marked t.lexeme))) "int"
  | .duration =>
    let (amount, unit) := durationParts t.lexeme
    let n ← number (Numeral.readInt .ten amount)
    return .literal span (.duration n unit) "Duration"
  | .float => return .literal span (.float (← number (Numeral.readFloat t.lexeme))) "float"
  | _ => return .literal span (.text t.lexeme) "string"

/-- The kinds of tokens that are literals. -/
def literalKinds : List Kind :=
  [.kwFalse, .kwTrue, .int, .duration, .float, .string]

/-- A call of `analogRead`, the keyword read. -/
def analogRead (expression : Parser Expr) (start : Token) : Parser Expr := do
  let _ ← expect .lparen "'(' after analogRead"
  let arg ← expression
  let close ← expect .rparen "')' after analogRead argument"
  return .call (← between start close) (.ident (← spanOf start) "analogRead") [arg]

/-- A literal, a name, a call of `analogRead`, a conditional, or an
expression in parentheses, which leave no trace. -/
def primary (expression conditional : Parser Expr) : Parser Expr := do
  let kind ← kind
  if kind = .kwIf then conditional
  else if literalKinds.contains kind then literalOf (← next)
  else if kind = .ident then
    let name ← next
    return .ident (← spanOf name) name.lexeme
  else if kind = .kwAnalogRead then analogRead expression (← next)
  else if kind = .lparen then
    let _ ← next
    let inner ← expression
    let _ ← expect .rparen "')' after expression"
    return inner
  else failHere (.expected "expression")

end SketchCompiler.Grammar
