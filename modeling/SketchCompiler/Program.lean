/-
Programs: the trees that a source text stands for.  Expressions hold
statements (an `if` expression has a block in each branch) and
statements hold expressions, so both are one family.  Every node keeps
the span of source it was read from.

Operators and type names are kept as they are written: which of them
mean something is decided by the analysis, and code generation writes
them down unchanged.
-/

namespace SketchCompiler

/-- A range of source text in a file, both ends included. -/
structure Span where
  file : String
  startLine : Nat := 1
  startCol : Nat := 1
  endLine : Nat := 1
  endCol : Nat := 1
  deriving DecidableEq, Repr

/-- The value of a literal.  A duration keeps its amount and its unit. -/
inductive LiteralValue where
  | int (value : Int)
  | float (value : Float)
  | bool (value : Bool)
  | text (value : String)
  | duration (amount : Int) (unit : String)
  deriving Repr

/-- The integer that a literal value counts as. -/
def LiteralValue.toInt? : LiteralValue → Option Int
  | int n => some n
  | bool b => some (if b then 1 else 0)
  | _ => none

/-- A parameter of a function. -/
structure Param where
  span : Span
  name : String
  typeName : String
  deriving DecidableEq, Repr

/-- A field of a struct declaration. -/
structure StructField where
  span : Span
  name : String
  typeName : String
  deriving DecidableEq, Repr

mutual

/-- Expressions. -/
inductive Expr where
  | literal (span : Span) (value : LiteralValue) (typeName : String)
  | ident (span : Span) (name : String)
  | unary (span : Span) (op : String) (operand : Expr)
  | postfixed (span : Span) (operand : Expr) (op : String)
  | binary (span : Span) (left : Expr) (op : String) (right : Expr)
  | bitwise (span : Span) (left : Expr) (op : String) (right : Expr)
  | assign (span : Span) (target : Expr) (op : String) (value : Expr)
  | cast (span : Span) (operand : Expr) (typeName : String)
  | call (span : Span) (callee : Expr) (args : List Expr)
  | structInit (span : Span) (typeName : String) (fields : List FieldInit)
  | member (span : Span) (object : Expr) (name : String)
  | ifElse (span : Span) (condition : Expr) (thenBlock : Block) (thenValue : Expr)
      (elseBlock : Block) (elseValue : Expr)

/-- A field and its value in a struct initializer. -/
inductive FieldInit where
  | mk (name : String) (value : Expr)

/-- A lexical block. -/
inductive Block where
  | mk (span : Span) (statements : List Stmt)

/-- An arm of a match statement; only the wildcard arm has no pattern. -/
inductive MatchArm where
  | mk (span : Span) (pattern : Option Expr) (isWildcard : Bool) (body : Block)

/-- A decorator in front of a task. -/
inductive Decorator where
  | mk (span : Span) (name : String) (value : Expr)

/-- A device on a bus. -/
inductive Device where
  | mk (span : Span) (name : String) (address : Expr)

/-- Statements and declarations. -/
inductive Stmt where
  | importDecl (span : Span) (path : String)
  | structDecl (span : Span) (name : String) (fields : List StructField)
  | taskDecl (span : Span) (name : String) (decorators : List Decorator) (body : Option Block)
  | busDecl (span : Span) (busType : String) (name : String) (sda scl freq : Expr)
      (devices : List Device)
  | functionDecl (span : Span) (name : String) (params : List Param) (returnType : String)
      (body : Block)
  | loopDecl (span : Span) (body : Block)
  | varDecl (span : Span) (name : String) (typeName : Option String) (initializer : Option Expr)
      (isMutable isConst isVolatile : Bool)
  | block (block : Block)
  | ifElse (span : Span) (condition : Expr) (thenBranch : Block) (elseBranch : Option Block)
  | whileLoop (span : Span) (condition : Expr) (body : Block)
  | forLoop (span : Span) (init : Option Stmt) (condition update : Option Expr) (body : Block)
  | returnValue (span : Span) (value : Option Expr)
  | expr (span : Span) (expression : Expr)
  | matchValue (span : Span) (value : Expr) (arms : List MatchArm)
  | spawn (span : Span) (taskName : String)
  | gpioMode (span : Span) (pin : Expr) (mode : String)
  | digitalWrite (span : Span) (pin value : Expr)
  | pwmWrite (span : Span) (pin duty : Expr) (channel : Option Expr)
  | rgbWrite (span : Span) (pin red green blue : Expr)
  | delay (span : Span) (time : Expr)
  | wifiConnect (span : Span) (ssid password : Expr)
  | raw (span : Span) (code : String)

end

/-- The declarations of a source text. -/
structure Program where
  span : Span
  declarations : List Stmt

/-- The span of an expression. -/
def Expr.span : Expr → Span
  | literal s .. | ident s .. | unary s .. | postfixed s .. | binary s .. | bitwise s ..
  | assign s .. | cast s .. | call s .. | structInit s .. | member s .. | ifElse s .. => s

/-- The span of a block. -/
def Block.span : Block → Span
  | mk s _ => s

/-- The statements of a block. -/
def Block.statements : Block → List Stmt
  | mk _ ss => ss

/-- The span of a statement. -/
def Stmt.span : Stmt → Span
  | importDecl s .. | structDecl s .. | taskDecl s .. | busDecl s .. | functionDecl s ..
  | loopDecl s .. | varDecl s .. | ifElse s .. | whileLoop s .. | forLoop s ..
  | returnValue s .. | expr s .. | matchValue s .. | spawn s .. | gpioMode s ..
  | digitalWrite s .. | pwmWrite s .. | rgbWrite s .. | delay s .. | wifiConnect s ..
  | raw s .. => s
  | block b => b.span

end SketchCompiler
