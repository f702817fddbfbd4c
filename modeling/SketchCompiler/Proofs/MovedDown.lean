/-
Moving down: a source that starts some lines further down has the same
words, each that many lines further down, and stands for the same tree
with its spans moved alike.  `down` moves a place, a token, a span and a
tree, and the span of a moved tree is its span, moved (`Expr.span_down`).
-/
import SketchCompiler.Proofs.Rescan
import SketchCompiler.Program.Cursor

namespace SketchCompiler

open List

/-- The place as many lines further down. -/
def Pos.down (d : Nat) (p : Pos) : Pos :=
  { p with line := p.line + d }

/-- The token as many lines further down. -/
def Token.down (d : Nat) (t : Token) : Token :=
  { t with pos := t.pos.down d }

/-- The span as many lines further down. -/
def Span.down (d : Nat) (s : Span) : Span :=
  { s with startLine := s.startLine + d, endLine := s.endLine + d }

/-- A parameter as many lines further down. -/
def Param.down (d : Nat) (p : Param) : Param :=
  { p with span := p.span.down d }

/-- A field of a struct as many lines further down. -/
def StructField.down (d : Nat) (f : StructField) : StructField :=
  { f with span := f.span.down d }

mutual

/-- An expression as many lines further down. -/
def Expr.down (d : Nat) : Expr → Expr
  | .literal s value typeName => .literal (s.down d) value typeName
  | .ident s name => .ident (s.down d) name
  | .unary s op e => .unary (s.down d) op (e.down d)
  | .postfixed s e op => .postfixed (s.down d) (e.down d) op
  | .binary s l op r => .binary (s.down d) (l.down d) op (r.down d)
  | .bitwise s l op r => .bitwise (s.down d) (l.down d) op (r.down d)
  | .assign s l op r => .assign (s.down d) (l.down d) op (r.down d)
  | .cast s e typeName => .cast (s.down d) (e.down d) typeName
  | .call s callee args => .call (s.down d) (callee.down d) (exprsDown d args)
  | .structInit s typeName fields => .structInit (s.down d) typeName (fieldsDown d fields)
  | .member s e name => .member (s.down d) (e.down d) name
  | .ifElse s condition thenBlock thenValue elseBlock elseValue =>
    .ifElse (s.down d) (condition.down d) (thenBlock.down d) (thenValue.down d)
      (elseBlock.down d) (elseValue.down d)

def exprDown? (d : Nat) : Option Expr → Option Expr
  | some e => some (e.down d)
  | none => none

def exprsDown (d : Nat) : List Expr → List Expr
  | [] => []
  | e :: es => e.down d :: exprsDown d es

/-- A field of a struct initializer moved down. -/
def FieldInit.down (d : Nat) : FieldInit → FieldInit
  | .mk name value => .mk name (value.down d)

def fieldsDown (d : Nat) : List FieldInit → List FieldInit
  | [] => []
  | f :: fs => f.down d :: fieldsDown d fs

def Block.down (d : Nat) : Block → Block
  | .mk s statements => .mk (s.down d) (stmtsDown d statements)

def blockDown? (d : Nat) : Option Block → Option Block
  | some b => some (b.down d)
  | none => none

def stmtDown? (d : Nat) : Option Stmt → Option Stmt
  | some s => some (s.down d)
  | none => none

def stmtsDown (d : Nat) : List Stmt → List Stmt
  | [] => []
  | s :: ss => s.down d :: stmtsDown d ss

/-- An arm of a match statement moved down. -/
def MatchArm.down (d : Nat) : MatchArm → MatchArm
  | .mk s pattern isWildcard body =>
    .mk (s.down d) (exprDown? d pattern) isWildcard (body.down d)

def armsDown (d : Nat) : List MatchArm → List MatchArm
  | [] => []
  | arm :: arms => arm.down d :: armsDown d arms

/-- A decorator moved down. -/
def Decorator.down (d : Nat) : Decorator → Decorator
  | .mk s name value => .mk (s.down d) name (value.down d)

def decoratorsDown (d : Nat) : List Decorator → List Decorator
  | [] => []
  | m :: ms => m.down d :: decoratorsDown d ms

/-- A device moved down. -/
def Device.down (d : Nat) : Device → Device
  | .mk s name address => .mk (s.down d) name (address.down d)

def devicesDown (d : Nat) : List Device → List Device
  | [] => []
  | m :: ms => m.down d :: devicesDown d ms

/-- A statement as many lines further down. -/
def Stmt.down (d : Nat) : Stmt → Stmt
  | .importDecl s path => .importDecl (s.down d) path
  | .structDecl s name fields => .structDecl (s.down d) name (fields.map (StructField.down d))
  | .taskDecl s name decorators body =>
    .taskDecl (s.down d) name (decoratorsDown d decorators) (blockDown? d body)
  | .busDecl s busType name sda scl freq devices =>
    .busDecl (s.down d) busType name (sda.down d) (scl.down d) (freq.down d)
      (devicesDown d devices)
  | .functionDecl s name params returnType body =>
    .functionDecl (s.down d) name (params.map (Param.down d)) returnType (body.down d)
  | .loopDecl s body => .loopDecl (s.down d) (body.down d)
  | .varDecl s name typeName initializer isMutable isConst isVolatile =>
    .varDecl (s.down d) name typeName (exprDown? d initializer) isMutable isConst isVolatile
  | .block body => .block (body.down d)
  | .ifElse s condition thenBranch elseBranch =>
    .ifElse (s.down d) (condition.down d) (thenBranch.down d) (blockDown? d elseBranch)
  | .whileLoop s condition body => .whileLoop (s.down d) (condition.down d) (body.down d)
  | .forLoop s init condition update body =>
    .forLoop (s.down d) (stmtDown? d init) (exprDown? d condition) (exprDown? d update)
      (body.down d)
  | .returnValue s value => .returnValue (s.down d) (exprDown? d value)
  | .expr s e => .expr (s.down d) (e.down d)
  | .matchValue s value arms => .matchValue (s.down d) (value.down d) (armsDown d arms)
  | .spawn s taskName => .spawn (s.down d) taskName
  | .gpioMode s pin mode => .gpioMode (s.down d) (pin.down d) mode
  | .digitalWrite s pin value => .digitalWrite (s.down d) (pin.down d) (value.down d)
  | .pwmWrite s pin duty channel =>
    .pwmWrite (s.down d) (pin.down d) (duty.down d) (exprDown? d channel)
  | .rgbWrite s pin red green blue =>
    .rgbWrite (s.down d) (pin.down d) (red.down d) (green.down d) (blue.down d)
  | .delay s time => .delay (s.down d) (time.down d)
  | .wifiConnect s ssid password => .wifiConnect (s.down d) (ssid.down d) (password.down d)
  | .raw s code => .raw (s.down d) code

end

variable {d : Nat}

-- ==== tokens and spans

@[simp] theorem Token.word_down (t : Token) : (t.down d).word = t.word := rfl

@[simp] theorem Token.kind_down (t : Token) : (t.down d).kind = t.kind := rfl

@[simp] theorem Token.lexeme_down (t : Token) : (t.down d).lexeme = t.lexeme := rfl

@[simp] theorem Token.span_down (t : Token) (file : String) :
    (t.down d).span file = (t.span file).down d :=
  rfl

@[simp] theorem Span.upTo_down (a b : Span) : (a.down d).upTo (b.down d) = (a.upTo b).down d := rfl

@[simp] theorem Span.between_down (file : String) (a b : Token) :
    Span.between file (a.down d) (b.down d) = (Span.between file a b).down d :=
  rfl

@[simp] theorem Expr.span_down (e : Expr) : (e.down d).span = e.span.down d := by
  cases e <;> simp only [Expr.down, Expr.span]

@[simp] theorem Block.span_down (b : Block) : (b.down d).span = b.span.down d := by
  cases b
  simp only [Block.down, Block.span]

-- ==== parts of a tree

@[simp] theorem exprDown?_eq (e? : Option Expr) : exprDown? d e? = e?.map (Expr.down d) := by
  cases e? <;> simp only [exprDown?, Option.map]

@[simp] theorem blockDown?_eq (b? : Option Block) : blockDown? d b? = b?.map (Block.down d) := by
  cases b? <;> simp only [blockDown?, Option.map]

@[simp] theorem stmtDown?_eq (s? : Option Stmt) : stmtDown? d s? = s?.map (Stmt.down d) := by
  cases s? <;> simp only [stmtDown?, Option.map]

@[simp] theorem exprsDown_eq (es : List Expr) : exprsDown d es = es.map (Expr.down d) := by
  induction es with
  | nil => simp only [exprsDown, map_nil]
  | cons e es ih => rw [exprsDown, ih, map_cons]

@[simp] theorem fieldsDown_eq (fs : List FieldInit) :
    fieldsDown d fs = fs.map (FieldInit.down d) := by
  induction fs with
  | nil => simp only [fieldsDown, map_nil]
  | cons f fs ih => rw [fieldsDown, ih, map_cons]

@[simp] theorem stmtsDown_eq (ss : List Stmt) : stmtsDown d ss = ss.map (Stmt.down d) := by
  induction ss with
  | nil => simp only [stmtsDown, map_nil]
  | cons s ss ih => rw [stmtsDown, ih, map_cons]

@[simp] theorem armsDown_eq (arms : List MatchArm) :
    armsDown d arms = arms.map (MatchArm.down d) := by
  induction arms with
  | nil => simp only [armsDown, map_nil]
  | cons arm arms ih => rw [armsDown, ih, map_cons]

@[simp] theorem decoratorsDown_eq (ms : List Decorator) :
    decoratorsDown d ms = ms.map (Decorator.down d) := by
  induction ms with
  | nil => simp only [decoratorsDown, map_nil]
  | cons m ms ih => rw [decoratorsDown, ih, map_cons]

@[simp] theorem devicesDown_eq (ms : List Device) : devicesDown d ms = ms.map (Device.down d) := by
  induction ms with
  | nil => simp only [devicesDown, map_nil]
  | cons m ms ih => rw [devicesDown, ih, map_cons]

end SketchCompiler
