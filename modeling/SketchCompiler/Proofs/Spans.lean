/-
Where the nodes of a program stand.  `Program.spans` lists the span of
every declaration, statement, block, arm and expression at any depth, and
those of parameters, struct fields, decorators and devices, which have no
statement of their own.

# Places in order

Places are compared line by line, and by column in one line.  A span runs
from its start to its end, both of them places.
-/
import Mathlib.Data.Prod.Lex
import Mathlib.Order.Basic
import SketchCompiler.Program
import SketchCompiler.Token

namespace SketchCompiler

-- ==== places in order

/-- Places are ordered by line, then by column. -/
instance : LinearOrder Pos :=
  .lift' (fun p => toLex (p.line, p.column)) fun p q h => by
    cases p
    cases q
    cases h
    rfl

theorem Pos.lt_iff {p q : Pos} : p < q ↔ p.line < q.line ∨ p.line = q.line ∧ p.column < q.column :=
  Prod.Lex.toLex_lt_toLex

theorem Pos.le_iff {p q : Pos} : p ≤ q ↔ p.line < q.line ∨ p.line = q.line ∧ p.column ≤ q.column :=
  Prod.Lex.toLex_le_toLex

/-- Where a span starts. -/
def Span.start (s : Span) : Pos :=
  ⟨s.startLine, s.startCol⟩

/-- Where a span ends. -/
def Span.stop (s : Span) : Pos :=
  ⟨s.endLine, s.endCol⟩

-- ==== all spans

mutual

/-- The spans of an expression and of all inside it. -/
def Expr.spans : Expr → List Span
  | .literal span _ _ => [span]
  | .ident span _ => [span]
  | .unary span _ operand => span :: operand.spans
  | .postfixed span operand _ => span :: operand.spans
  | .binary span left _ right => span :: (left.spans ++ right.spans)
  | .bitwise span left _ right => span :: (left.spans ++ right.spans)
  | .assign span target _ value => span :: (target.spans ++ value.spans)
  | .cast span operand _ => span :: operand.spans
  | .call span callee args => span :: (callee.spans ++ exprsSpans args)
  | .structInit span _ fields => span :: fieldsSpans fields
  | .member span object _ => span :: object.spans
  | .ifElse span condition thenBlock thenValue elseBlock elseValue =>
    span :: (condition.spans ++ (thenBlock.spans ++ (thenValue.spans
      ++ (elseBlock.spans ++ elseValue.spans))))

def exprSpans? : Option Expr → List Span
  | none => []
  | some e => e.spans

def exprsSpans : List Expr → List Span
  | [] => []
  | e :: es => e.spans ++ exprsSpans es

/-- The spans of the value of a field. -/
def FieldInit.spans : FieldInit → List Span
  | .mk _ value => value.spans

def fieldsSpans : List FieldInit → List Span
  | [] => []
  | f :: fields => f.spans ++ fieldsSpans fields

def Block.spans : Block → List Span
  | .mk span statements => span :: stmtsSpans statements

def blockSpans? : Option Block → List Span
  | none => []
  | some body => body.spans

def stmtsSpans : List Stmt → List Span
  | [] => []
  | s :: rest => s.spans ++ stmtsSpans rest

def stmtSpans? : Option Stmt → List Span
  | none => []
  | some s => s.spans

/-- The spans of a match arm and of all inside it. -/
def MatchArm.spans : MatchArm → List Span
  | .mk span pattern _ body => span :: (exprSpans? pattern ++ body.spans)

def armsSpans : List MatchArm → List Span
  | [] => []
  | arm :: arms => arm.spans ++ armsSpans arms

/-- The spans of a decorator and of its value. -/
def Decorator.spans : Decorator → List Span
  | .mk span _ value => span :: value.spans

def decoratorsSpans : List Decorator → List Span
  | [] => []
  | d :: rest => d.spans ++ decoratorsSpans rest

/-- The spans of a device and of its address. -/
def Device.spans : Device → List Span
  | .mk span _ address => span :: address.spans

def devicesSpans : List Device → List Span
  | [] => []
  | d :: rest => d.spans ++ devicesSpans rest

/-- The spans of a statement and of all inside it. -/
def Stmt.spans : Stmt → List Span
  | .importDecl span _ => [span]
  | .structDecl span _ fields => span :: fields.map (·.span)
  | .taskDecl span _ decorators body => span :: (decoratorsSpans decorators ++ blockSpans? body)
  | .busDecl span _ _ sda scl freq devices =>
    span :: (sda.spans ++ (scl.spans ++ (freq.spans ++ devicesSpans devices)))
  | .functionDecl span _ params _ body => span :: (params.map (·.span) ++ body.spans)
  | .loopDecl span body => span :: body.spans
  | .varDecl span _ _ initializer _ _ _ => span :: exprSpans? initializer
  | .block body => body.spans
  | .ifElse span condition thenBranch elseBranch =>
    span :: (condition.spans ++ (thenBranch.spans ++ blockSpans? elseBranch))
  | .whileLoop span condition body => span :: (condition.spans ++ body.spans)
  | .forLoop span init condition update body =>
    span :: (stmtSpans? init ++ (exprSpans? condition ++ (exprSpans? update ++ body.spans)))
  | .returnValue span value => span :: exprSpans? value
  | .expr span e => span :: e.spans
  | .matchValue span value arms => span :: (value.spans ++ armsSpans arms)
  | .spawn span _ => [span]
  | .gpioMode span pin _ => span :: pin.spans
  | .digitalWrite span pin value => span :: (pin.spans ++ value.spans)
  | .pwmWrite span pin duty channel => span :: (pin.spans ++ (duty.spans ++ exprSpans? channel))
  | .rgbWrite span pin red green blue =>
    span :: (pin.spans ++ (red.spans ++ (green.spans ++ blue.spans)))
  | .delay span time => span :: time.spans
  | .wifiConnect span ssid password => span :: (ssid.spans ++ password.spans)
  | .raw span _ => [span]

end

/-- The spans of everything in a program. -/
def Program.spans (p : Program) : List Span :=
  stmtsSpans p.declarations

theorem Expr.span_mem_spans (e : Expr) : e.span ∈ e.spans := by
  cases e <;> exact List.mem_cons_self

theorem Block.span_mem_spans (b : Block) : b.span ∈ b.spans := by
  cases b
  exact List.mem_cons_self

theorem Stmt.span_mem_spans (s : Stmt) : s.span ∈ s.spans := by
  cases s with
  | block body => exact body.span_mem_spans
  | _ => exact List.mem_cons_self

-- ==== lists

theorem eq_flatMap {α : Type} {f : α → List Span} {g : List α → List Span} (hnil : g [] = [])
    (hcons : ∀ a as, g (a :: as) = f a ++ g as) (as : List α) : g as = as.flatMap f := by
  induction as with
  | nil => exact hnil
  | cons a as ih => rw [hcons, ih, List.flatMap_cons]

theorem exprsSpans_eq (es : List Expr) : exprsSpans es = es.flatMap Expr.spans :=
  eq_flatMap rfl (fun _ _ => rfl) es

theorem fieldsSpans_eq (fs : List FieldInit) : fieldsSpans fs = fs.flatMap FieldInit.spans :=
  eq_flatMap rfl (fun _ _ => rfl) fs

theorem stmtsSpans_eq (ss : List Stmt) : stmtsSpans ss = ss.flatMap Stmt.spans :=
  eq_flatMap rfl (fun _ _ => rfl) ss

theorem armsSpans_eq (arms : List MatchArm) : armsSpans arms = arms.flatMap MatchArm.spans :=
  eq_flatMap rfl (fun _ _ => rfl) arms

theorem decoratorsSpans_eq (ds : List Decorator) :
    decoratorsSpans ds = ds.flatMap Decorator.spans :=
  eq_flatMap rfl (fun _ _ => rfl) ds

theorem devicesSpans_eq (ds : List Device) : devicesSpans ds = ds.flatMap Device.spans :=
  eq_flatMap rfl (fun _ _ => rfl) ds

end SketchCompiler
