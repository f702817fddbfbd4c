/-
The written part of a program: what the generated code is made from.

A declaration or statement can stand inside another at any depth: in its
blocks, in the arms of a match, and in the value blocks of its
expressions.  Generation does not look at all of these places.  It skips
what is inside a declaration that stands in a block, the channel of a
`pwmWrite`, the values of a struct initializer that no field takes, the
devices of a bus, all of a bus that is not I2C, and the decorators of a
task that ask for nothing.

`inner` lists the declarations and statements inside a node, and
`written` blanks every place that generation skips.  Writing a node and
writing its written part give the same code, for the ESP32
(`stmt_written`, `block_written`, `expr_written`).
-/
import Mathlib.Data.List.Basic
import SketchCompiler.Sketch

namespace SketchCompiler

open List

-- ==== what is inside

mutual

/-- The statements inside an expression. -/
@[simp] def Expr.inner : Expr → List Stmt
  | .literal .. | .ident .. => []
  | .unary _ _ operand => operand.inner
  | .postfixed _ operand _ => operand.inner
  | .binary _ left _ right => left.inner ++ right.inner
  | .bitwise _ left _ right => left.inner ++ right.inner
  | .assign _ target _ value => target.inner ++ value.inner
  | .cast _ operand _ => operand.inner
  | .call _ callee args => callee.inner ++ exprsInner args
  | .structInit _ _ fields => fieldsInner fields
  | .member _ object _ => object.inner
  | .ifElse _ condition thenBlock thenValue elseBlock elseValue =>
    condition.inner ++ (thenBlock.inner ++ (thenValue.inner ++ (elseBlock.inner
      ++ elseValue.inner)))

def exprInner? : Option Expr → List Stmt
  | none => []
  | some e => e.inner

def exprsInner : List Expr → List Stmt
  | [] => []
  | e :: es => e.inner ++ exprsInner es

def fieldsInner : List FieldInit → List Stmt
  | [] => []
  | .mk _ value :: fields => value.inner ++ fieldsInner fields

def Block.inner : Block → List Stmt
  | .mk _ statements => stmtsInner statements

def blockInner? : Option Block → List Stmt
  | none => []
  | some body => body.inner

def stmtsInner : List Stmt → List Stmt
  | [] => []
  | s :: rest => s :: (s.inner ++ stmtsInner rest)

def clauseInner? : Option Stmt → List Stmt
  | none => []
  | some s => s :: s.inner

def armsInner : List MatchArm → List Stmt
  | [] => []
  | .mk _ pattern _ body :: arms => exprInner? pattern ++ (body.inner ++ armsInner arms)

def decoratorsInner : List Decorator → List Stmt
  | [] => []
  | .mk _ _ value :: rest => value.inner ++ decoratorsInner rest

def devicesInner : List Device → List Stmt
  | [] => []
  | .mk _ _ address :: rest => address.inner ++ devicesInner rest

/-- The declarations and statements inside one. -/
@[simp] def Stmt.inner : Stmt → List Stmt
  | .importDecl .. | .structDecl .. | .spawn .. | .raw .. => []
  | .taskDecl _ _ decorators body => decoratorsInner decorators ++ blockInner? body
  | .busDecl _ _ _ sda scl freq devices =>
    sda.inner ++ (scl.inner ++ (freq.inner ++ devicesInner devices))
  | .functionDecl _ _ _ _ body => body.inner
  | .loopDecl _ body => body.inner
  | .varDecl _ _ _ initializer _ _ _ => exprInner? initializer
  | .block body => body.inner
  | .ifElse _ condition thenBranch elseBranch =>
    condition.inner ++ (thenBranch.inner ++ blockInner? elseBranch)
  | .whileLoop _ condition body => condition.inner ++ body.inner
  | .forLoop _ init condition update body =>
    clauseInner? init ++ (exprInner? condition ++ (exprInner? update ++ body.inner))
  | .returnValue _ value => exprInner? value
  | .expr _ e => e.inner
  | .matchValue _ value arms => value.inner ++ armsInner arms
  | .gpioMode _ pin _ => pin.inner
  | .digitalWrite _ pin value => pin.inner ++ value.inner
  | .pwmWrite _ pin duty channel => pin.inner ++ (duty.inner ++ exprInner? channel)
  | .rgbWrite _ pin red green blue => pin.inner ++ (red.inner ++ (green.inner ++ blue.inner))
  | .delay _ time => time.inner
  | .wifiConnect _ ssid password => ssid.inner ++ password.inner

end

/-- The declaration has a part of its own in the code when it stands at
the top level. -/
def Stmt.isDefinition : Stmt → Bool
  | .structDecl .. | .taskDecl .. | .busDecl .. | .functionDecl .. | .loopDecl .. | .varDecl .. =>
    true
  | _ => false

/-- A statement of the top level and what is inside it, or what is inside
a definition there. -/
def declInner (d : Stmt) : List Stmt :=
  if d.isDefinition then d.inner else d :: d.inner

/-- The declarations and statements inside a program. -/
def Program.inner (p : Program) : List Stmt :=
  p.declarations.flatMap declInner

-- ==== what is written

/-- An expression with nothing inside, in the place of another. -/
def Expr.blank (e : Expr) : Expr :=
  .ident e.span ""

/-- The field of an initializer's value. -/
def FieldInit.name : FieldInit → String
  | .mk name _ => name

/-- The value of an initializer's field. -/
def FieldInit.value : FieldInit → Expr
  | .mk _ value => value

/-- A value in front of others is taken by a field of the struct: the
struct has the field and none of the others is for it too.  All values
are taken where the struct is not known. -/
def takesValue (order : List String) (name : String) (others : List FieldInit) : Bool :=
  order.isEmpty || (order.contains name && !others.any (·.name == name))

mutual

/-- The written part of an expression. -/
@[simp] def Expr.written (order : String → List String) : Expr → Expr
  | .literal span value typeName => .literal span value typeName
  | .ident span name => .ident span name
  | .unary span op operand => .unary span op (operand.written order)
  | .postfixed span operand op => .postfixed span (operand.written order) op
  | .binary span left op right => .binary span (left.written order) op (right.written order)
  | .bitwise span left op right => .bitwise span (left.written order) op (right.written order)
  | .assign span target op value => .assign span (target.written order) op (value.written order)
  | .cast span operand typeName => .cast span (operand.written order) typeName
  | .call span callee args => .call span (callee.written order) (exprsWritten order args)
  | .structInit span typeName fields =>
    .structInit span typeName (fieldsWritten order (order typeName) fields)
  | .member span object name => .member span (object.written order) name
  | .ifElse span condition thenBlock thenValue elseBlock elseValue =>
    .ifElse span (condition.written order) (thenBlock.written order) (thenValue.written order)
      (elseBlock.written order) (elseValue.written order)

def exprWritten? (order : String → List String) : Option Expr → Option Expr
  | none => none
  | some e => some (e.written order)

def exprsWritten (order : String → List String) : List Expr → List Expr
  | [] => []
  | e :: es => e.written order :: exprsWritten order es

def fieldsWritten (order : String → List String) (fieldOrder : List String) :
    List FieldInit → List FieldInit
  | [] => []
  | .mk name value :: rest =>
    .mk name (if takesValue fieldOrder name rest then value.written order else value.blank)
      :: fieldsWritten order fieldOrder rest

def Block.written (order : String → List String) : Block → Block
  | .mk span statements => .mk span (stmtsWritten order statements)

def blockWritten? (order : String → List String) : Option Block → Option Block
  | none => none
  | some body => some (body.written order)

def stmtsWritten (order : String → List String) : List Stmt → List Stmt
  | [] => []
  | s :: rest => s.written order :: stmtsWritten order rest

def clauseWritten? (order : String → List String) : Option Stmt → Option Stmt
  | some (.varDecl span name typeName initializer isMutable isConst isVolatile) =>
    some (.varDecl span name typeName
      (exprWritten? order initializer) isMutable isConst isVolatile)
  | some (.expr span e) => some (.expr span (e.written order))
  | _ => none

def armsWritten (order : String → List String) : List MatchArm → List MatchArm
  | [] => []
  | .mk span pattern isWildcard body :: rest =>
    .mk span (if isWildcard then none else exprWritten? order pattern) isWildcard
      (body.written order) :: armsWritten order rest

/-- The written part of a statement inside a block; a declaration there
is skipped with all that is inside it. -/
@[simp] def Stmt.written (order : String → List String) : Stmt → Stmt
  | .importDecl span path => .importDecl span path
  | .structDecl span name fields => .structDecl span name fields
  | .taskDecl span name _ _ => .taskDecl span name [] none
  | .busDecl span busType name sda scl freq _ =>
    .busDecl span busType name sda.blank scl.blank freq.blank []
  | .functionDecl span name params returnType body =>
    .functionDecl span name params returnType (.mk body.span [])
  | .loopDecl span body => .loopDecl span (.mk body.span [])
  | .varDecl span name typeName initializer isMutable isConst isVolatile =>
    .varDecl span name typeName (exprWritten? order initializer) isMutable isConst isVolatile
  | .block body => .block (body.written order)
  | .ifElse span condition thenBranch elseBranch =>
    .ifElse span (condition.written order) (thenBranch.written order)
      (blockWritten? order elseBranch)
  | .whileLoop span condition body =>
    .whileLoop span (condition.written order) (body.written order)
  | .forLoop span init condition update body =>
    .forLoop span (clauseWritten? order init) (exprWritten? order condition)
      (exprWritten? order update) (body.written order)
  | .returnValue span value => .returnValue span (exprWritten? order value)
  | .expr span e => .expr span (e.written order)
  | .matchValue span value arms =>
    .matchValue span (value.written order) (armsWritten order arms)
  | .spawn span taskName => .spawn span taskName
  | .gpioMode span pin mode => .gpioMode span (pin.written order) mode
  | .digitalWrite span pin value =>
    .digitalWrite span (pin.written order) (value.written order)
  | .pwmWrite span pin duty _ => .pwmWrite span (pin.written order) (duty.written order) none
  | .rgbWrite span pin red green blue =>
    .rgbWrite span (pin.written order) (red.written order) (green.written order)
      (blue.written order)
  | .delay span time => .delay span (time.written order)
  | .wifiConnect span ssid password =>
    .wifiConnect span (ssid.written order) (password.written order)
  | .raw span code => .raw span code

end

variable {cx : EmitContext}

-- ==== the values of a struct

theorem lookup_reverse_cons (name key : String) (value : α) (given : List (String × α)) :
    ((key, value) :: given).reverse.lookup name
      = (given.reverse.lookup name).or (if name == key then some value else none) := by
  rw [reverse_cons, lookup_append, lookup_cons]
  cases name == key <;> rfl

theorem isSome_lookup_fieldValues (cx : EmitContext) (name : String) (fields : List FieldInit) :
    ((Emit.fieldValues cx fields).reverse.lookup name).isSome = fields.any (·.name == name) := by
  induction fields with
  | nil => rfl
  | cons f rest ih =>
    obtain ⟨key, value⟩ := f
    rw [Emit.fieldValues, lookup_reverse_cons, Option.isSome_or, ih, any_cons, Bool.or_comm,
      FieldInit.name, BEq.comm]
    cases key == name <;> rfl

variable (order : String → List String)

theorem lookup_fieldsWritten (fieldOrder : List String)
    (name : String) (hname : name ∈ fieldOrder) (fields : List FieldInit)
    (h : ∀ f ∈ fields, Emit.expr cx (f.value.written order) = Emit.expr cx f.value) :
    (Emit.fieldValues cx (fieldsWritten order fieldOrder fields)).reverse.lookup name
      = (Emit.fieldValues cx fields).reverse.lookup name := by
  induction fields with
  | nil => rfl
  | cons f rest ih =>
    obtain ⟨key, value⟩ := f
    have hrest := ih (fun f hf => h f (mem_cons_of_mem _ hf))
    have hvalue : Emit.expr cx (value.written order) = Emit.expr cx value := h _ mem_cons_self
    rw [fieldsWritten, Emit.fieldValues, Emit.fieldValues, lookup_reverse_cons,
      lookup_reverse_cons, hrest]
    cases htakes : takesValue fieldOrder key rest with
    | true => rw [if_pos rfl, hvalue]
    | false =>
      cases hkey : name == key with
      | false => rfl
      | true =>
        -- the field is the struct's, so the value gives way to a later one
        have hlater : rest.any (·.name == name) = true := by
          rw [← beq_iff_eq.mp hkey, takesValue, contains_iff_mem.mpr hname, Bool.true_and,
            Bool.or_eq_false_iff, Bool.not_eq_false'] at htakes
          exact htakes.2
        rw [← isSome_lookup_fieldValues cx] at hlater
        obtain ⟨later, hfound⟩ := Option.isSome_iff_exists.mp hlater
        rw [hfound, Option.some_or, Option.some_or]

theorem orderedValues_written (fieldOrder : List String)
    (fields : List FieldInit)
    (h : ∀ f ∈ fields, Emit.expr cx (f.value.written order) = Emit.expr cx f.value) :
    Emit.orderedValues fieldOrder (Emit.fieldValues cx (fieldsWritten order fieldOrder fields))
      = Emit.orderedValues fieldOrder (Emit.fieldValues cx fields) := by
  cases fieldOrder with
  | nil =>
    have hvalues : Emit.fieldValues cx (fieldsWritten order [] fields)
        = Emit.fieldValues cx fields := by
      induction fields with
      | nil => rfl
      | cons f rest ih =>
        obtain ⟨key, value⟩ := f
        have hvalue : Emit.expr cx (value.written order) = Emit.expr cx value := h _ mem_cons_self
        rw [fieldsWritten, Emit.fieldValues, Emit.fieldValues,
          ih (fun f hf => h f (mem_cons_of_mem _ hf))]
        rw [if_pos (show takesValue [] key rest = true from rfl), hvalue]
    rw [hvalues]
  | cons first others =>
    unfold Emit.orderedValues
    rw [if_neg (by simp), if_neg (by simp)]
    congr 1
    apply filterMap_congr
    intro name hname
    exact lookup_fieldsWritten order _ name hname fields h

-- ==== assignments, loops and the ESP32

/-- The target of an assignment, without parentheses around a member. -/
def Emit.target (cx : EmitContext) : Expr → Except EmitFault String
  | .member _ object name => do return (← expr cx object) ++ "." ++ name
  | e => expr cx e

theorem Emit.expr_assign (span : Span) (target : Expr) (op : String) (value : Expr) :
    Emit.expr cx (.assign span target op value) = do
      let v ← Emit.expr cx value
      let t ← Emit.target cx target
      return assignment t op v := by
  cases target <;> simp only [Emit.expr, Emit.target, bind_assoc, pure_bind]

/-- The first clause of a loop, without its semicolon. -/
def Emit.clause (cx : EmitContext) : Option Stmt → Except EmitFault String
  | some (.varDecl _ name typeName init _ isConst isVolatile) => do
    let text := varDecl false name typeName isConst isVolatile (← initializer cx init)
    return String.ofList (Text.trimRightWhile (· == ';') text.toList)
  | some (.expr _ e) => expr cx e
  | _ => return ""

/-- A part of a loop's header that may be missing. -/
def Emit.exprOr (cx : EmitContext) (missing : String) : Option Expr → Except EmitFault String
  | none => return missing
  | some e => expr cx e

theorem Emit.stmt_forLoop (span : Span) (init : Option Stmt) (condition update : Option Expr)
    (body : Block) :
    Emit.stmt cx (.forLoop span init condition update body) = do
      let i ← Emit.clause cx init
      let c ← Emit.exprOr cx "true" condition
      let u ← Emit.exprOr cx "" update
      return braced ("for (" ++ i ++ "; " ++ c ++ "; " ++ u ++ ") \x7b") span
        (← block cx body) := by
  rcases init with _ | init
  · cases condition <;> cases update <;> rfl
  · cases init with
    | varDecl =>
      cases condition <;> cases update <;>
        simp only [Emit.stmt, Emit.clause, Emit.exprOr, bind_assoc, pure_bind]
    | _ => cases condition <;> cases update <;> rfl

theorem Emit.stmt_pwmWrite (hb : cx.backend = .esp32) (span : Span) (pin duty : Expr)
    (channel : Option Expr) :
    Emit.stmt cx (.pwmWrite span pin duty channel) = do
      let p ← Emit.expr cx pin
      let d ← Emit.expr cx duty
      return [⟨"ledcAttach(" ++ p ++ ", 5000, 8);", some span⟩,
        ⟨"ledcWrite(" ++ p ++ ", " ++ d ++ ");", some span⟩] := by
  obtain ⟨backend, fieldOrder, core⟩ := cx
  cases hb
  simp only [Emit.stmt, pure_bind, map_cons, map_nil]

theorem Emit.stmt_rgbWrite (hb : cx.backend = .esp32) (span : Span) (pin red green blue : Expr) :
    Emit.stmt cx (.rgbWrite span pin red green blue) = do
      let p ← Emit.expr cx pin
      let r ← Emit.expr cx red
      let g ← Emit.expr cx green
      let b ← Emit.expr cx blue
      return [⟨"neopixelWrite(" ++ p ++ ", " ++ r ++ ", " ++ g ++ ", " ++ b
        ++ ");", some span⟩] := by
  obtain ⟨backend, fieldOrder, core⟩ := cx
  cases hb
  simp only [Emit.stmt]

-- ==== writing the written part

theorem Block.statements_written_isEmpty (b : Block) :
    (b.written order).statements.isEmpty = b.statements.isEmpty := by
  obtain ⟨span, statements⟩ := b
  cases statements with
  | nil => rfl
  | cons s rest => rfl

theorem Block.span_written (b : Block) :
    (b.written order).span = b.span := by
  obtain ⟨span, statements⟩ := b
  rfl

variable (hb : cx.backend = .esp32)
include hb

-- the backend is looked at in few places of the induction
set_option linter.unusedSectionVars false in
mutual

theorem expr_written :
    ∀ e : Expr, Emit.expr cx (e.written cx.fieldOrder) = Emit.expr cx e
  | .literal .. => by rw [Expr.written]
  | .ident .. => by rw [Expr.written]
  | .unary _ _ operand | .postfixed _ operand _ | .cast _ operand _ | .member _ operand _ => by
    simp only [Expr.written, Emit.expr, expr_written operand]
  | .binary _ left _ right | .bitwise _ left _ right => by
    simp only [Expr.written, Emit.expr, expr_written left, expr_written right]
  | .assign _ target _ value => by
    have htarget := expr_written target
    have hvalue := expr_written value
    have hplace : Emit.target cx (target.written cx.fieldOrder) = Emit.target cx target := by
      cases target with
      | member _ object _ => simp only [Expr.written, Emit.target, expr_written object]
      | _ => exact htarget
    rw [Expr.written, Emit.expr_assign, Emit.expr_assign, hvalue, hplace]
  | .call _ callee args => by
    simp only [Expr.written, Emit.expr, expr_written callee, exprs_written args]
  | .structInit _ _ fields => by
    simp only [Expr.written, Emit.expr, orderedValues_written _ _ _ (fields_written fields)]
  | .ifElse _ condition thenBlock thenValue elseBlock elseValue => by
    simp only [Expr.written, Emit.expr, expr_written condition, expr_written thenValue,
      expr_written elseValue, block_written thenBlock, block_written elseBlock,
      Block.statements_written_isEmpty]

theorem exprs_written :
    ∀ es : List Expr, Emit.exprs cx (exprsWritten cx.fieldOrder es) = Emit.exprs cx es
  | [] => rfl
  | e :: es => by simp only [exprsWritten, Emit.exprs, expr_written e, exprs_written es]

theorem fields_written :
    ∀ fields : List FieldInit, ∀ f ∈ fields,
      Emit.expr cx (f.value.written cx.fieldOrder) = Emit.expr cx f.value
  | .mk _ value :: fields, f, hf => by
    rcases mem_cons.mp hf with heq | hf
    · rw [heq]
      exact expr_written value
    · exact fields_written fields f hf

theorem block_written :
    ∀ b : Block, Emit.block cx (b.written cx.fieldOrder) = Emit.block cx b
  | .mk _ statements => by simp only [Block.written, Emit.block, stmts_written statements]

theorem stmts_written :
    ∀ ss : List Stmt, Emit.stmts cx (stmtsWritten cx.fieldOrder ss) = Emit.stmts cx ss
  | [] => rfl
  | s :: rest => by
    simp only [stmtsWritten, Emit.stmts, stmt_written s, stmts_written rest]

theorem stmt_written :
    ∀ s : Stmt, Emit.stmt cx (s.written cx.fieldOrder) = Emit.stmt cx s
  | .importDecl .. => rfl
  | .structDecl .. => rfl
  | .taskDecl .. => rfl
  | .busDecl .. => rfl
  | .functionDecl .. => rfl
  | .loopDecl .. => rfl
  | .spawn .. => rfl
  | .raw .. => rfl
  | .varDecl _ _ _ initializer _ _ _ => by
    simp only [Stmt.written, Emit.stmt, initializer_written initializer]
  | .block body => by
    simp only [Stmt.written, Emit.stmt, block_written body, Block.span_written]
  | .ifElse _ condition thenBranch elseBranch => by
    have hcondition := expr_written condition
    have hthen := block_written thenBranch
    cases elseBranch with
    | none => simp only [Stmt.written, blockWritten?, Emit.stmt, hcondition, hthen]
    | some body =>
      simp only [Stmt.written, blockWritten?, Emit.stmt, hcondition, hthen, block_written body,
        Block.span_written]
  | .whileLoop _ condition body => by
    simp only [Stmt.written, Emit.stmt, expr_written condition, block_written body]
  | .forLoop _ init condition update body => by
    rw [Stmt.written, Emit.stmt_forLoop, Emit.stmt_forLoop, clause_written init,
      exprOr_written condition, exprOr_written update, block_written body]
  | .returnValue _ none => rfl
  | .returnValue _ (some value) => by
    simp only [Stmt.written, exprWritten?, Emit.stmt, expr_written value]
  | .expr _ e | .gpioMode _ e _ => by simp only [Stmt.written, Emit.stmt, expr_written e]
  | .matchValue _ value arms => by
    simp only [Stmt.written, Emit.stmt, expr_written value, arms_written arms]
  | .digitalWrite _ pin value | .wifiConnect _ pin value => by
    simp only [Stmt.written, Emit.stmt, expr_written pin, expr_written value]
  | .pwmWrite _ pin duty _ => by
    rw [Stmt.written, Emit.stmt_pwmWrite hb, Emit.stmt_pwmWrite hb, expr_written pin,
      expr_written duty]
  | .rgbWrite _ pin red green blue => by
    rw [Stmt.written, Emit.stmt_rgbWrite hb, Emit.stmt_rgbWrite hb, expr_written pin,
      expr_written red, expr_written green, expr_written blue]
  | .delay _ time => by
    have htime := expr_written time
    cases time with
    | literal => rfl
    | _ =>
      rw [Expr.written] at htime
      simp only [Stmt.written, Expr.written, Emit.stmt, htime]

theorem clause_written :
    ∀ init : Option Stmt, Emit.clause cx (clauseWritten? cx.fieldOrder init) = Emit.clause cx init
  | none => rfl
  | some init => by
    cases init with
    | varDecl _ _ _ initializer _ _ _ =>
      simp only [clauseWritten?, Emit.clause, initializer_written initializer]
    | expr _ e => simp only [clauseWritten?, Emit.clause, expr_written e]
    | _ => rfl

theorem exprOr_written :
    ∀ e? : Option Expr,
      Emit.exprOr cx missing (exprWritten? cx.fieldOrder e?) = Emit.exprOr cx missing e?
  | none => rfl
  | some e => by simp only [exprWritten?, Emit.exprOr, expr_written e]

theorem initializer_written :
    ∀ e? : Option Expr, Emit.initializer cx (exprWritten? cx.fieldOrder e?)
      = Emit.initializer cx e?
  | none => rfl
  | some e => by
    have he := expr_written e
    cases e with
    | structInit _ _ fields =>
      simp only [exprWritten?, Expr.written, Emit.initializer,
        orderedValues_written _ _ _ (fields_written fields)]
    | _ =>
      rw [Expr.written] at he
      simp only [exprWritten?, Expr.written, Emit.initializer, he]

theorem arms_written :
    ∀ arms : List MatchArm, Emit.arms cx (armsWritten cx.fieldOrder arms) = Emit.arms cx arms
  | [] => rfl
  | .mk _ pattern isWildcard body :: rest => by
    have hbody := block_written body
    have hrest := arms_written rest
    cases isWildcard with
    | true => simp only [armsWritten, Emit.arms, hbody, hrest, if_true]
    | false =>
      cases pattern with
      | none => simp only [armsWritten, exprWritten?, Emit.arms, hbody, hrest, ite_self]
      | some pattern =>
        simp only [armsWritten, exprWritten?, Emit.arms, hbody, hrest, expr_written pattern,
          Bool.false_eq_true, if_false]

end

end SketchCompiler
