/-
What a check is made of.  The checks of expressions and statements are put
together from a few steps: they ask for what the analysis knows, report,
enter files, define names and do something in a scope of its own
(`Steps`).  What holds of all these steps holds of every visit, by
induction on the way it is put together; that visits agree is the first
example (`Steps.agrees`).

# Reach

A visit reports at the spans of what is visited and enters the files that
they are in.  So the steps are said to stay within a `Reach`, and a tree
is checked within any reach that its spans are inside of (`Inside`).
-/
import SketchCompiler.Proofs.Agreement
import SketchCompiler.Proofs.Occurrence
import SketchCompiler.Proofs.Spans

namespace SketchCompiler

open Check

variable {c : Check α} {finding : Finding} {e : Expr} {span : Span}

-- ==== steps

/-- A finding about declarations that do not go together, made before any
of them is visited. -/
def Finding.isDeclaring : Finding → Bool
  | .functionRedefined _ | .structRedefined _ | .structConflict _ | .duplicateField _ _
  | .taskRedefined _ | .taskConflict _ => true
  | _ => false

/-- The files that a check may enter and the spans that it may report at,
findings of one kind. -/
structure Reach (declaring : Bool) where
  files : String → Prop := fun _ => True
  spans : Span → Prop := fun _ => True

/-- No bounds at all. -/
abbrev anywhere (declaring : Bool) : Reach declaring :=
  {}

/-- The check is put together from steps within the reach.  It leaves the
scopes as they were unless it may define something. -/
inductive Steps {declaring : Bool} (r : Reach declaring) :
    (defines : Bool) → {α : Type} → Check α → Prop where
  | pure {defines : Bool} {α : Type} (x : α) : Steps r defines (pure x : Check α)
  | bind {defines : Bool} {α β : Type} {c : Check α} {f : α → Check β} (hc : Steps r defines c)
      (hf : ∀ x, Steps r defines (f x)) : Steps r defines (c >>= f)
  /-- A check that asks for what alike states have in common. -/
  | ask {defines : Bool} {α : Type} {f : Analysis → Check α}
      (hsame : ∀ a b : Analysis, a.Alike b → f a = f b) (hf : ∀ a, Steps r defines (f a)) :
      Steps r defines (get >>= f)
  | report {defines : Bool} {span : Span} {finding : Finding} (hspan : r.spans span)
      (hkind : finding.isDeclaring = declaring) : Steps r defines (report span finding)
  | enterFile {defines : Bool} {file : String} (h : r.files file) :
      Steps r defines (enterFile file)
  | define (s : Symbol) : Steps r true (define s)
  | scope {defines : Bool} {c : Check Unit} (hc : Steps r true c) :
      Steps r defines (openScope >>= fun _ => c >>= fun _ => closeScope)
  | returning {defines : Bool} {c : Check Unit} (type : String) (hc : Steps r defines c) :
      Steps r defines (returning type c)

namespace Steps

variable {α β : Type} {declaring defines : Bool} {r : Reach declaring} {span : Span}

/-- From alike states the steps come to the same. -/
theorem agrees (h : Steps r defines c) : Agrees defines c := by
  induction h with
  | pure x => exact .pure x
  | bind _ _ hc hf => exact .bind hc hf
  | ask hsame _ hf => exact .ask hsame hf
  | report => exact .report _ _
  | enterFile => exact .enterFile _
  | define s => exact .define s
  | scope _ hc => exact .scope hc
  | returning type _ hc => exact .returning type hc

theorem moves (h : Steps r defines c) (a : Analysis) :
    ∃ more, a.Moves defines more (c.run a).2 := by
  obtain ⟨-, -, more, hmove, -⟩ := h.agrees a a (.refl a)
  exact ⟨more, hmove⟩

theorem mayDefine (h : Steps r defines c) : Steps r true c := by
  induction h with
  | pure x => exact .pure x
  | bind _ _ hc hf => exact .bind hc hf
  | ask hsame _ hf => exact .ask hsame hf
  | report hspan hkind => exact .report hspan hkind
  | enterFile h => exact .enterFile h
  | define s => exact .define s
  | scope hc => exact .scope hc
  | returning type _ hc => exact .returning type hc

theorem outer (h : Steps r defines c) (a : Analysis) : a.scopes.SameOuter (c.run a).2.scopes := by
  obtain ⟨more, hmove⟩ := h.mayDefine.moves a
  exact hmove.scopes

theorem reportIf (condition : Bool) (hspan : r.spans span)
    (hkind : finding.isDeclaring = declaring) :
    Steps r defines (reportIf condition span finding) := by
  cases condition with
  | false => exact .pure ()
  | true => exact .report hspan hkind

/-- A finding with no type as the result. -/
theorem unknown (hspan : r.spans span) (hkind : finding.isDeclaring = declaring) :
    Steps r defines (do Check.report span finding; return "unknown" : Check String) :=
  .bind (.report hspan hkind) fun _ => .pure _

theorem board {f : Analysis → Check α} (hsame : ∀ a b : Analysis, b.board = a.board → f a = f b)
    (hf : ∀ a, Steps r defines (f a)) : Steps r defines (get >>= f) :=
  .ask (fun a b h => hsame a b h.board) hf

theorem resolve (name : String) : Steps r defines (resolve name) :=
  .ask (fun _ _ h => by rw [h.scopes.resolve]) fun _ => .pure _

theorem layout? (name : String) : Steps r defines (layout? name) :=
  .ask (fun _ _ h => by rw [h.structs]) fun _ => .pure _

/-- A definition whose name has to be free. -/
theorem defined (s : Symbol) (hspan : r.spans span) (hkind : finding.isDeclaring = declaring) :
    Steps r true (do let free ← Check.define s; Check.reportIf (!free) span finding) :=
  .bind (.define s) fun _ => .reportIf _ hspan hkind

theorem optional {x? : Option α} {f : α → Check Unit} (h : ∀ x ∈ x?, Steps r defines (f x)) :
    Steps r defines (x?.forM f) := by
  cases x? with
  | none => exact .pure ()
  | some x => exact h x rfl

end Steps

-- ==== checks of single nodes

namespace Steps

variable {α : Type} {defines : Bool} {r : Reach false} {span : Span}

theorem constInt? (e : Expr) : Steps r defines (constInt? e) := by
  unfold Check.constInt?
  split
  · exact .pure _
  · exact .bind (.resolve _) fun _ => .pure _
  · exact .pure _

/-- A check of the integer that an expression is known to be, if any. -/
theorem known {f : Int → Analysis → Check Unit}
    (hsame : ∀ n (a b : Analysis), b.board = a.board → f n a = f n b)
    (hf : ∀ n a, Steps r defines (f n a)) :
    Steps r defines (do
      let some n ← Check.constInt? e | return
      let a ← get
      f n a) := by
  refine .bind (.constInt? e) fun n => ?_
  cases n with
  | none => exact .pure _
  | some n => exact .board (hsame n) (hf n)

theorem pin (he : r.spans e.span) (type call : String) : Steps r defines (pin e type call) := by
  unfold Check.pin
  split
  · exact .report he rfl
  · exact .known (fun _ _ _ h => by rw [h]) fun _ _ => .bind (.reportIf _ he rfl) fun _ =>
      .reportIf _ he rfl

theorem pinMode (hspan : r.spans span) (e : Expr) (mode : String) :
    Steps r defines (pinMode span e mode) :=
  .known (fun _ _ _ h => by rw [h]) fun _ _ => .bind (.reportIf _ hspan rfl) fun _ =>
    .bind (.reportIf _ hspan rfl) fun _ => .reportIf _ hspan rfl

theorem outputPin (he : r.spans e.span) (call : String) : Steps r defines (outputPin e call) :=
  .known (fun _ _ _ h => by rw [h]) fun _ _ => .bind (.reportIf _ he rfl) fun _ =>
    .reportIf _ he rfl

theorem pwmPin (he : r.spans e.span) : Steps r defines (pwmPin e) :=
  .known (fun _ _ _ h => by rw [h]) fun _ _ => .reportIf _ he rfl

theorem adcPin (he : r.spans e.span) : Steps r defines (adcPin e) := by
  refine .known (fun _ _ _ h => by rw [h]) fun n a => ?_
  dsimp only
  split
  · exact .report he rfl
  · exact .reportIf _ he rfl

section Reporting

variable (hspan : r.spans span)

include hspan

theorem busPins (sda scl : Expr) : Steps r defines (busPins span sda scl) := by
  refine .bind (.constInt? sda) fun s => .bind (.constInt? scl) fun l => ?_
  split
  · exact .board (fun _ _ h => by rw [h]) fun _ => .bind (.reportIf _ hspan rfl) fun _ =>
      .reportIf _ hspan rfl
  · exact .report hspan rfl

theorem returnedType (type : String) : Steps r defines (returnedType span type) :=
  .ask (fun _ _ h => by rw [h.returnType]) fun _ => .reportIf _ hspan rfl

theorem assignmentTypes (op target value : String) :
    Steps r defines (assignmentTypes span op target value) := by
  unfold Check.assignmentTypes
  split
  · exact .reportIf _ hspan rfl
  · refine .bind (.reportIf _ hspan rfl) fun _ => .bind (.reportIf _ hspan rfl) fun _ => ?_
    split
    · exact .reportIf _ hspan rfl
    · exact .reportIf _ hspan rfl

theorem castType (source target : String) : Steps r defines (castType span source target) := by
  unfold Check.castType
  dsimp only
  split
  · exact .pure _
  · exact .unknown hspan rfl

theorem memberType (object member : String) : Steps r defines (memberType span object member) := by
  refine .bind (.layout? _) fun layout => ?_
  split
  · exact .unknown hspan rfl
  · split
    · exact .pure _
    · exact .unknown hspan rfl

theorem unaryType (op operand : String) : Steps r defines (unaryType span op operand) := by
  unfold Check.unaryType
  repeat' split
  all_goals first | exact .pure _ | exact .unknown hspan rfl

theorem postfixType (e : Expr) : Steps r defines (postfixType span e) := by
  unfold Check.postfixType
  split
  · refine .bind (.resolve _) fun s => ?_
    split
    · exact .unknown hspan rfl
    · exact .bind (.reportIf _ hspan rfl) fun _ => .bind (.reportIf _ hspan rfl) fun _ => .pure _
  · exact .unknown hspan rfl

theorem bitwiseType (op left right : String) :
    Steps r defines (bitwiseType span op left right) := by
  unfold Check.bitwiseType
  repeat' split
  all_goals first | exact .pure _ | exact .unknown hspan rfl

theorem binaryType (op left right : String) : Steps r defines (binaryType span op left right) := by
  unfold Check.binaryType Check.arithmeticType
  repeat' split
  all_goals first | exact .pure _ | exact .unknown hspan rfl

end Reporting

end Steps

-- ==== optional parts

/-- The type of the value that a variable starts with, if there is one. -/
def inferInitializer : Option Expr → Check String
  | none => pure "unknown"
  | some value => inferType value

/-- The check of the type of a variable. -/
def checkVariable (span : Span) (name : String) (typeName : Option String) (isStarted : Bool)
    (inferred : String) : Check Unit := do
  let written := typeName.filter (· != "")
  let declared := TypeName.normalize (written.getD inferred)
  let known := TypeName.isPrimitive declared || (← layout? declared).isSome
  reportIf (!known) span (.unknownType (written.getD declared))
  typeName.forM fun typeName =>
    reportIf (isStarted && !TypeName.isAssignable typeName inferred) span
      (.initializerMismatch name typeName inferred)

/-- What a variable is recorded as. -/
def variableSymbol (name : String) (typeName : Option String) (isConst isVolatile : Bool)
    (constInt : Option Int) (inferred : String) : Symbol :=
  { name, kind := "var"
    typeName := TypeName.normalize ((typeName.filter (· != "")).getD inferred)
    constInt, isConst, isVolatile }

/-- The visit of a variable, step by step. -/
theorem visit_varDecl (span : Span) (name : String) (typeName : Option String)
    (initializer : Option Expr) (isMutable isConst isVolatile : Bool) :
    visit (.varDecl span name typeName initializer isMutable isConst isVolatile)
      = (do
        enterFile span.file
        let inferred ← inferInitializer initializer
        checkVariable span name typeName initializer.isSome inferred
        let free ← define
          (variableSymbol name typeName isConst isVolatile (initialInt initializer) inferred)
        reportIf (!free) span (.variableRedefined name)) := by
  cases initializer <;> cases typeName <;>
    simp only [visit, inferInitializer, checkVariable, Option.forM, variableSymbol, bind_assoc,
      pure_bind] <;> rfl

theorem visit_taskDecl (span : Span) (name : String) (decorators : List Decorator)
    (body : Option Block) :
    visit (.taskDecl span name decorators body) = (do
      enterFile span.file
      let cores ← visitDecorators decorators
      reportIf (cores > 1) span .coreRepeated
      body.forM (visitBlock)) := by
  cases body <;> rfl

theorem visit_ifElse (span : Span) (condition : Expr) (thenBranch : Block)
    (elseBranch : Option Block) :
    visit (.ifElse span condition thenBranch elseBranch) = (do
      enterFile span.file
      let conditionType ← inferType condition
      expectType condition "bool" conditionType (.conditionNotBool "If")
      visitBlock thenBranch
      elseBranch.forM (visitBlock)) := by
  cases elseBranch <;> rfl

/-- The visit of a pulse width. -/
theorem visit_pwmWrite (span : Span) (pinExpr duty : Expr) (channel : Option Expr) :
    visit (.pwmWrite span pinExpr duty channel) = (do
      enterFile span.file
      let pinType ← inferType pinExpr
      pin pinExpr pinType "pwmWrite"
      pwmPin pinExpr
      let dutyType ← inferType duty
      expectNumeric duty dutyType "pwmWrite duty must be numeric"
      channel.forM fun channel => do
        let channelType ← inferType channel
        expectNumeric channel channelType "pwmWrite channel must be numeric") := by
  cases channel <;> rfl

/-- The check of the condition of a `for` loop. -/
def checkCondition (condition : Expr) : Check Unit := do
  let conditionType ← inferType condition
  expectType condition "bool" conditionType (.conditionNotBool "For")

/-- What is visited of a loop behind its first clause. -/
def loopRest (condition update : Option Expr) (body : Block) : Check Unit := do
  condition.forM (checkCondition)
  update.forM fun update => do
    let _ ← inferType update
  visitBlock body

theorem visit_forLoop (span : Span) (init : Option Stmt)
    (condition update : Option Expr) (body : Block) :
    visit (.forLoop span init condition update body) = (do
      enterFile span.file
      init.forM (visit)
      loopRest condition update body) := by
  cases init <;> cases condition <;> cases update <;>
    simp only [loopRest, Option.forM, checkCondition, pure_bind, bind_assoc] <;> rfl

/-- A visit does not see the file: it enters one of its own first. -/
theorem visit_file (s : Stmt) (a : Analysis) (file : String) :
    (visit s).run { a with file } = (visit s).run a := by
  cases s with
  | forLoop =>
    rw [visit_forLoop]
    rfl
  | _ => rfl

-- ==== trees

/-- All the spans are within the reach, and so are their files. -/
def Inside (r : Reach false) (ss : List Span) : Prop :=
  ∀ s ∈ ss, r.spans s ∧ r.files s.file

namespace Inside

variable {r : Reach false} {s : Span} {ss ss' : List Span}

theorem anywhere : Inside (anywhere false) ss := fun _ _ => ⟨trivial, trivial⟩

theorem head (h : Inside r (s :: ss)) : r.spans s := (h s List.mem_cons_self).1

theorem file (h : Inside r (s :: ss)) : r.files s.file := (h s List.mem_cons_self).2

theorem tail (h : Inside r (s :: ss)) : Inside r ss := fun x hx => h x (List.mem_cons_of_mem s hx)

theorem left (h : Inside r (ss ++ ss')) : Inside r ss :=
  fun x hx => h x (List.mem_append_left ss' hx)

theorem right (h : Inside r (ss ++ ss')) : Inside r ss' :=
  fun x hx => h x (List.mem_append_right ss hx)

theorem expr (h : Inside r e.spans) : r.spans e.span := (h _ e.span_mem_spans).1

end Inside

namespace Steps

variable {defines : Bool} {r : Reach false}

theorem mutableTarget (h : Inside r e.spans) : Steps r defines (mutableTarget e) := by
  fun_induction Check.mutableTarget e with
  | case1 | case2 => exact .bind (.resolve _) fun _ => .reportIf _ h.head rfl
  | case3 _ _ _ _ ih => exact ih h.tail
  | case4 => exact .pure _

theorem defineParams {params : List Param} (h : Inside r (params.map (·.span))) :
    Steps r true (params.forM defineParam) := by
  induction params with
  | nil => exact .pure ()
  | cons p params ih => exact .bind (.defined _ h.head rfl) fun _ => ih h.tail

theorem variableType (hspan : r.spans span) (name : String) (typeName : Option String)
    (isStarted : Bool) (inferred : String) :
    Steps r defines (checkVariable span name typeName isStarted inferred) :=
  .bind (.layout? _) fun _ => .bind (.reportIf _ hspan rfl) fun _ => .optional fun _ _ =>
    .reportIf _ hspan rfl

/-- A condition, and what is checked behind it. -/
theorem condition (h : Inside r e.spans) (he : Steps r defines (inferType e)) (what : String)
    {rest : Check Unit} (hrest : Steps r defines rest) :
    Steps r defines (do
      let type ← inferType e
      Check.expectType e "bool" type (.conditionNotBool what)
      rest) :=
  .bind he fun _ => .bind (.reportIf _ h.expr rfl) fun _ => hrest

theorem numeric (h : Inside r e.spans) (he : Steps r defines (inferType e)) (what : String) :
    Steps r defines (inferType e >>= fun type => expectNumeric e type what) :=
  .bind he fun _ => .reportIf _ h.expr rfl

theorem call {callee : Expr} {args : List Expr} (h : Inside r (Expr.call span callee args).spans)
    (hall : Steps r defines (inferAll args))
    (hargs : ∀ name types, Steps r defines (checkArguments name 1 types args)) :
    Steps r defines (inferType (.call span callee args)) := by
  cases callee with
  | ident _ name =>
    rw [inferType]
    refine .bind (.resolve name) fun s => ?_
    cases s with
    | none => exact .unknown h.head rfl
    | some s =>
      dsimp only
      split
      · exact .unknown h.head rfl
      · split
        · exact .bind (.report h.head rfl) fun _ => .bind hall fun _ => .pure _
        · refine .bind (hargs _ _) fun _ => ?_
          split
          · cases args with
            | nil => exact .pure _
            | cons arg args => exact .bind (.adcPin h.tail.right.left.expr) fun _ => .pure _
          · exact .pure _
  | _ =>
    unfold inferType
    exact .unknown h.head rfl

end Steps

/-- Whether the visit of a statement may define something in the scope
around it. -/
def Stmt.defines : Stmt → Bool
  | .varDecl .. | .forLoop .. => true
  | _ => false

section Trees

variable {r : Reach false}

mutual

theorem Expr.steps {defines : Bool} : ∀ e : Expr, Inside r e.spans →
    Steps r defines (inferType e)
  | .literal _ _ _, _ => .pure _
  | .ident _ name, h => .bind (.resolve name) fun s => by
    cases s with
    | none => exact .unknown h.head rfl
    | some s => exact .pure _
  | .assign _ target _ value, h => .bind (.mutableTarget h.tail.left) fun _ =>
    .bind (target.steps h.tail.left) fun _ => .bind (value.steps h.tail.right) fun _ =>
      .bind (.assignmentTypes h.head _ _ _) fun _ => .pure _
  | .cast _ operand _, h => .bind (operand.steps h.tail) fun _ => .castType h.head _ _
  | .member _ object _, h => .bind (object.steps h.tail) fun _ => .memberType h.head _ _
  | .ifElse _ condition thenBlock thenValue elseBlock elseValue, h => by
    have hthen := h.tail.right
    have hvalue := hthen.right
    have helse := hvalue.right
    refine .bind (condition.steps h.tail.left) fun _ =>
      .bind (.reportIf _ h.tail.left.expr rfl) fun _ =>
      .bind (thenBlock.steps hthen.left) fun _ => .bind (elseBlock.steps helse.left) fun _ =>
        .bind (thenValue.steps hvalue.left) fun _ =>
          .bind (elseValue.steps helse.right) fun _ => ?_
    split
    · exact .pure _
    · exact .unknown h.head rfl
  | .structInit _ typeName fields, h => .bind (.layout? typeName) fun layout => by
    cases layout with
    | none =>
      exact .bind (.report h.head rfl) fun _ =>
        .bind (fieldsSteps fields h.tail).1 fun _ => .pure _
    | some layout =>
      exact .bind ((fieldsSteps fields h.tail).2 h.head _ layout []) fun _ =>
        .bind (.reportIf _ h.head rfl) fun _ => .pure _
  | .postfixed _ operand _, h => .postfixType h.head operand
  | .unary _ _ operand, h => .bind (operand.steps h.tail) fun _ => .unaryType h.head _ _
  | .bitwise _ left _ right, h => .bind (left.steps h.tail.left) fun _ =>
    .bind (right.steps h.tail.right) fun _ => .bitwiseType h.head _ _ _
  | .binary _ left _ right, h => .bind (left.steps h.tail.left) fun _ =>
    .bind (right.steps h.tail.right) fun _ => .binaryType h.head _ _ _
  | .call _ _ args, h => .call h (exprsSteps args h.tail.right).1
    ((exprsSteps args h.tail.right).2 · 1 ·)

theorem exprSteps? : ∀ e? : Option Expr, Inside r (exprSpans? e?) →
    ∀ e ∈ e?, Inside r e.spans ∧ ∀ {defines : Bool}, Steps r defines (inferType e)
  | none, _ => nofun
  | some e, h => fun _ he => Option.some.inj he ▸ ⟨h, e.steps h⟩

theorem exprsSteps {defines : Bool} : ∀ es : List Expr, Inside r (exprsSpans es) →
    Steps r defines (inferAll es)
      ∧ ∀ name index types, Steps r defines (checkArguments name index types es)
  | [], _ => ⟨.pure (), fun _ _ types => by cases types <;> exact .pure ()⟩
  | e :: es, h => by
    refine ⟨.bind (e.steps h.left) fun _ => (exprsSteps es h.right).1, fun name index types => ?_⟩
    cases types with
    | nil => exact .pure ()
    | cons type types =>
      exact .bind (e.steps h.left) fun _ => .bind (.reportIf _ h.left.expr rfl) fun _ =>
        (exprsSteps es h.right).2 _ _ _

theorem fieldsSteps {defines : Bool} : ∀ fs : List FieldInit,
    Inside r (fieldsSpans fs) → Steps r defines (inferFields fs)
      ∧ ∀ {span : Span}, r.spans span → ∀ struct layout seen,
        Steps r defines (checkFields span struct layout seen fs)
  | [], _ => ⟨.pure (), fun _ _ _ seen => .pure seen⟩
  | .mk name value :: fs, h => by
    refine ⟨.bind (value.steps h.left) fun _ => (fieldsSteps fs h.right).1,
      fun hspan struct layout seen => ?_⟩
    have hrest (seen : List String) : Steps r defines (checkFields _ struct layout seen fs) :=
      (fieldsSteps fs h.right).2 hspan struct layout seen
    unfold checkFields
    split
    · exact .bind (.report hspan rfl) fun _ => .bind (value.steps h.left) fun _ => hrest _
    · split
      · exact .bind (.report hspan rfl) fun _ => .bind (value.steps h.left) fun _ => hrest _
      · exact .bind (value.steps h.left) fun _ =>
          .bind (.reportIf _ (Inside.expr h.left) rfl) fun _ =>
          hrest _

theorem Block.steps {defines : Bool} : ∀ b : Block, Inside r b.spans →
    Steps r defines (visitBlock b)
  | .mk _ statements, h => .scope (stmtsSteps statements h.tail)

theorem blockSteps? {defines : Bool} : ∀ b? : Option Block,
    Inside r (blockSpans? b?) → ∀ b ∈ b?, Steps r defines (visitBlock b)
  | none, _ => nofun
  | some b, h => fun _ hb => Option.some.inj hb ▸ b.steps h

theorem stmtsSteps : ∀ ss : List Stmt, Inside r (stmtsSpans ss) →
    Steps r true (visitAll ss)
  | [], _ => .pure ()
  | s :: ss, h => .bind (s.steps h.left).mayDefine fun _ => stmtsSteps ss h.right

theorem stmtSteps? : ∀ s? : Option Stmt, Inside r (stmtSpans? s?) →
    Steps r true (s?.forM (visit))
  | none, _ => .pure ()
  | some s, h => (s.steps h).mayDefine

theorem armsSteps {valueType : String} {defines : Bool} : ∀ arms : List MatchArm,
    Inside r (armsSpans arms) → Steps r defines (visitArms valueType arms)
  | [], _ => .pure _
  | .mk _ pattern isWildcard body :: arms, h => by
    have hrest : Steps r defines (do
        visitBlock body
        let others ← visitArms valueType arms
        return isWildcard || others) :=
      .bind (body.steps h.left.tail.right) fun _ => .bind (armsSteps arms h.right) fun _ => .pure _
    have hpattern := exprSteps? pattern h.left.tail.left
    unfold visitArms
    split
    · cases pattern with
      | none => exact .bind (.report (Inside.head h.left) rfl) fun _ => hrest
      | some pattern =>
        exact .bind (hpattern pattern rfl).2 fun _ =>
          .bind (.reportIf _ (Inside.head h.left) rfl) fun _ => hrest
    · exact hrest

theorem decoratorsSteps {defines : Bool} : ∀ ds : List Decorator,
    Inside r (decoratorsSpans ds) → Steps r defines (visitDecorators ds)
  | [], _ => .pure _
  | .mk _ name value :: ds, h => by
    have hmark := h.left.head
    have hrest (cores : Nat) : Steps r defines (do return cores + (← visitDecorators ds)) :=
      .bind (decoratorsSteps ds h.right) fun _ => .pure _
    unfold visitDecorators
    split
    · refine .bind (.constInt? value) fun n => ?_
      cases n with
      | none => exact .bind (.report hmark rfl) fun _ => .bind (.pure _) hrest
      | some n => exact .bind (.reportIf _ hmark rfl) fun _ => .bind (.pure _) hrest
    · split
      · exact .bind (value.steps h.left.tail) fun _ => .bind (.reportIf _ hmark rfl) fun _ =>
          .bind (.pure _) hrest
      · exact .bind (.report hmark rfl) fun _ => .bind (.pure _) hrest

theorem devicesSteps {defines : Bool} : ∀ ds : List Device,
    Inside r (devicesSpans ds) → Steps r defines (visitDevices ds)
  | [], _ => .pure ()
  | .mk _ _ address :: ds, h => .bind (address.steps h.left.tail) fun _ =>
    .bind (.reportIf _ (Inside.head h.left) rfl) fun _ => devicesSteps ds h.right

theorem Stmt.steps : ∀ s : Stmt, Inside r s.spans → Steps r s.defines (visit s)
  | .importDecl _ _, h => .enterFile h.file
  | .structDecl _ _ _, h => .enterFile h.file
  | .functionDecl _ _ params _ body, h => .bind (.enterFile h.file) fun _ =>
    .returning _ (.scope (c := params.forM defineParam >>= fun _ => visitBlock body)
      (.bind (.defineParams h.tail.left) fun _ => body.steps h.tail.right))
  | .taskDecl _ _ decorators body, h => by
    rw [visit_taskDecl]
    exact .bind (.enterFile h.file) fun _ =>
      .bind (decoratorsSteps decorators h.tail.left) fun _ =>
      .bind (.reportIf _ h.head rfl) fun _ => .optional (blockSteps? body h.tail.right)
  | .busDecl _ _ _ sda scl freq devices, h => .bind (.enterFile h.file) fun _ =>
    .bind (.reportIf _ h.head rfl) fun _ => .bind (.busPins h.head sda scl) fun _ =>
      .bind (freq.steps h.tail.right.right.left) fun _ => .bind (.reportIf _ h.head rfl) fun _ =>
        devicesSteps devices h.tail.right.right.right
  | .loopDecl _ body, h => .bind (.enterFile h.file) fun _ => body.steps h.tail
  | .varDecl _ _ _ initializer _ _ _, h => by
    rw [visit_varDecl]
    have hinit : Steps r true (inferInitializer initializer) := by
      have hvalue := exprSteps? initializer h.tail
      cases initializer with
      | none => exact .pure _
      | some value => exact (hvalue value rfl).2
    exact .bind (.enterFile h.file) fun _ => .bind hinit fun _ =>
      .bind (.variableType h.head _ _ _ _) fun _ => .defined _ h.head rfl
  | .block body, h => .bind (.enterFile (h _ body.span_mem_spans).2) fun _ => body.steps h
  | .ifElse _ condition thenBranch elseBranch, h => by
    rw [visit_ifElse]
    exact .bind (.enterFile h.file) fun _ =>
      .condition h.tail.left (condition.steps h.tail.left) _
        (.bind (thenBranch.steps h.tail.right.left) fun _ =>
          .optional (blockSteps? elseBranch h.tail.right.right))
  | .matchValue _ value arms, h => .bind (.enterFile h.file) fun _ =>
    .bind (value.steps h.tail.left) fun _ => .bind (armsSteps arms h.tail.right) fun _ =>
      .reportIf _ h.head rfl
  | .spawn _ _, h => .bind (.enterFile h.file) fun _ =>
    .ask (fun _ _ h => by rw [h.scopes.globals]) fun _ => .reportIf _ h.head rfl
  | .whileLoop _ condition body, h => .bind (.enterFile h.file) fun _ =>
    .condition h.tail.left (condition.steps h.tail.left) _ (body.steps h.tail.right)
  | .forLoop _ init condition update body, h => by
    rw [visit_forLoop]
    have hcondition := exprSteps? condition h.tail.right.left
    have hupdate := exprSteps? update h.tail.right.right.left
    exact .bind (.enterFile h.file) fun _ => .bind (stmtSteps? init h.tail.left) fun _ =>
      .bind (.optional fun e he => .bind (hcondition e he).2 fun _ =>
        .reportIf _ (hcondition e he).1.expr rfl) fun _ =>
      .bind (.optional fun e he => .bind (hupdate e he).2 fun _ => .pure ()) fun _ =>
        body.steps h.tail.right.right.right
  | .returnValue _ none, h => .bind (.enterFile h.file) fun _ => .bind (.pure "void") fun _ =>
    .returnedType h.head _
  | .returnValue _ (some value), h => .bind (.enterFile h.file) fun _ =>
    .bind (value.steps h.tail) fun _ => .returnedType h.head _
  | .expr _ expression, h => .bind (.enterFile h.file) fun _ =>
    .bind (expression.steps h.tail) fun _ => .pure _
  | .gpioMode _ pin _, h => .bind (.enterFile h.file) fun _ => .bind (pin.steps h.tail) fun _ =>
    .bind (.pin h.tail.expr _ _) fun _ => .pinMode h.head _ _
  | .digitalWrite _ pin value, h => .bind (.enterFile h.file) fun _ =>
    .bind (pin.steps h.tail.left) fun _ => .bind (.pin h.tail.left.expr _ _) fun _ =>
      .bind (.outputPin h.tail.left.expr _) fun _ =>
        .numeric h.tail.right (value.steps h.tail.right) _
  | .pwmWrite _ pin duty channel, h => by
    have hchannel := exprSteps? channel h.tail.right.right
    rw [visit_pwmWrite]
    exact .bind (.enterFile h.file) fun _ => .bind (pin.steps h.tail.left) fun _ =>
      .bind (.pin h.tail.left.expr _ _) fun _ => .bind (.pwmPin h.tail.left.expr) fun _ =>
        .bind (duty.steps h.tail.right.left) fun _ =>
          .bind (.reportIf _ h.tail.right.left.expr rfl) fun _ =>
            .optional fun e he => .numeric (hchannel e he).1 (hchannel e he).2 _
  | .rgbWrite _ pin red green blue, h => by
    have hgreen := h.tail.right.right
    exact .bind (.enterFile h.file) fun _ => .bind (pin.steps h.tail.left) fun _ =>
      .bind (.pin h.tail.left.expr _ _) fun _ => .bind (.outputPin h.tail.left.expr _) fun _ =>
        .bind (red.steps h.tail.right.left) fun _ =>
          .bind (.reportIf _ h.tail.right.left.expr rfl) fun _ =>
            .bind (green.steps hgreen.left) fun _ =>
              .bind (.reportIf _ hgreen.left.expr rfl) fun _ =>
              .numeric hgreen.right (blue.steps hgreen.right) _
  | .wifiConnect _ ssid password, h => .bind (.enterFile h.file) fun _ =>
    .bind (ssid.steps h.tail.left) fun _ => .bind (.reportIf _ h.tail.left.expr rfl) fun _ =>
      .bind (password.steps h.tail.right) fun _ => .reportIf _ h.tail.right.expr rfl
  | .delay _ time, h => .bind (.enterFile h.file) fun _ =>
    .bind (time.steps h.tail) fun _ => .reportIf _ h.tail.expr rfl
  | .raw _ _, h => .enterFile h.file

end

end Trees

end SketchCompiler
