/-
Declarations implement their grammar, and with them the rules tied
together: whatever rule is read with enough room for its words implements
its part of the grammar (`ImplementsAll`).

Between two tokens at most four rules nest, so with `n` levels of nesting
a declaration of fewer than `n / 4` words is read, and the rules that it
nests a few words earlier (`implements_at`).
-/
import SketchCompiler.Proofs.BusRules
import SketchCompiler.Proofs.Image

namespace SketchCompiler

open Grammar

variable {d k : Nat} {declaration declaration' : Parser Item} {statement statement' : Parser Stmt}
  {block block' : Parser Block} {expression expression' : Parser Expr} {S : Kind → Prop}

-- ==== imports and functions

theorem importDecl_implements :
    ImplementsForm d k .kwImport (fun _ => importDecl) (fun _ => importDecl) .importStmt S := by
  refine .rule (.next_kind rfl fun _ => ?_)
  refine .expect rfl fun path _ => .expect rfl fun stop _ => ?_
  refine .spanOf fun s => .spanOf fun s' => .pure ?_ trivial
  simp only [Stmt.down, Span.upTo_down, Token.lexeme_down]

theorem param_implements :
    Implements d k anyWord param param (.rule .param) (fun _ => True) (Param.down d)
      anyValue := by
  refine .rule (.expect rfl fun name _ => ?_)
  refine .expect rfl fun _ _ => ?_
  refine (typeName_implements (S := fun _ => True)).bind .always fun typeName => ?_
  exact .spanOf fun s => .spanOf fun s' => .pure rfl trivial

theorem params_implements :
    Implements d k anyWord (Parser.separatedUntil .rparen param)
      (Parser.separatedUntil .rparen param) (.opt (.rule .paramList)) (· = .rparen)
      (List.map (Param.down d)) anyValue := by
  have hlist : Implements d k anyWord (Parser.separated param) (Parser.separated param)
      (.rule .paramList) (fun kd => True ∧ kd ≠ .comma) (List.map (Param.down d)) anyValue :=
    .rule (param_implements.separated trivial)
  exact hlist.separatedUntil rfl (by decide) (by decide)

theorem functionDecl_implements (hb : ImplementsBlock d k block block') :
    ImplementsForm d k .kwFn (fun _ => functionDecl block) (fun _ => functionDecl block')
      .functionDecl S := by
  refine .rule (.next_kind rfl fun _ => ?_)
  refine .expect rfl fun name _ => .expect rfl fun _ _ => ?_
  refine params_implements.bind (.kind rfl) fun params => ?_
  refine .expect rfl fun _ _ => .expect rfl fun _ _ => ?_
  refine (typeName_implements (S := fun _ => True)).bind .always fun returnType => ?_
  refine hb.bind .always fun body => .spanOf fun s => .pure ?_ trivial
  simp only [Stmt.down, Block.span_down, Span.upTo_down, Token.lexeme_down]

theorem loopDecl_implements (hb : ImplementsBlock d k block block') :
    ImplementsForm d k .kwLoop (loopDecl block) (loopDecl block') .loopDecl S := by
  refine .rule (.next_kind rfl fun start => ?_)
  refine hb.bind .always fun body => .spanOf fun s => .pure ?_ trivial
  simp only [Stmt.down, Block.span_down, Span.upTo_down]

-- ==== structs

theorem structField_implements :
    Implements d k anyWord structField structField (.rule .structField) (fun _ => True)
      (StructField.down d) anyValue := by
  refine .rule (.accept (by decide) (.kind (by decide)) fun _ => ?_)
  refine .expect rfl fun name _ => .expect rfl fun _ _ => ?_
  refine (typeName_implements (S := fun _ => True)).bind .always fun typeName => ?_
  refine .expect rfl fun stop _ => ?_
  exact .spanOf fun s => .spanOf fun s' => .pure rfl trivial

theorem structDecl_implements :
    ImplementsForm d k .kwStruct (fun _ => structDecl) (fun _ => structDecl) .structDecl S := by
  have hfields : Implements d k anyWord (Parser.itemsUntil .rbrace structField)
      (Parser.itemsUntil .rbrace structField) (.many (.rule .structField)) (· = .rbrace)
      (List.map (StructField.down d)) anyValue :=
    structField_implements.itemsUntil rfl (by decide) (by decide) (fun _ _ => trivial) trivial
  refine .rule (.next_kind rfl fun _ => ?_)
  refine .expect rfl fun name _ => .expect rfl fun _ _ => ?_
  refine hfields.bind (.kind rfl) fun fields => .expect rfl fun right _ => ?_
  refine .spanOf fun s => .spanOf fun s' => .pure ?_ trivial
  simp only [Stmt.down, Span.upTo_down, Token.lexeme_down]

-- ==== tasks

/-- A decorator behind its sign. -/
def decoratorTail (expression : Parser Expr) (start : Token) : Parser Decorator := do
  let name ← Parser.expect .ident "decorator name after '@'"
  let _ ← Parser.expect .lparen "'(' after decorator name"
  let value ← expression
  let right ← Parser.expect .rparen "')' after decorator value"
  return .mk (← Parser.between start right) name.lexeme value

theorem decoratorStep_bind {items : List Decorator} :
    decoratorStep expression items = Parser.accept .atSign >>= fun start? =>
      match start? with
      | none => pure (.done items.reverse)
      | some start => decoratorTail expression start >>= fun x => pure (.again (x :: items)) := by
  unfold decoratorTail
  simp only [Parser.bind_assoc]
  rfl

section Tasks

variable (he : ImplementsExpr d k expression expression')
include he

theorem decoratorTail_implements :
    Implements d k anyWord (decoratorTail expression start)
      (decoratorTail expression' (start.down d))
      (.all [.kind .ident, .kind .lparen, .rule .expression, .kind .rparen]) S
      (Decorator.down d) anyValue := by
  refine .expect rfl fun name _ => .expect rfl fun _ _ => ?_
  refine he.bind (.kind (by decide)) fun value => .expect rfl fun right _ => ?_
  refine .between fun s => .pure ?_ trivial
  simp only [Decorator.down, Token.lexeme_down]

theorem decorators_implements :
    Implements d k anyWord (decorators expression) (decorators expression')
      (.many (.rule .taskDecorator)) (· ≠ .atSign) (List.map (Decorator.down d)) anyValue := by
  suffices h : Implements d k anyWord (decorators expression) (decorators expression')
      (.seq (.many (.rule .taskDecorator)) .empty) (· ≠ .atSign) (List.map (Decorator.down d))
      anyValue from
    h.congr fun _ => Derives.seq_empty_iff
  refine .loop (μ := List.map (Decorator.down d)) rfl .always (fun items => ?_)
    (fun items ws hws hfair => ?_) (fun items ws hws _ => ?_) []
  · rw [decoratorStep_bind]
    refine .accept (by decide) (fun start hstart => ?_) (.pure fun _ => .empty)
    refine (decoratorTail_implements (S := fun _ => True) he).sound.bind fun x => ?_
    refine .pure fun u hu => .rule ?_
    rw [List.append_nil]
    exact .seq (u := [start.word]) (Derives.kind_iff.mpr ⟨_, rfl, hstart⟩) (hu trivial)
  · obtain ⟨w, v, rfl, hw, hv⟩ := Derives.seq_tok_iff.mp (Derives.rule_iff.mp hws)
    rw [decoratorStep_bind, decoratorStep_bind]
    refine .acceptAny_some (by rw [hw.1]; decide) (List.mem_singleton.mpr hw.1) ?_
    intro start _
    have hround : Implements d k anyWord
        (decoratorTail expression start >>= fun x =>
          pure (Parser.Round.again (β := List Decorator) (x :: items)))
        (decoratorTail expression' (start.down d) >>= fun x =>
          pure (Parser.Round.again (x :: items.map (Decorator.down d))))
        (.all [.kind .ident, .kind .lparen, .rule .expression, .kind .rparen])
        (fun _ => True)
        (ReadsTwice.moveRound (List.map (Decorator.down d)) (List.map (Decorator.down d)))
        fun r => ∃ items', r = .again items' :=
      (decoratorTail_implements he).bind_pure (fun _ => rfl) fun _ => ⟨_, rfl⟩
    exact hround.reads v hv (Fair.right (u := [w]) hfair)
  · rw [hws.eq_nil, decoratorStep_bind, decoratorStep_bind]
    refine .acceptAny_none (fun _ hkd hmem => hkd (List.mem_singleton.mp hmem)) ?_
    refine .pure ?_ ⟨_, rfl, trivial⟩
    simp only [ReadsTwice.moveRound, List.map_reverse]

end Tasks

theorem taskTail_implements (hb : ImplementsBlock d k block block') :
    Implements d k anyWord (taskDecl block marks)
      (taskDecl block' (marks.map (Decorator.down d)))
      (.all [.kind .ident, .kind .lparen, .kind .rparen, .rule .block]) S (Stmt.down d)
      anyValue := by
  refine .expect rfl fun name _ => .expect rfl fun _ _ => ?_
  refine .expect rfl fun _ _ => ?_
  refine hb.bind .always fun body => .spanOf fun s => .pure ?_ trivial
  simp only [Stmt.down, Block.span_down, Span.upTo_down, Token.lexeme_down, decoratorsDown_eq,
    blockDown?]

theorem taskDecl_implements (hb : ImplementsBlock d k block block') :
    ImplementsForm d k .kwTask (fun _ => taskDecl block []) (fun _ => taskDecl block' [])
      .taskDecl S := by
  refine .rule (.many_absent (fun w hw => ?_) rfl ?_)
  · rw [hw]
    decide
  · exact .next_kind rfl fun _ => taskTail_implements hb

theorem decoratedTask_implements (he : ImplementsExpr d k expression expression')
    (hb : ImplementsBlock d k block block') :
    Implements d k (fun w => w.kind = .atSign)
      (decorators expression >>= fun marks =>
        Parser.expect .kwTask "'task' after decorators" >>= fun _ => taskDecl block marks)
      (decorators expression' >>= fun marks =>
        Parser.expect .kwTask "'task' after decorators" >>= fun _ => taskDecl block' marks)
      (.rule .taskDecl) S (Stmt.down d) anyValue := by
  refine .rule ((decorators_implements he).anywhere.bind (.kind (by decide)) ?_)
  exact fun marks => .expect rfl fun _ _ => taskTail_implements hb

-- ==== the decision

/-- A declaration of a variable, or else a statement. -/
def variableOr (expression : Parser Expr) (statement : Parser Stmt) : Parser Stmt := do
  match ← qualifiedDecl? expression true with
  | some decl => return decl
  | none => statement

theorem declarationBody_implements (hk : k ≤ k' + 1)
    (hd : ImplementsItem d k' declaration declaration')
    (hs : ImplementsStmt d k statement statement')
    (he : ImplementsExpr d k expression expression') :
    Implements d k anyWord (declarationBody declaration statement expression)
      (declarationBody declaration' statement' expression') (.rule .topDecl) (· ≠ .kwElse)
      (Stmt.down d) anyValue := by
  have hb : ImplementsBlock d k (Grammar.block declaration) (Grammar.block declaration') :=
    (block_implements hd).le hk
  have hdecl : ∀ isConst isVolatile : Bool, Implements d k anyWord
      (variableDecl expression true isConst isVolatile)
      (variableDecl expression' true isConst isVolatile)
      (.all (Rule.variableParts ++ [.kind .semicolon])) (· ≠ .kwElse) (Stmt.down d) anyValue :=
    fun _ _ => variableDecl_implements he
  have hvariable : ∀ {kd : Kind}, kd ∈ variableKinds →
      Implements d k (fun w => w.kind = kd) (variableOr expression statement)
        (variableOr expression' statement') (.rule .varDecl) (· ≠ .kwElse) (Stmt.down d)
        anyValue := by
    intro kd hkd
    have h : Implements d k (fun w => w.kind ∈ variableKinds) (variableOr expression statement)
        (variableOr expression' statement') (.rule .varDecl) (· ≠ .kwElse)
          (Stmt.down d) anyValue :=
      .rule (qualifiedDecl_bind hdecl (fun _ => .pure rfl trivial)
        (hs.sound.imp fun _ _ _ => trivial))
    exact h.mono (Nat.le_refl k) (fun w hw => hw ▸ hkd) fun _ h => h
  have hstatement : ∀ {kd : Kind}, kd ∉ topLevelKinds ++ variableKinds →
      Implements d k (fun w => anyWord w ∧ w.kind = kd) (variableOr expression statement)
        (variableOr expression' statement') (Rule.accepted .topDecl) (· ≠ .kwElse) (Stmt.down d)
        anyValue := by
    intro kd hkd
    have hother : ∀ {e : Parser Expr} {c : Cursor}, anyWord c.peek.word ∧ c.kind = kd →
        qualifiedDecl? e true c = .ok none c := by
      intro e c hc
      refine qualifiedDecl_other ?_
      rw [hc.2]
      exact fun h => hkd (List.mem_append_right _ h)
    refine .prune_kinds (topLevelKinds ++ variableKinds) rfl (fun w hw => hw.2 ▸ hkd) ?_
    exact .skip rfl (fun c hc => hother hc) (fun c hc => hother hc) hs.anywhere
  refine .rule (.kind rfl fun kd => ?_)
  cases kd
  case kwImport => exact .by_keyword rfl importDecl_implements
  case atSign => exact .by_keyword rfl (decoratedTask_implements he hb)
  case kwFn => exact .by_keyword rfl (functionDecl_implements hb)
  case kwTask => exact .by_keyword rfl (taskDecl_implements hb)
  case kwStruct => exact .by_keyword rfl structDecl_implements
  case kwBus => exact .by_keyword rfl (busDecl_implements he)
  case kwLoop => exact .by_keyword rfl (loopDecl_implements hb)
  case kwLet => exact .by_keyword rfl (hvariable (by decide))
  case kwConst => exact .by_keyword rfl (hvariable (by decide))
  case kwVolatile => exact .by_keyword rfl (hvariable (by decide))
  all_goals exact hstatement (by decide)

theorem declaration_implements
    (h : Implements d k anyWord body body' (.rule .topDecl) (· ≠ .kwElse) (Stmt.down d) anyValue) :
    ImplementsItem d k (Grammar.declaration body) (Grammar.declaration body') where
  sound := by
    intro c hc
    have hrun := h.sound c hc
    unfold Grammar.declaration
    cases hr : body c with
    | ok s c' =>
      rw [hr] at hrun
      intro herr
      exact hrun herr
    | failed c' =>
      rw [hr] at hrun
      intro herr
      rw [recover_errors] at herr
      exact absurd herr hrun
    | abort e => trivial
    | exhausted => trivial
  reads := by
    intro ws hws hfair c c' ts rest rest' hfile hleft hright hts hS hS'
    obtain ⟨s, hp, hq, -⟩ := h.reads ws hws hfair c c' ts rest rest' hfile hleft hright hts hS hS'
    unfold Grammar.declaration
    exact ⟨some s, by rw [hp], by rw [hq]; rfl, trivial⟩

-- ==== the knot

/-- Parsers of expressions, which implement a rule by all their values,
what is assigned to by the targets among them, and the names of structs
by the names. -/
structure ReadsExprs (d k : Nat) (p q : Parser Expr) (r : Rule) (S : Kind → Prop) : Prop where
  all : Implements d k anyWord p q (.rule r) S (Expr.down d) anyValue
  target : Implements d k anyWord p q (.rule .assignable) S (Expr.down d) (isTarget · = true)
  name : Implements d k anyWord p q (.rule .structName) S (Expr.down d) Expr.IsIdent

theorem ReadsExprs.le (h : ReadsExprs d k p q r S) (hk : k' ≤ k) : ReadsExprs d k' p q r S :=
  ⟨h.all.le hk, h.target.le hk, h.name.le hk⟩

theorem ReadsExprs.quiet (h : ReadsExprs d k p q r S) : Spells anyWord p fun _ _ => True :=
  h.all.sound.imp fun _ _ _ => trivial

/-- Operands, from what they nest. -/
theorem operand_step (he : ReadsExprs d k expression expression' .expression ExprEnd)
    (hu : ReadsExprs d k operand operand' .unary (· ∉ postfixKinds))
    (hs : ImplementsStmt d k statement statement')
    (hd : ImplementsItem d k declaration declaration') :
    ReadsExprs d (k + 1)
      (unary operand (postfixed (calls expression
        (primary expression (conditional declaration statement expression)))))
      (unary operand' (postfixed (calls expression'
        (primary expression' (conditional declaration' statement' expression')))))
      .unary (· ∉ postfixKinds) := by
  have hvalue := conditional_value hd hs he.all
  have hprimary := primary_implements he.all (conditional_implements hd hs he.all)
  have htarget : Implements d (k + 1) anyWord
      (primary expression (conditional declaration statement expression))
      (primary expression' (conditional declaration' statement' expression'))
      (.any [.kind .ident, .all [.kind .lparen, .rule .assignable, .kind .rparen]])
      (fun _ => True) (Expr.down d) (isTarget · = true) :=
    primary_atoms atoms_isTarget (fun _ _ => rfl) he.quiet he.target hvalue
  have hname : Implements d (k + 1) anyWord
      (primary expression (conditional declaration statement expression))
      (primary expression' (conditional declaration' statement' expression'))
      (.rule .structName) (fun _ => True) (Expr.down d) Expr.IsIdent :=
    .rule (primary_atoms atoms_isIdent (fun s name => ⟨s, name, rfl⟩) he.quiet he.name hvalue)
  exact {
    all := unary_implements hu.all
      (postfixed_implements (calls_implements he.all hprimary htarget hname))
    target := unary_atoms atoms_isTarget rfl (by decide) hu.quiet
      (postfixed_atoms atoms_isTarget (calls_targets he.all hprimary htarget hname))
    name := unary_atoms atoms_isIdent rfl (by decide) hu.quiet
      (postfixed_atoms atoms_isIdent (calls_names he.all hname)) }

theorem expression_step (hk : k ≤ k' + 1)
    (hu : ReadsExprs d k operand operand' .unary (· ∉ postfixKinds))
    (he : ReadsExprs d k' expression expression' .expression ExprEnd) :
    ReadsExprs d k (assignment operand expression) (assignment operand' expression') .expression
      ExprEnd where
  all := assignment_implements hk hu.all hu.target he.all
  target := assignment_atoms atoms_isTarget hu.all hu.target he.quiet
  name := assignment_atoms atoms_isIdent hu.all hu.name he.quiet

/-- The four rules implement their grammar with some levels of nesting,
and others in the second reading. -/
structure ImplementsAll (d n m : Nat) : Prop where
  expression : ReadsExprs d ((n + 2) / 4) (expressionAt n) (expressionAt m) .expression ExprEnd
  operand : ReadsExprs d ((n + 3) / 4) (unaryAt n) (unaryAt m) .unary (· ∉ postfixKinds)
  statement : ImplementsStmt d ((n + 1) / 4) (statementAt n) (statementAt m)
  declaration : ImplementsItem d (n / 4) (declarationAt n) (declarationAt m)

theorem exhausted_implements : Implements d 0 anyWord (fun _ => .exhausted) q G S μ P where
  sound := fun _ _ => trivial
  reads := fun _ _ hfair => absurd hfair.short (Nat.not_lt_zero _)

theorem implements_at (d : Nat) (hnm : n ≤ m) : ImplementsAll d n m := by
  induction n generalizing m with
  | zero =>
    exact {
      expression := ⟨exhausted_implements, exhausted_implements, exhausted_implements⟩
      operand := ⟨exhausted_implements, exhausted_implements, exhausted_implements⟩
      statement := exhausted_implements
      declaration := exhausted_implements }
  | succ n ih =>
    obtain ⟨m, rfl⟩ : ∃ m', m = m' + 1 := ⟨m - 1, by omega⟩
    have hall := ih (Nat.le_of_succ_le_succ hnm)
    have he : ReadsExprs d (n / 4) (expressionAt n) (expressionAt m) .expression ExprEnd :=
      hall.expression.le (by omega)
    have hu : ReadsExprs d (n / 4) (unaryAt n) (unaryAt m) .unary (· ∉ postfixKinds) :=
      hall.operand.le (by omega)
    have hs : ImplementsStmt d (n / 4) (statementAt n) (statementAt m) :=
      hall.statement.le (by omega)
    exact {
      expression := expression_step (by omega) hall.operand hall.expression
      operand := (operand_step he hu hs hall.declaration).le (by omega)
      statement := statement_implements (by omega) hall.declaration hall.expression.all
      declaration := declaration_implements (declarationBody_implements (by omega)
        hall.declaration hall.statement (hall.expression.all.le (by omega))) }

end SketchCompiler
