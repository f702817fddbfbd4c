/-
Statements implement their grammar.  Each is read behind its keyword, and
the keyword decides which (`statement_implements`); a statement with no
keyword is an expression.

# An `if` without `else`

What stands behind an `if` may be its `else`, so a statement ends only in
front of another word; the other statements end anywhere.

# Clauses of a header

The first clause of a `for` header may be missing, a declaration or an
expression, and the word it starts with tells which (`forInit_implements`).
-/
import SketchCompiler.Proofs.BlockRules

namespace SketchCompiler

open Grammar

variable {d k : Nat} {declaration declaration' : Parser Item} {block block' : Parser Block}
  {expression expression' : Parser Expr} {S : Kind → Prop}

-- ==== conditions and blocks

theorem parenthesized_implements {β : Type} {word : String} {f g : Expr → Parser β}
    {G : Ebnf Rule} {ν : β → β} {R : β → Prop}
    (he : ImplementsExpr d k expression expression')
    (hf : ∀ e, Implements d k anyWord (f e) (g (e.down d)) G S ν R) :
    Implements d k anyWord (parenthesized expression word >>= f)
      (parenthesized expression' word >>= g)
      (.seq (.kind .lparen) (.seq (.rule .expression) (.seq (.kind .rparen) G))) S ν R := by
  have hbind : ∀ (e : Parser Expr) (h : Expr → Parser β), (parenthesized e word >>= h)
      = Parser.expect .lparen ("'(' after " ++ word) >>= fun _ => e >>= fun condition =>
        Parser.expect .rparen "')' after condition" >>= fun _ => h condition := by
    intro e h
    unfold parenthesized
    simp only [Parser.bind_assoc]
    rfl
  rw [hbind, hbind]
  refine .expect rfl fun _ _ => ?_
  refine he.bind (.kind (by decide)) fun condition => ?_
  exact .expect rfl fun _ _ => hf condition

section Control

variable (he : ImplementsExpr d k expression expression')
  (hb : ImplementsBlock d k block block')
include he hb

theorem ifStmt_implements :
    ImplementsForm d k .kwIf (fun _ => ifStmt expression block)
      (fun _ => ifStmt expression' block')
      .ifStmt (· ≠ .kwElse) := by
  refine .rule (.next_kind rfl fun _ => ?_)
  refine parenthesized_implements he fun condition => ?_
  refine hb.bind .always fun thenBranch => ?_
  refine (hb.seq_empty.behind (by decide)).bind (.empty fun _ h => ⟨trivial, h⟩) ?_
  refine fun elseBranch => .pure ?_ trivial
  simp only [Option.getD_map, Stmt.down, Expr.span_down, Block.span_down, Span.upTo_down,
    blockDown?_eq]

theorem whileStmt_implements :
    ImplementsForm d k .kwWhile (fun _ => whileStmt expression block)
      (fun _ => whileStmt expression' block') .whileStmt S := by
  refine .rule (.next_kind rfl fun _ => ?_)
  refine parenthesized_implements he fun condition => ?_
  refine hb.bind .always fun body => .pure ?_ trivial
  simp only [Stmt.down, Expr.span_down, Block.span_down, Span.upTo_down]

end Control

-- ==== `for` loops

theorem qualifiedDecl_other (hc : c.kind ∉ variableKinds) :
    qualifiedDecl? expression semi c = .ok none c := by
  have hno : ∀ kd ∈ variableKinds, Parser.accepts kd c = .ok false c :=
    fun kd hkd => Parser.accepts_run_other fun h => hc (h ▸ hkd)
  have hconst := hno .kwConst (by decide)
  have hvolatile := hno .kwVolatile (by decide)
  exact (Parser.bind_run hconst).trans
    ((Parser.bind_run hvolatile).trans (Parser.bind_run (hno .kwLet (by decide))))

section For

variable (he : ImplementsExpr d k expression expression')
include he

theorem forExpression_implements :
    Implements d k anyWord
      (Parser.kind >>= fun kd => if kd = .semicolon then pure none
        else expression >>= fun init => pure (some (.expr init.span init)))
      (Parser.kind >>= fun kd => if kd = .semicolon then pure none
        else expression' >>= fun init => pure (some (.expr init.span init)))
      (.opt (.rule .expression)) (· = .semicolon) (Option.map (Stmt.down d)) anyValue := by
  refine .unless_kind (S := ExprEnd) rfl (by decide) (by decide) rfl ?_
  refine he.bind_pure (fun init => ?_) fun _ => trivial
  simp only [Option.map, Stmt.down, Expr.span_down]

theorem forInit_implements :
    Implements d k anyWord (forInit expression) (forInit expression') (.opt (.rule .forInit))
      (· = .semicolon) (Option.map (Stmt.down d)) anyValue := by
  have hdecl : ∀ isConst isVolatile : Bool, Implements d k anyWord
      (variableDecl expression false isConst isVolatile)
      (variableDecl expression' false isConst isVolatile) (.all (Rule.variableParts ++ []))
      (· = .semicolon) (Stmt.down d) anyValue :=
    fun _ _ => variableClause_implements he
  have hexpr := forExpression_implements he
  have hvariable : Implements d k (fun w => w.kind ∈ variableKinds) (forInit expression)
      (forInit expression') (.rule .varDeclNoSemi) (· = .semicolon) (Option.map (Stmt.down d))
      anyValue :=
    .rule (qualifiedDecl_bind hdecl (fun _ => .pure rfl trivial)
      (hexpr.sound.imp fun _ _ _ => trivial))
  have hother : ∀ {e : Parser Expr} {c : Cursor}, c.kind ∉ variableKinds →
      forInit e c = (Parser.kind >>= fun kd => if kd = .semicolon then pure none
        else e >>= fun init => pure (some (.expr init.span init))) c :=
    fun hc => Parser.bind_run (qualifiedDecl_other hc)
  refine ⟨fun c _ => ?_, fun ws hws hfair => ?_⟩
  · by_cases hc : c.kind ∈ variableKinds
    · exact (hvariable.sound c hc).mono fun _ _ hD ha => .some (.rule (.left (hD ha)))
    · rw [hother hc]
      refine (hexpr.sound c trivial).mono fun _ _ hD ha => ?_
      cases hD ha with
      | none => exact .none
      | some h => exact .some (.rule (.right h))
  · have hcases : Derived (.rule .varDeclNoSemi) ws ∨ Derived (.opt (.rule .expression)) ws := by
      cases hws with
      | none => exact .inr .none
      | some hws =>
        rcases Derives.alt_iff.mp (Derives.rule_iff.mp hws) with h | h
        · exact .inl h
        · exact .inr (.some h)
    rcases hcases with h | h
    · refine hvariable.reads ws h (hfair.guarded fun w hw => ?_)
      obtain ⟨w', v, rfl, hw'⟩ := h.exists_cons rfl
      cases hw
      exact hw'
    · -- no expression starts as a declaration does, and neither does what follows
      have hstop : Stops (.opt (.rule .expression)) (· = .semicolon) (· ∉ variableKinds) := by
        refine ⟨by decide, fun _ kd hkd => ?_⟩
        rw [hkd]
        decide
      have hout : ∀ c : Cursor, (∃ kd, kd = .semicolon ∧ c.kind = nextKind ws kd) →
          c.kind ∉ variableKinds := by
        intro c ⟨kd, hkd, hc⟩
        rw [hc]
        exact hstop.nextKind h hkd
      exact (hexpr.reads ws h hfair).congr (fun c hc => hother (hout c hc)) fun c hc =>
        hother (hout c hc)

theorem forStmt_implements (hb : ImplementsBlock d k block block') :
    ImplementsForm d k .kwFor (fun _ => forStmt expression block)
      (fun _ => forStmt expression' block') .forStmt S := by
  have hclause : ∀ {kd : Kind}, kd ∉ Rule.expressionStarts → ExprEnd kd →
      Implements d k anyWord (Parser.unlessNext kd expression) (Parser.unlessNext kd expression')
        (.opt (.rule .expression)) (· = kd) (Option.map (Expr.down d)) anyValue :=
    fun hkd hend => he.unlessNext rfl hkd hend
  refine .rule (.next_kind rfl fun _ => ?_)
  refine .expect rfl fun _ _ => ?_
  refine (forInit_implements he).bind (.kind rfl) fun init => ?_
  refine .expect rfl fun _ _ => ?_
  refine (hclause (by decide) (by decide)).bind (.kind rfl) fun condition => ?_
  refine .expect rfl fun _ _ => ?_
  refine (hclause (by decide) (by decide)).bind (.kind rfl) fun update => ?_
  refine .expect rfl fun _ _ => ?_
  refine hb.bind .always fun body => .pure ?_ trivial
  cases condition <;>
    simp only [Option.map, Stmt.down, Expr.span_down, Block.span_down, Span.upTo_down,
      stmtDown?_eq, exprDown?_eq]

end For

-- ==== statements in one line

theorem spawnStmt_implements : ImplementsForm d k .kwSpawn spawnStmt spawnStmt .spawnStmt S := by
  refine .rule (.next_kind rfl fun start => ?_)
  refine .expect rfl fun name _ => ?_
  refine .expect rfl fun _ _ => .expect rfl fun _ _ => ?_
  refine .expect rfl fun stop _ => ?_
  refine .between fun s => .pure ?_ trivial
  simp only [Stmt.down, Token.lexeme_down]

theorem rawStmt_implements : ImplementsForm d k .kwUnsafe rawStmt rawStmt .unsafeStmt S := by
  have hraw : Implements d k anyWord
      (Parser.expect .rawBlock "'\x7b...\x7d' raw block after unsafe")
      (Parser.expect .rawBlock "'\x7b...\x7d' raw block after unsafe") (.rule .rawBlock)
      (fun _ => True) (Token.down d) anyValue :=
    .rule (.expect_only (by decide))
  refine .rule (.next_kind rfl fun start => ?_)
  refine hraw.bind .always fun payload => ?_
  refine .file fun file => .pure ?_ trivial
  simp only [Stmt.down, Token.lexeme_down]
  rfl

section Simple

variable (he : ImplementsExpr d k expression expression')
include he

theorem returnStmt_implements :
    ImplementsForm d k .kwReturn (returnStmt expression) (returnStmt expression')
      .returnStmt S := by
  refine .rule (.next_kind rfl fun start => ?_)
  refine .kind rfl fun kd => ?_
  by_cases hkd : kd = .semicolon
  · rw [if_pos hkd, if_pos hkd]
    refine .opt_absent (fun w hw => ?_) rfl ?_
    · rw [hw.2, hkd]
      decide
    refine .expect rfl fun stop _ => ?_
    refine .between fun s => .pure ?_ trivial
    simp only [Stmt.down, exprDown?]
  · rw [if_neg hkd, if_neg hkd]
    refine .opt_present (fun w hw hmem => ?_) rfl ?_
    · rw [hw.2] at hmem
      exact hkd (List.mem_singleton.mp hmem)
    refine he.anywhere.bind (.kind (by decide)) fun value => ?_
    refine .expect rfl fun stop _ => ?_
    refine .spanOf fun s => .pure ?_ trivial
    simp only [Stmt.down, Expr.span_down, Span.upTo_down, exprDown?]

theorem exprStmt_implements :
    Implements d k (fun w => w.kind ≠ .kwIf) (exprStmt expression) (exprStmt expression')
      (.rule .exprStmt) S (Stmt.down d) anyValue := by
  have hexpr : Implements d k (fun w => w.kind ≠ .kwIf) expression expression'
      (.except { kind := .kwIf } (.rule .expression)) ExprEnd (Expr.down d) anyValue :=
    he.anywhere.except (fun w hw hfits => hw hfits.1) rfl
  refine .rule (hexpr.bind (.kind (by decide)) fun value => ?_)
  refine .expect rfl fun stop _ => ?_
  refine .spanOf fun s => .pure ?_ trivial
  simp only [Stmt.down, Expr.span_down, Span.upTo_down]

end Simple

-- ==== matches

section Matches

variable (he : ImplementsExpr d k expression expression')
  (hb : ImplementsBlock d k block block')
include he hb

theorem matchArm_implements :
    Implements d k anyWord (matchArm expression block) (matchArm expression' block')
      (.rule .matchArm) (fun _ => True) (MatchArm.down d) anyValue := by
  refine .rule (.get rfl fun c c' _ hc' => ?_)
  have hkind : c'.kind = c.kind := congrArg Word.kind hc'
  have hlexeme : c'.peek.lexeme = c.peek.lexeme := congrArg Word.lexeme hc'
  have hfits : Rule.wildcard.Fits c.peek.word ↔ c.kind = .ident ∧ c.peek.lexeme = "_" := by
    refine and_congr_right fun _ => ⟨fun h => of_decide_eq_true (h _ rfl), fun h spells hs => ?_⟩
    cases hs
    exact decide_eq_true h
  rw [hkind, hlexeme]
  by_cases hwild : c.kind = .ident ∧ c.peek.lexeme = "_"
  · rw [if_pos hwild, if_pos hwild]
    refine .seq_left (fun u hu hfair => ?_) ?_
    · cases hu with
      | except hu hnot =>
        obtain ⟨w, v, rfl, -⟩ := hu.exists_cons rfl
        have hw : w = c.peek.word := hfair.guard w rfl
        exact hnot w rfl (hw ▸ hfits.mpr hwild)
    refine (Implements.next (by decide) (fun w hw => hw ▸ hfits.mpr hwild) fun t _ => ?_).le
      (Nat.le_succ k)
    refine Implements.expect rfl fun _ _ => ?_
    refine hb.bind .always fun body => ?_
    refine .spanOf fun s => .pure ?_ trivial
    simp only [MatchArm.down, Block.span_down, Span.upTo_down, exprDown?]
  · rw [if_neg hwild, if_neg hwild]
    have hnot : ¬ Rule.wildcard.Fits c.peek.word := fun h => hwild (hfits.mp h)
    refine .seq_right (fun u hu hfair => ?_) ?_
    · obtain ⟨w, rfl, hw⟩ := Derives.tok_iff.mp hu
      have hword : w = c.peek.word := hfair.guard w rfl
      exact hnot (hword ▸ hw)
    refine (he.anywhere.except (fun w hw => hw ▸ hnot) rfl).bind (.kind (by decide)) ?_
    refine fun pattern => .expect rfl fun _ _ => ?_
    refine hb.bind .always fun body => .pure ?_ trivial
    simp only [MatchArm.down, Expr.span_down, Block.span_down, Span.upTo_down, exprDown?]

theorem matchStmt_implements :
    ImplementsForm d k .kwMatch (matchStmt expression block) (matchStmt expression' block')
      .matchStmt S := by
  have harms : Implements d k anyWord (Parser.itemsUntil .rbrace (matchArm expression block))
      (Parser.itemsUntil .rbrace (matchArm expression' block')) (.many (.rule .matchArm))
      (· = .rbrace) (List.map (MatchArm.down d)) anyValue :=
    (matchArm_implements he hb).itemsUntil rfl (by decide) (by decide) (fun _ _ => trivial) trivial
  refine .rule (.next_kind rfl fun start => ?_)
  refine .expect rfl fun _ _ => ?_
  refine he.bind (.kind (by decide)) fun value => ?_
  refine .expect rfl fun _ _ => .expect rfl fun _ _ => ?_
  refine harms.bind (.kind rfl) fun arms => ?_
  refine .expect rfl fun right _ => ?_
  refine .between fun s => .pure ?_ trivial
  simp only [Stmt.down, armsDown_eq]

end Matches

-- ==== hardware

theorem callEnd_implements {arguments what : String} {f g : Token → Parser Stmt}
    (hf : ∀ t : Token,
      Implements d k anyWord (f t) (g (t.down d)) .empty S (Stmt.down d) anyValue) :
    Implements d k anyWord (callEnd arguments what >>= f) (callEnd arguments what >>= g)
      (.all [.kind .rparen, .kind .semicolon]) S (Stmt.down d) anyValue := by
  have hbind : ∀ h : Token → Parser Stmt, (callEnd arguments what >>= h)
      = Parser.expect .rparen ("')' after " ++ arguments) >>= fun _ =>
        Parser.expect .semicolon ("';' after " ++ what) >>= h :=
    fun h => Parser.bind_assoc _ _ _
  rw [hbind, hbind]
  refine .expect rfl fun _ _ => ?_
  exact .expect rfl fun t _ => hf t

section Hardware

variable (he : ImplementsExpr d k expression expression')
include he

theorem gpioModeStmt_implements :
    ImplementsForm d k .kwGpioMode (gpioModeStmt expression) (gpioModeStmt expression')
      .gpioModeStmt S := by
  refine .rule (.next_kind rfl fun start => ?_)
  refine .expect rfl fun _ _ => ?_
  refine he.bind (.kind (by decide)) fun pin => .expect rfl fun _ _ => ?_
  refine .expectAny (List.cons_ne_nil _ _) (by decide) fun mode _ => ?_
  refine callEnd_implements fun stop => .between fun s => .pure ?_ trivial
  simp only [Stmt.down, Token.lexeme_down]

theorem digitalWriteStmt_implements :
    ImplementsForm d k .kwDigitalWrite (digitalWriteStmt expression) (digitalWriteStmt expression')
      .digitalWriteStmt S := by
  refine .rule (.next_kind rfl fun start => ?_)
  refine .expect rfl fun _ _ => ?_
  refine he.bind (.kind (by decide)) fun pin => .expect rfl fun _ _ => ?_
  refine he.bind (.kind (by decide)) fun value => callEnd_implements fun stop => ?_
  refine .between fun s => .pure ?_ trivial
  simp only [Stmt.down]

theorem pwmWriteStmt_implements :
    ImplementsForm d k .kwPwmWrite (pwmWriteStmt expression) (pwmWriteStmt expression')
      .pwmWriteStmt S := by
  refine .rule (.next_kind rfl fun start => ?_)
  refine .expect rfl fun _ _ => ?_
  refine he.bind (.kind (by decide)) fun pin => .expect rfl fun _ _ => ?_
  refine he.bind (.solid rfl (by decide)) fun duty => ?_
  refine (he.seq_empty.behind (by decide)).bind (.kind (by decide)) fun channel => ?_
  refine callEnd_implements fun stop => .between fun s => .pure ?_ trivial
  simp only [Stmt.down, exprDown?_eq]

theorem rgbWriteStmt_implements :
    ImplementsForm d k .kwRgbWrite (rgbWriteStmt expression) (rgbWriteStmt expression')
      .rgbWriteStmt S := by
  refine .rule (.next_kind rfl fun start => ?_)
  refine .expect rfl fun _ _ => ?_
  refine he.bind (.kind (by decide)) fun pin => .expect rfl fun _ _ => ?_
  refine he.bind (.kind (by decide)) fun red => .expect rfl fun _ _ => ?_
  refine he.bind (.kind (by decide)) fun green => .expect rfl fun _ _ => ?_
  refine he.bind (.kind (by decide)) fun blue => callEnd_implements fun stop => ?_
  refine .between fun s => .pure ?_ trivial
  simp only [Stmt.down]

theorem wifiConnectStmt_implements :
    ImplementsForm d k .kwWifiConnect (wifiConnectStmt expression) (wifiConnectStmt expression')
      .wifiConnectStmt S := by
  refine .rule (.next_kind rfl fun start => ?_)
  refine .expect rfl fun _ _ => ?_
  refine he.bind (.kind (by decide)) fun ssid => .expect rfl fun _ _ => ?_
  refine he.bind (.kind (by decide)) fun password => callEnd_implements fun stop => ?_
  refine .between fun s => .pure ?_ trivial
  simp only [Stmt.down]

theorem delayStmt_implements :
    ImplementsForm d k .kwDelay (delayStmt expression) (delayStmt expression') .delayStmt S := by
  refine .rule (.next_kind rfl fun start => ?_)
  refine .expect rfl fun _ _ => ?_
  refine he.bind (.kind (by decide)) fun time => callEnd_implements fun stop => ?_
  refine .between fun s => .pure ?_ trivial
  simp only [Stmt.down]

end Hardware

-- ==== the decision

/-- The statement parser does what its rule says. -/
theorem statement_implements (hk : k ≤ k' + 1) (hd : ImplementsItem d k' declaration declaration')
    (he : ImplementsExpr d k expression expression') :
    ImplementsStmt d k (statement declaration expression)
      (statement declaration' expression') := by
  have hb : ImplementsBlock d k (Grammar.block declaration) (Grammar.block declaration') :=
    (block_implements hd).le hk
  have hexpr : ∀ {kd : Kind}, kd ∉ Kind.kwIf :: statementKinds →
      Implements d k (fun w => anyWord w ∧ w.kind = kd) (exprStmt expression)
        (exprStmt expression') (Rule.accepted .statement) (· ≠ .kwElse) (Stmt.down d)
        anyValue := by
    intro kd hkd
    refine .prune_kinds (Kind.kwIf :: statementKinds) rfl (fun w hw => hw.2 ▸ hkd) ?_
    refine (exprStmt_implements he).mono (Nat.le_refl k) (fun w hw h => hkd ?_) fun _ h => h
    rw [← hw.2, h]
    exact List.mem_cons_self
  refine .rule (.kind rfl fun kd => ?_)
  cases kd
  case kwIf => exact .by_keyword rfl (ifStmt_implements he hb)
  case kwWhile => exact .by_keyword rfl (whileStmt_implements he hb)
  case kwFor => exact .by_keyword rfl (forStmt_implements he hb)
  case kwMatch => exact .by_keyword rfl (matchStmt_implements he hb)
  case kwSpawn => exact .by_keyword rfl spawnStmt_implements
  case kwReturn => exact .by_keyword rfl (returnStmt_implements he)
  case lbrace =>
    have hblock : Implements d k (fun w => w.kind = .lbrace)
        (Grammar.block declaration >>= fun b => pure (Stmt.block b))
        (Grammar.block declaration' >>= fun b => pure (Stmt.block b)) (.rule .block)
        (· ≠ .kwElse) (Stmt.down d) anyValue :=
      (hb.anywhere.stop fun _ _ => trivial).bind_pure (fun _ => by simp only [Stmt.down])
        fun _ => trivial
    exact .by_keyword rfl hblock
  case kwGpioMode => exact .by_keyword rfl (gpioModeStmt_implements he)
  case kwDigitalWrite => exact .by_keyword rfl (digitalWriteStmt_implements he)
  case kwPwmWrite => exact .by_keyword rfl (pwmWriteStmt_implements he)
  case kwRgbWrite => exact .by_keyword rfl (rgbWriteStmt_implements he)
  case kwWifiConnect => exact .by_keyword rfl (wifiConnectStmt_implements he)
  case kwDelay => exact .by_keyword rfl (delayStmt_implements he)
  case kwUnsafe => exact .by_keyword rfl rawStmt_implements
  all_goals exact hexpr (by decide)

end SketchCompiler
