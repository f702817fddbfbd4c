/-
Printed programs are read back.  A statement is read back
(`Stmt.ReadsBack`) by the rule for declarations, and where it is no
declaration also by the rule for statements, which value blocks use.
One level of nesting more than there are words is enough for a
statement, and two for a declaration, which refers to statements.

What follows a statement matters only for a conditional: it must not be
`else`.  No statement starts so, which is why the statements of a block
can be read one behind the other.
-/
import SketchCompiler.Proofs.ExprReadback
import SketchCompiler.Proofs.Image

namespace SketchCompiler

open List Grammar

variable {s : Stmt}
  {α : Type} {ss : List Stmt} {n : Nat} {span : Span} {e : Expr} {S : Kind → Prop}
  {expression : Parser Expr}

-- ==== first kinds

/-- The kind of the first word of a statement. -/
def Stmt.firstKind : Stmt → Kind
  | .importDecl .. => .kwImport
  | .structDecl .. => .kwStruct
  | .taskDecl _ _ [] _ => .kwTask
  | .taskDecl _ _ (_ :: _) _ => .atSign
  | .busDecl .. => .kwBus
  | .functionDecl .. => .kwFn
  | .loopDecl .. => .kwLoop
  | .varDecl _ _ _ _ _ isConst isVolatile =>
    if isConst then .kwConst else if isVolatile then .kwVolatile else .kwLet
  | .block .. => .lbrace
  | .ifElse .. => .kwIf
  | .whileLoop .. => .kwWhile
  | .forLoop .. => .kwFor
  | .returnValue .. => .kwReturn
  | .expr .. => .lparen
  | .matchValue .. => .kwMatch
  | .spawn .. => .kwSpawn
  | .gpioMode .. => .kwGpioMode
  | .digitalWrite .. => .kwDigitalWrite
  | .pwmWrite .. => .kwPwmWrite
  | .rgbWrite .. => .kwRgbWrite
  | .delay .. => .kwDelay
  | .wifiConnect .. => .kwWifiConnect
  | .raw .. => .kwUnsafe

theorem Stmt.words_eq_cons (s : Stmt) : ∃ w ws, s.words = w :: ws ∧ w.kind = s.firstKind := by
  cases s with
  | taskDecl span name decorators body =>
    cases decorators with
    | nil => exact ⟨_, _, rfl, rfl⟩
    | cons d ds =>
      obtain ⟨span, name, value⟩ := d
      exact ⟨_, _, rfl, rfl⟩
  | varDecl span name typeName initializer isMutable isConst isVolatile =>
    cases isConst <;> cases isVolatile <;> exact ⟨_, _, rfl, rfl⟩
  | _ => exact ⟨_, _, rfl, rfl⟩

theorem Stmt.firstKind_ne (s : Stmt) :
    s.firstKind ≠ .rbrace ∧ s.firstKind ≠ .eof ∧ s.firstKind ≠ .kwElse := by
  cases s with
  | taskDecl span name decorators body => cases decorators <;> simp [Stmt.firstKind]
  | varDecl span name typeName initializer isMutable isConst isVolatile =>
    cases isConst <;> cases isVolatile <;> simp [Stmt.firstKind]
  | _ => simp [Stmt.firstKind]

-- ==== reading back

/-- The statement is none of the declarations. -/
def Stmt.isStatement : Stmt → Bool
  | .importDecl .. | .structDecl .. | .taskDecl .. | .busDecl .. | .functionDecl ..
  | .loopDecl .. | .varDecl .. => false
  | _ => true

/-- The words of a statement are read as the statement, spans apart,
also where it is the first clause of a `for` header; an expression that
is a statement is read back itself. -/
structure Stmt.ReadsBack (s : Stmt) : Prop where
  declaration : ∀ n, s.words.length + 2 ≤ n → Reads (declarationAt n) s.words (· ≠ .kwElse)
    fun item => ∃ v, item = some v ∧ v.bare = s.bare
  statement : s.isStatement = true → ∀ n, s.words.length + 1 ≤ n →
    Reads (statementAt n) s.words (· ≠ .kwElse) fun v => v.bare = s.bare
  clause : s.isClause = true → ∀ n, s.clause.length + 1 ≤ n →
    Reads (forInit (expressionAt n)) s.clause (· = .semicolon)
      fun item => ∃ v, item = some v ∧ v.bare = s.bare
  expression : ∀ span e, s = .expr span e → e.ReadsBack

/-- The words of a block are read as the block, spans apart. -/
def Block.ReadsBack (b : Block) : Prop :=
  ∀ n, b.core.length + 2 ≤ n → Reads (block (declarationAt n)) (inBraces b.core) (fun _ => True)
    fun v => v.bare = b.bare

theorem length_le_flatMap {f : α → List Word} {x : α} {xs : List α} (h : x ∈ xs) :
    (f x).length ≤ (xs.flatMap f).length := by
  rw [flatMap_def]
  exact (sublist_flatten_of_mem (mem_map_of_mem h)).length_le

theorem filterMap_bare {items : List Item}
    (h : List.Forall₂ (fun s item => ∃ v, item = some v ∧ v.bare = s.bare) ss items) :
    (items.filterMap id).map Stmt.bare = ss.map Stmt.bare := by
  induction h with
  | nil => rfl
  | cons hs _ ih =>
    obtain ⟨v, rfl, hv⟩ := hs
    rw [map_cons, ← hv, ← ih]
    rfl

theorem itemsUntil_reads {closing : Kind} (h : ∀ s ∈ ss, s.ReadsBack)
    (hn : (stmtsWords ss).length + 2 ≤ n) (hclosing : closing = .rbrace ∨ closing = .eof) :
    Reads (Parser.itemsUntil closing (declarationAt n)) (stmtsWords ss) (· = closing)
      fun items => (items.filterMap id).map Stmt.bare = ss.map Stmt.bare := by
  have hne : closing ≠ .kwElse := by rcases hclosing with rfl | rfl <;> decide
  rw [stmtsWords_eq] at hn ⊢
  have hitem : ∀ s ∈ ss, Reads (declarationAt n) s.words (· ≠ .kwElse)
      fun item => ∃ v, item = some v ∧ v.bare = s.bare := by
    intro s hs
    have := length_le_flatMap (f := Stmt.words) hs
    exact (h s hs).declaration n (by omega)
  refine (Reads.itemsUntil hitem (fun s _ => ?_) hne).imp fun _ => filterMap_bare
  obtain ⟨w, ws, hwords, hkind⟩ := s.words_eq_cons
  obtain ⟨hrbrace, heof, helse⟩ := s.firstKind_ne
  refine ⟨w, ws, hwords, ?_, by rwa [hkind], by rwa [hkind]⟩
  rw [hkind]
  rcases hclosing with rfl | rfl
  · exact hrbrace
  · exact heof

/-- Blocks are read back. -/
theorem Block.ReadsBack.mk (h : ∀ s ∈ ss, s.ReadsBack) : (Block.mk span ss).ReadsBack := by
  intro n hn
  refine .expect rfl fun left _ => ?_
  refine (itemsUntil_reads h hn (.inl rfl)).bind_cons rfl fun items hitems => ?_
  refine .expect rfl fun right _ => .spanOf fun _ => .spanOf fun _ => ?_
  refine .pure ?_
  rw [Block.bare, Block.bare, stmtsBare_eq, stmtsBare_eq, hitems]

-- ==== value blocks

theorem Stmt.isValueItem_cases (h : s.isValueItem = true) :
    s.firstKind ∉ topLevelKinds ∧ (s.firstKind ∈ variableKinds
      ∨ s.firstKind ∉ variableKinds ∧ s.firstKind ∈ statementKinds ∧ s.isStatement = true
      ∨ ∃ span e, s = .expr span e) := by
  cases s with
  | importDecl | structDecl | taskDecl | busDecl | functionDecl | loopDecl | ifElse => cases h
  | varDecl span name typeName initializer isMutable isConst isVolatile =>
    cases isConst <;> cases isVolatile <;> simp [Stmt.firstKind, topLevelKinds, variableKinds]
  | expr span e => exact ⟨by simp [Stmt.firstKind, topLevelKinds], .inr (.inr ⟨span, e, rfl⟩)⟩
  | _ =>
    simp [Stmt.firstKind, Stmt.isStatement, topLevelKinds, variableKinds, statementKinds]

section ValueBlocks

variable {n : Nat} {items : List Stmt}

theorem valueStep_item (h : s.ReadsBack) (hitem : s.isValueItem = true)
    (hn : s.words.length + 2 ≤ n) :
    Reads (valueStep (declarationAt n) (statementAt n) (expressionAt n) items) s.words
      (· ≠ .kwElse) fun r => ∃ items', r = .again items' ∧ ∃ v, items' = v :: items
        ∧ v.bare = s.bare := by
  refine .get fun c ts rest hrest hws _ => ?_
  have hkind : c.kind = s.firstKind := by
    obtain ⟨w, ws, hwords, hfirst⟩ := s.words_eq_cons
    rw [c.kind_eq hrest hws, hwords]
    exact hfirst
  obtain ⟨hrbrace, heof, -⟩ := s.firstKind_ne
  have hopen : ¬ (c.kind = .rbrace ∨ c.atEnd = true) := by
    unfold Cursor.atEnd
    simp [hkind, hrbrace, heof]
  obtain ⟨htop, hcases⟩ := Stmt.isValueItem_cases hitem
  rw [if_neg hopen, hkind, if_neg (by simpa using htop)]
  rcases hcases with hvar | ⟨hvar, hstmt, hisStmt⟩ | ⟨span, e, rfl⟩
  · rw [if_pos (contains_iff_mem.mpr hvar)]
    refine (h.declaration n hn).bind_last fun item hv => ?_
    obtain ⟨v, rfl, hv⟩ := hv
    exact .pure ⟨_, rfl, v, rfl, hv⟩
  · rw [if_neg (by simpa using hvar), if_pos (contains_iff_mem.mpr hstmt)]
    refine (h.statement hisStmt n (by omega)).bind_last fun v hv => ?_
    exact .pure ⟨_, rfl, v, rfl, hv⟩
  · rw [if_neg (by simp [Stmt.firstKind, variableKinds]),
      if_neg (by simp [Stmt.firstKind, statementKinds])]
    have hlen : (Stmt.expr span e).words.length = e.core.length + 3 := by
      simp [Stmt.words, inParens]
    have he := (h.expression span e rfl).words (n := n) (by omega)
    refine he.bind_cons (by decide) fun v hv => ?_
    refine .acceptAny_some (by decide) (by decide) fun stop _ => .spanOf fun _ => ?_
    refine .pure ⟨_, rfl, _, rfl, ?_⟩
    rw [Stmt.bare, Stmt.bare, hv]

theorem valueStep_value (h : e.ReadsBack) (hn : e.core.length + 3 ≤ n) :
    Reads (valueStep (declarationAt n) (statementAt n) (expressionAt n) items) e.words
      (· = .rbrace) fun r => ∃ p, r = .done p ∧ p.1 = items.reverse
        ∧ ∃ v, p.2 = some v ∧ v.bare = e.bare := by
  refine .get fun c ts rest hrest hws _ => ?_
  have hkind : c.kind = .lparen := c.kind_eq hrest hws
  have hopen : ¬ (c.kind = .rbrace ∨ c.atEnd = true) := by
    unfold Cursor.atEnd
    simp [hkind]
  rw [if_neg hopen, hkind, if_neg (by decide), if_neg (by decide), if_neg (by decide)]
  have he : Reads (expressionAt n) e.words (· = .rbrace) fun v => v.bare = e.bare :=
    (h.words hn).mono (fun k hk => hk ▸ (by decide)) fun _ h => h
  refine he.bind_last fun v hv => .acceptAny_none ?_ ?_
  · rintro k rfl
    exact (by decide : Kind.rbrace ∉ [.semicolon])
  · exact .pure ⟨_, rfl, rfl, v, rfl, hv⟩

theorem valueItems_reads (h : ∀ s ∈ ss, s.ReadsBack) (hitem : ∀ s ∈ ss, s.isValueItem = true)
    (he : e.ReadsBack) (hn : (stmtsWords ss).length + e.core.length + 3 ≤ n) :
    Reads (Parser.loop (valueStep (declarationAt n) (statementAt n) (expressionAt n)) items)
      (stmtsWords ss ++ e.words) (· = .rbrace)
      fun p => p.1.map Stmt.bare = items.reverse.map Stmt.bare ++ ss.map Stmt.bare
        ∧ ∃ v, p.2 = some v ∧ v.bare = e.bare := by
  induction ss generalizing items with
  | nil =>
    refine .done ((valueStep_value he (by simpa [stmtsWords] using hn)).imp ?_)
    rintro r ⟨p, rfl, hp, hv⟩
    exact ⟨p, rfl, by rw [hp, map_nil, append_nil], hv⟩
  | cons s ss ih =>
    rw [stmtsWords, length_append] at hn
    have hs := h s mem_cons_self
    obtain ⟨w, ws, hwords, hkind⟩ := s.words_eq_cons
    have hpos : s.words ≠ [] := by
      rw [hwords]
      exact cons_ne_nil _ _
    rw [stmtsWords, append_assoc]
    refine .again (valueStep_item hs (hitem s mem_cons_self) (by omega)) hpos ?_ ?_
    · intro k hk
      cases ss with
      | nil => exact (by decide : Kind.lparen ≠ .kwElse)
      | cons s' ss =>
        obtain ⟨w', ws', hwords', hkind'⟩ := s'.words_eq_cons
        rw [stmtsWords, hwords']
        show w'.kind ≠ .kwElse
        rw [hkind']
        exact s'.firstKind_ne.2.2
    · rintro items' ⟨v, rfl, hv⟩
      refine (ih (fun x hx => h x (mem_cons_of_mem _ hx))
        (fun x hx => hitem x (mem_cons_of_mem _ hx)) (by omega)).imp ?_
      rintro p ⟨hp, hvalue⟩
      refine ⟨?_, hvalue⟩
      rw [hp, reverse_cons, map_append, map_singleton, hv, append_assoc]
      rfl

theorem valueBlock_reads {b : Block} {context : String} (h : ∀ s ∈ b.statements, s.ReadsBack)
    (hitem : ∀ s ∈ b.statements, s.isValueItem = true) (he : e.ReadsBack)
    (hn : b.core.length + e.core.length + 3 ≤ n) :
    Reads (valueBlock (declarationAt n) (statementAt n) (expressionAt n) context)
      (inBraces (b.core ++ e.words)) (fun _ => True)
      fun r => r.1.bare = b.bare ∧ r.2.bare = e.bare := by
  obtain ⟨span, ss⟩ := b
  refine .expect rfl fun left _ => ?_
  refine (valueItems_reads h hitem he hn).bind_cons rfl fun p hp => ?_
  obtain ⟨items, value?⟩ := p
  obtain ⟨hitems, v, hvalue, hv⟩ := hp
  obtain rfl : value? = some v := hvalue
  refine .expect rfl fun right _ => .spanOf fun _ => .spanOf fun _ => ?_
  refine .pure ⟨?_, hv⟩
  rw [Block.bare, Block.bare, stmtsBare_eq, stmtsBare_eq]
  exact congrArg _ hitems

theorem Expr.ReadsBack.ifElse {condition thenValue elseValue : Expr} {thenBlock elseBlock : Block}
    (hcond : condition.ReadsBack)
    (hthen : ∀ s ∈ thenBlock.statements, s.ReadsBack ∧ s.isValueItem = true)
    (hthenValue : thenValue.ReadsBack)
    (helse : ∀ s ∈ elseBlock.statements, s.ReadsBack ∧ s.isValueItem = true)
    (helseValue : elseValue.ReadsBack) :
    (Expr.ifElse span condition thenBlock thenValue elseBlock elseValue).ReadsBack := by
  have hcore : (Expr.ifElse span condition thenBlock thenValue elseBlock elseValue).core
      = Word.of .kwIf :: Word.of .lparen :: (condition.words ++ Word.of .rparen
        :: (inBraces (thenBlock.core ++ thenValue.words) ++ Word.of .kwElse
        :: inBraces (elseBlock.core ++ elseValue.words))) := by
    simp [Expr.core, Expr.words, inParens]
  refine .of_primary hcore (by decide) fun n hn => .kind fun k _ => ?_
  rw [show nextKind (Word.of .kwIf :: _) k = .kwIf from rfl, if_pos rfl]
  simp only [length_cons, length_append, Expr.words, inParens, inBraces] at hn
  refine .next rfl fun start _ => .expect rfl fun _ _ => ?_
  refine (hcond.words (by omega)).bind_cons (by decide) fun c hc => ?_
  refine .expect rfl fun _ _ => ?_
  refine (valueBlock_reads (fun s hs => (hthen s hs).1) (fun s hs => (hthen s hs).2) hthenValue
    (by omega)).bind_cons trivial fun t ht => .expect rfl fun _ _ => ?_
  refine (valueBlock_reads (fun s hs => (helse s hs).1) (fun s hs => (helse s hs).2) helseValue
    (by omega)).bind_last fun f hf => .spanOf fun _ => .pure ?_
  rw [Expr.bare, Expr.bare, hc, ht.1, ht.2, hf.1, hf.2]

end ValueBlocks

-- ==== variables

theorem behind_reads {β γ : Type} {k : Kind} {p : Parser α} {x? : Option γ} {words : γ → List Word}
    {f : γ → β} {g : α → β} (hk : k ≠ .eof)
    (h : ∀ x ∈ x?, Reads p (words x) S fun a => g a = f x) :
    Reads (Parser.behind k p) (behindWords k (x?.map words)) (fun k' => S k' ∧ k' ≠ k)
      fun a? => a?.map g = x?.map f := by
  cases x? with
  | none => exact Reads.behind_none.mono (fun _ h => h.2) fun a? ha => by rw [ha]; rfl
  | some x =>
    refine (Reads.behind_some hk (h x rfl)).mono (fun _ h => h.1) ?_
    rintro a? ⟨a, rfl, ha⟩
    exact congrArg some ha

section Variables

variable {n : Nat} {span : Span} {name : String} {typeName : Option String}
  {initializer : Option Expr} {isMutable isConst isVolatile needsSemicolon : Bool}

theorem accepts_bind_of_ne (h : c.kind ≠ k) : (Parser.accepts k >>= f) c = f false c := by
  have hmem : ¬ [k].contains c.kind = true := by simpa using h
  show Parser.bind (Parser.bind (Parser.acceptAny [k]) _) f c = _
  unfold Parser.bind Parser.acceptAny
  rw [if_neg hmem]
  rfl

theorem qualifiedDecl?_none (h : c.kind ∉ variableKinds) :
    qualifiedDecl? expression needsSemicolon c = .ok none c := by
  have hne : ∀ k ∈ variableKinds, c.kind ≠ k := fun k hk heq => h (heq ▸ hk)
  unfold qualifiedDecl?
  rw [accepts_bind_of_ne (hne .kwConst (by decide))]
  show (Parser.accepts .kwVolatile >>= _) c = _
  rw [accepts_bind_of_ne (hne .kwVolatile (by decide))]
  show (Parser.accepts .kwLet >>= _) c = _
  rw [accepts_bind_of_ne (hne .kwLet (by decide))]
  rfl

/-- The end of a variable declaration: its semicolon, or nothing in front
of the one of a `for` header. -/
def variableEndWords (needsSemicolon : Bool) : List Word :=
  if needsSemicolon then [Word.of .semicolon] else []

theorem variableEnd_reads :
    Reads (variableEnd needsSemicolon token init) (variableEndWords needsSemicolon)
      (fun k => needsSemicolon = false → k = .semicolon) fun _ => True := by
  cases needsSemicolon with
  | true => exact (Reads.expect_only (by decide)).imp fun _ _ => trivial
  | false =>
    refine .still fun c => ?_
    cases init with
    | none => exact ⟨token, rfl, trivial⟩
    | some e => exact ⟨c.last, rfl, trivial⟩

/-- A variable declaration behind its qualifiers is read. -/
theorem variableDecl_reads
    (h : ∀ e ∈ initializer, Reads expression e.words (· ∈ exprEnds) fun v => v.bare = e.bare) :
    Reads (variableDecl expression needsSemicolon isConst isVolatile)
      (Word.name name :: (behindWords .colon (typeName.map fun t => [Word.name t])
        ++ (behindWords .assign (initializer.map Expr.words) ++ variableEndWords needsSemicolon)))
      (fun k => needsSemicolon = false → k = .semicolon)
      fun v => v.bare = (Stmt.varDecl noSpan name typeName initializer (!isConst) isConst
        isVolatile).bare := by
  have hend : ∀ k, (needsSemicolon = false → k = .semicolon) →
      nextKind (variableEndWords needsSemicolon) k = .semicolon := by
    intro k hk
    cases needsSemicolon with
    | true => rfl
    | false => exact hk rfl
  refine .expect rfl fun token htoken => ?_
  have htypes : ∀ t ∈ typeName, Reads (Parser.expect .ident "type name after ':'") [Word.name t]
      (fun _ => True) fun token => token.lexeme = t :=
    fun t _ => (Reads.expect_only (by decide)).imp fun _ h =>
      congrArg Word.lexeme h
  refine (behind_reads (by decide) htypes).bind (fun k hk => ⟨trivial, ?_⟩) fun type? htype => ?_
  · cases initializer with
    | none =>
      show nextKind (variableEndWords needsSemicolon) k ≠ .colon
      rw [hend k hk]
      decide
    | some e => exact (by decide : Kind.assign ≠ .colon)
  refine (behind_reads (by decide) h).bind (fun k hk => ?_) fun init? hinit => ?_
  · rw [hend k hk]
    decide
  refine variableEnd_reads.bind_last fun stop _ => .spanOf fun _ => .spanOf fun _ => ?_
  refine .pure ?_
  rw [Stmt.bare, Stmt.bare, exprBare?_eq, exprBare?_eq, hinit, htype,
    Option.map_id', show token.lexeme = name from congrArg Word.lexeme htoken]

theorem qualifiedDecl?_reads
    (h : ∀ e ∈ initializer, Reads expression e.words (· ∈ exprEnds) fun v => v.bare = e.bare) :
    Reads (qualifiedDecl? expression needsSemicolon)
      (variableWords name typeName (initializer.map Expr.words) isConst isVolatile
        ++ variableEndWords needsSemicolon)
      (fun k => needsSemicolon = false → k = .semicolon)
      fun item => ∃ v, item = some v ∧ v.bare = (Stmt.varDecl noSpan name typeName initializer
        (!isConst) isConst isVolatile).bare := by
  have hdecl : ∀ isConst isVolatile : Bool, Reads (do
      return some (← variableDecl expression needsSemicolon isConst isVolatile))
      (Word.name name :: (behindWords .colon (typeName.map fun t => [Word.name t])
        ++ (behindWords .assign (initializer.map Expr.words) ++ variableEndWords needsSemicolon)))
      (fun k => needsSemicolon = false → k = .semicolon)
      fun item => ∃ v, item = some v ∧ v.bare = (Stmt.varDecl noSpan name typeName initializer
        (!isConst) isConst isVolatile).bare :=
    fun isConst isVolatile => (variableDecl_reads h).bind_last fun v hv => .pure ⟨v, rfl, hv⟩
  have hlet : ∀ {p : Parser Item} {ws : List Word} {S : Kind → Prop} {Q : Item → Prop},
      Reads p ws S Q → Reads (Parser.accept .kwLet >>= fun _ => p) (Word.of .kwLet :: ws) S Q :=
    fun hp => .acceptAny_some (by decide) (by decide) fun _ _ => hp
  have hwords : variableWords name typeName (initializer.map Expr.words) isConst isVolatile
      ++ variableEndWords needsSemicolon
      = (if isConst then [Word.of .kwConst] else []) ++ ((if isVolatile then [Word.of .kwVolatile]
        else []) ++ Word.of .kwLet :: Word.name name
          :: (behindWords .colon (typeName.map fun t => [Word.name t])
        ++ (behindWords .assign (initializer.map Expr.words)
          ++ variableEndWords needsSemicolon))) := by
    simp [variableWords]
  rw [hwords]
  unfold qualifiedDecl?
  cases isConst with
  | true =>
    refine .accepts_true (by decide) ?_
    cases isVolatile with
    | true => exact .accepts_true (by decide) (hlet (hdecl true true))
    | false =>
      refine .accepts_false (fun _ _ => (by decide : Kind.kwLet ≠ .kwVolatile)) ?_
      exact hlet (hdecl true false)
  | false =>
    cases isVolatile with
    | true =>
      refine .accepts_false (fun _ _ => (by decide : Kind.kwVolatile ≠ .kwConst)) ?_
      refine .accepts_true (by decide) ?_
      refine .accepts_false (fun _ _ => (by decide : Kind.kwLet ≠ .kwConst)) ?_
      exact hlet (hdecl false true)
    | false =>
      refine .accepts_false (fun _ _ => (by decide : Kind.kwLet ≠ .kwConst)) ?_
      refine .accepts_false (fun _ _ => (by decide : Kind.kwLet ≠ .kwVolatile)) ?_
      exact .accepts_true (by decide) (hdecl false false)

end Variables

-- ==== statements as declarations

theorem Stmt.nextKind_words (s : Stmt) (k : Kind) : nextKind s.words k = s.firstKind := by
  obtain ⟨w, ws, hwords, hkind⟩ := s.words_eq_cons
  rw [hwords]
  exact hkind

theorem declaration_reads (h : Reads body ws S Q) :
    Reads (Grammar.declaration body) ws S fun item => ∃ v, item = some v ∧ Q v := by
  intro c ts rest hrest hws hS
  obtain ⟨v, last, hrun, hv⟩ := h c ts rest hrest hws hS
  refine ⟨some v, last, ?_, v, rfl, hv⟩
  unfold Grammar.declaration
  rw [hrun]

theorem Stmt.firstKind_of_isStatement (h : s.isStatement = true) :
    s.firstKind ∉ topLevelKinds ∧ s.firstKind ∉ variableKinds := by
  cases s with
  | importDecl | structDecl | taskDecl | busDecl | functionDecl | loopDecl | varDecl => cases h
  | _ => simp [Stmt.firstKind, topLevelKinds, variableKinds]

theorem declarationBody_reads {declaration : Parser Item} {statement : Parser Stmt}
    {ws : List Word}
    {Q : Stmt → Prop} (htop : ∀ k, S k → nextKind ws k ∉ topLevelKinds)
    (h : Reads (qualifiedDecl? expression true >>= fun
      | some decl => pure decl
      | none => statement) ws S Q) :
    Reads (declarationBody declaration statement expression) ws S Q := by
  refine .kind fun k hk => ?_
  have hfirst := htop k hk
  generalize nextKind ws k = first at hfirst
  split
  case h_8 => exact h
  all_goals exact absurd (by decide) hfirst

theorem declarationAt_of_statement {s : Stmt} (hs : s.isStatement = true)
    (h : ∀ n, s.words.length + 1 ≤ n →
      Reads (statementAt n) s.words (· ≠ .kwElse) fun v => v.bare = s.bare)
    (hn : s.words.length + 2 ≤ n) :
    Reads (declarationAt n) s.words (· ≠ .kwElse) fun item => ∃ v, item = some v
      ∧ v.bare = s.bare := by
  obtain ⟨htop, hvar⟩ := Stmt.firstKind_of_isStatement hs
  cases n with
  | zero => omega
  | succ n =>
    refine declaration_reads (declarationBody_reads (fun k _ => ?_) ?_)
    · rw [s.nextKind_words]
      exact htop
    · refine .look fun c ts rest hrest hws _ => ⟨none, qualifiedDecl?_none ?_, h n (by omega)⟩
      rw [c.kind_eq hrest hws, s.nextKind_words]
      exact hvar

theorem Stmt.ReadsBack.of_statement (hwords : s.words = ws) (hs : s.isStatement = true)
    (hclause : s.isClause = false)
    (h : ∀ n, ws.length ≤ n → Reads (Grammar.statement (declarationAt n) (expressionAt n)) ws
      (· ≠ .kwElse) fun v => v.bare = s.bare) : s.ReadsBack := by
  subst hwords
  have hstatement : ∀ n, s.words.length + 1 ≤ n →
      Reads (statementAt n) s.words (· ≠ .kwElse) fun v => v.bare = s.bare := by
    intro n hn
    cases n with
    | zero => omega
    | succ n => exact h n (by omega)
  constructor
  case declaration => exact fun n hn => declarationAt_of_statement hs hstatement hn
  case statement => exact fun _ => hstatement
  case clause =>
    intro hc
    rw [hclause] at hc
    cases hc
  case expression =>
    rintro span e rfl
    cases hclause

end SketchCompiler
