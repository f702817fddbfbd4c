/-
Blocks, conditional expressions and declarations of variables implement
their grammar.

# Value blocks

In a value block the next word decides what is read.  Statements there
are those of the grammar that do not start with `if`, so an expression
with a semicolon behind it can be derived in two ways, of which one is
read (`valueStep_reads_item`).

# Declarations in a header

In the header of a `for` loop no semicolon belongs to a declaration, and
its span ends at the token read last, which is a token of its value
(`ReadsTwice.bind_last`).
-/
import SketchCompiler.Proofs.OperandRules

namespace SketchCompiler

open List Grammar

variable {S : Kind → Prop}

variable {d k : Nat} {declaration declaration' : Parser Item} {statement statement' : Parser Stmt}
  {expression expression' : Parser Expr}

/-- Behind its keyword, the parsers implement a form of statement. -/
abbrev ImplementsForm (d k : Nat) (kd : Kind) (p q : Token → Parser Stmt) (r : Rule)
    (S : Kind → Prop) : Prop :=
  Implements d k (fun w => w.kind = kd) (Parser.next >>= p) (Parser.next >>= q) (.rule r) S
    (Stmt.down d) anyValue

/-- The parsers implement statements. -/
abbrev ImplementsStmt (d k : Nat) (p q : Parser Stmt) : Prop :=
  Implements d k anyWord p q (.rule .statement) (· ≠ .kwElse) (Stmt.down d) anyValue

/-- The parsers implement declarations and statements. -/
abbrev ImplementsItem (d k : Nat) (p q : Parser Item) : Prop :=
  Implements d k anyWord p q (.rule .topDecl) (· ≠ .kwElse) (Option.map (Stmt.down d)) anyValue

/-- The parsers implement blocks. -/
abbrev ImplementsBlock (d k : Nat) (p q : Parser Block) : Prop :=
  Implements d k anyWord p q (.rule .block) (fun _ => True) (Block.down d) anyValue

-- ==== blocks

theorem filterMap_down (items : List Item) :
    (items.map (Option.map (Stmt.down d))).filterMap id
      = (items.filterMap id).map (Stmt.down d) := by
  rw [filterMap_map, map_filterMap]
  rfl

theorem block_implements (hd : ImplementsItem d k declaration declaration') :
    ImplementsBlock d (k + 1) (block declaration) (block declaration') := by
  refine .rule (.expect_first (by decide) fun left _ => ?_)
  have hitems : Implements d k anyWord (Parser.itemsUntil .rbrace declaration)
      (Parser.itemsUntil .rbrace declaration') (.many (.rule .topDecl)) (· = .rbrace)
      (List.map (Option.map (Stmt.down d))) anyValue :=
    hd.itemsUntil rfl (by decide) (by decide) (by decide) (by decide)
  refine hitems.bind (.solid rfl (by decide)) fun items => ?_
  refine .expect rfl fun right _ => ?_
  refine .spanOf fun s => .spanOf fun s' => .pure ?_ trivial
  rw [filterMap_down]
  simp only [Block.down, Span.upTo_down, stmtsDown_eq]

-- ==== value blocks

/-- An expression in a value block, an item if a semicolon follows it. -/
def valueTail (expression : Parser Expr) (items : List Stmt) :
    Parser (Parser.Round (List Stmt) (List Stmt × Option Expr)) := do
  let value ← expression
  match ← Parser.accept .semicolon with
  | some stop => return .again (.expr (value.span.upTo (← Parser.spanOf stop)) value :: items)
  | none => return .done (items.reverse, some value)

/-- A value block with its value, moved. -/
def valueItemsDown (d : Nat) (r : List Stmt × Option Expr) : List Stmt × Option Expr :=
  (r.1.map (Stmt.down d), r.2.map (Expr.down d))

/-- What the next kind decides in a value block. -/
theorem valueStep_bind {items : List Stmt} :
    valueStep declaration statement expression items = Parser.kind >>= fun kd =>
      if kd = .rbrace ∨ decide (kd = .eof) = true then pure (.done (items.reverse, none))
      else if topLevelKinds.contains kd then Parser.failHere .misplacedDeclaration
      else if variableKinds.contains kd then
        declaration >>= fun item => match item with
          | some item => pure (.again (item :: items))
          | none => pure (.again items)
      else if statementKinds.contains kd then
        statement >>= fun s => pure (.again (s :: items))
      else valueTail expression items :=
  rfl

section Tails

variable (he : ImplementsExpr d k expression expression')
include he

theorem valueTail_sound (items : List Stmt) :
    Spells K (valueTail expression items) fun r ws =>
      Spells.Leaves (fun _ => Derived (.all [.rule .expression, .kind .semicolon]))
        (fun _ => Derived (.rule .expression)) ws r := by
  refine (he.sound.mono (fun _ _ => trivial) fun _ _ hD => hD trivial).bind fun value => ?_
  refine .accept (by decide) (fun stop hstop => ?_) ?_
  · refine .spanOf fun s => .pure fun u hu => ?_
    have hstop' : Derived (.kind .semicolon) [stop.word] := Derives.kind_iff.mpr ⟨_, rfl, hstop⟩
    exact .seq hu (.seq hstop' .empty)
  · refine .pure fun u hu => ?_
    rw [append_nil]
    exact hu

theorem valueTail_reads_item (items : List Stmt)
    (hws : Derived (.all [.rule .expression, .kind .semicolon]) ws) (hfair : Fair k anyWord ws) :
    ReadsTwice d (valueTail expression items) (valueTail expression' (items.map (Stmt.down d))) ws
      S (ReadsTwice.moveRound (List.map (Stmt.down d)) (valueItemsDown d))
      fun r => ∃ a, r = .again a := by
  obtain ⟨u, v, rfl, hu, hv⟩ := Derives.seq_iff.mp hws
  obtain ⟨w, v', rfl, hw, hnil⟩ := Derives.seq_tok_iff.mp hv
  obtain rfl := hnil.eq_nil
  have hstop : ExprEnd w.kind := by
    rw [hw.1]
    decide
  refine (he.reads u hu hfair.left).bind (fun _ _ => hstop) fun value _ => ?_
  refine .acceptAny_some (by rw [hw.1]; decide) (mem_singleton.mpr hw.1) ?_
  refine fun stop _ => .spanOf fun s => .pure ?_ ⟨_, rfl⟩
  simp only [ReadsTwice.moveRound, map_cons, Stmt.down, Expr.span_down, Span.upTo_down]

theorem valueTail_reads_value (items : List Stmt)
    (hws : Derived (.rule .expression) ws) (hfair : Fair k anyWord ws) :
    ReadsTwice d (valueTail expression items) (valueTail expression' (items.map (Stmt.down d))) ws
      (fun kd => ExprEnd kd ∧ kd ≠ .semicolon)
      (ReadsTwice.moveRound (List.map (Stmt.down d)) (valueItemsDown d))
      fun r => ∃ b, r = .done b ∧ b.2.isSome = true := by
  rw [← append_nil ws]
  refine (he.reads ws hws hfair).bind (fun _ h => h.1) fun value _ => ?_
  refine .acceptAny_none (fun kd hkd hmem => hkd.2 (mem_singleton.mp hmem)) ?_
  refine .pure ?_ ⟨_, rfl, rfl⟩
  simp [ReadsTwice.moveRound, valueItemsDown]

end Tails

theorem variable_implements (hd : ImplementsItem d k declaration declaration') :
    Implements d k (fun w => w.kind ∈ variableKinds) declaration declaration' (.rule .varDecl)
      (· ≠ .kwElse) (Option.map (Stmt.down d)) anyValue := by
  have hitem : Implements d k (fun w => w.kind ∈ variableKinds) declaration declaration'
      (Rule.accepted .topDecl) (· ≠ .kwElse) (Option.map (Stmt.down d)) anyValue :=
    hd.anywhere.congr fun _ => Derives.rule_iff
  exact hitem.narrow variableKinds rfl fun _ hw => hw

/-- Where an expression starts, one is read in a value block. -/
theorem valueStep_reads_expression {items : List Stmt} {w : Word} {v : List Word}
    {S : Kind → Prop} {P : Parser.Round (List Stmt) (List Stmt × Option Expr) → Prop}
    (hw : w.kind ∈ Rule.expressionStarts)
    (h : ReadsTwice d (valueTail expression items)
      (valueTail expression' (items.map (Stmt.down d))) (w :: v) S
      (ReadsTwice.moveRound (List.map (Stmt.down d)) (valueItemsDown d)) P) :
    ReadsTwice d (valueStep declaration statement expression items)
      (valueStep declaration' statement' expression' (items.map (Stmt.down d))) (w :: v) S
      (ReadsTwice.moveRound (List.map (Stmt.down d)) (valueItemsDown d)) P := by
  have happart : ∀ kd ∈ Rule.expressionStarts, ¬ (kd = .rbrace ∨ decide (kd = .eof) = true)
      ∧ ¬ topLevelKinds.contains kd = true ∧ ¬ variableKinds.contains kd = true
      ∧ ¬ statementKinds.contains kd = true := by
    decide
  obtain ⟨hclose, htop, hvariable, hstatement⟩ := happart _ hw
  rw [valueStep_bind, valueStep_bind]
  refine .kind ?_
  simp only [if_neg hclose, if_neg htop, if_neg hvariable, if_neg hstatement]
  exact h

section ValueBlocks

variable (hd : ImplementsItem d k declaration declaration')
  (hs : ImplementsStmt d k statement statement') (he : ImplementsExpr d k expression expression')
include hd hs he

theorem valueStep_sound (items : List Stmt) :
    Spells anyWord (valueStep declaration statement expression items) fun r ws =>
      Spells.Leaves (fun _ => Derived (.rule .declarationOrStmt))
        (fun b ws => b.2.isSome = true → Derived (.rule .expression) ws) ws r := by
  rw [valueStep_bind]
  refine .kind fun kd => ?_
  split
  · exact .pure fun h => absurd h Bool.false_ne_true
  split
  · exact .failHere _
  split
  · rename_i hvariable
    have hkind : ∀ w, anyWord w ∧ w.kind = kd → w.kind ∈ variableKinds :=
      fun w hw => hw.2 ▸ contains_iff_mem.mp hvariable
    refine ((variable_implements hd).sound.mono hkind fun _ _ hD => hD trivial).bind fun item => ?_
    have hitem : ∀ (item : List Stmt), Spells anyWord
        (pure (.again item) : Parser (Parser.Round (List Stmt) (List Stmt × Option Expr)))
        fun r v => ∀ u, Derived (.rule .varDecl) u →
          Spells.Leaves (fun _ => Derived (.rule .declarationOrStmt))
            (fun b ws => b.2.isSome = true → Derived (.rule .expression) ws) (u ++ v) r := by
      refine fun item => .pure fun u hu => ?_
      rw [append_nil]
      exact .rule (.left hu)
    cases item with
    | some s => exact hitem _
    | none => exact hitem _
  split
  · rename_i hstatement
    have hkind : ∀ w, anyWord w ∧ w.kind = kd → ¬ Terminal.Fits { kind := .kwIf } w := by
      rintro w ⟨-, rfl⟩ hfits
      have hmem := contains_iff_mem.mp hstatement
      rw [hfits.1] at hmem
      exact absurd hmem (by decide)
    refine ((hs.anywhere.except hkind rfl).sound.imp fun _ _ hD => hD
      trivial).bind fun s => .pure fun u hu => ?_
    rw [append_nil]
    exact .rule (.right (.left hu))
  · refine (valueTail_sound he items).imp fun r ws hr => ?_
    cases r with
    | again a => exact .rule (.right (.right hr))
    | done b => exact fun _ => hr

/-- Items of a value block are read. -/
theorem valueStep_reads_item (items : List Stmt) (hws : Derived (.rule .declarationOrStmt) ws)
    (hfair : Fair k anyWord ws) :
    ReadsTwice d (valueStep declaration statement expression items)
      (valueStep declaration' statement' expression' (items.map (Stmt.down d))) ws (· ≠ .kwElse)
      (ReadsTwice.moveRound (List.map (Stmt.down d)) (valueItemsDown d))
      fun r => ∃ a, r = .again a := by
  have hexpr : Derived (.all [.rule .expression, .kind .semicolon]) ws →
      ReadsTwice d (valueStep declaration statement expression items)
        (valueStep declaration' statement' expression' (items.map (Stmt.down d))) ws (· ≠ .kwElse)
        (ReadsTwice.moveRound (List.map (Stmt.down d)) (valueItemsDown d))
        fun r => ∃ a, r = .again a := by
    intro h
    obtain ⟨w, v, rfl, hw⟩ := h.exists_cons rfl
    exact valueStep_reads_expression hw (valueTail_reads_item he items h hfair)
  rcases Derives.alt_iff.mp (Derives.rule_iff.mp hws) with h | h
  · obtain ⟨w, v, rfl, hw⟩ := h.exists_cons rfl
    have happart : ∀ kd ∈ variableKinds, ¬ (kd = .rbrace ∨ decide (kd = .eof) = true)
        ∧ ¬ topLevelKinds.contains kd = true ∧ variableKinds.contains kd = true := by
      decide
    obtain ⟨hclose, htop, hvariable⟩ := happart _ hw
    have hguard : Fair k (fun w => w.kind ∈ variableKinds) (w :: v) :=
      hfair.guarded fun w' hw' => by cases hw'; exact hw
    rw [valueStep_bind, valueStep_bind]
    refine .kind ?_
    simp only [if_neg hclose, if_neg htop, if_pos hvariable]
    rw [← append_nil (w :: v)]
    refine ((variable_implements hd).reads _ h hguard).bind (fun _ h => h) fun item _ => ?_
    cases item with
    | some s => exact ReadsTwice.pure (by simp [ReadsTwice.moveRound]) ⟨_, rfl⟩
    | none => exact ReadsTwice.pure (by simp [ReadsTwice.moveRound]) ⟨_, rfl⟩
  rcases Derives.alt_iff.mp h with h | h
  · cases h with
    | except h hnot =>
      obtain ⟨w, v, rfl, -⟩ := h.exists_cons rfl
      have hif : w.kind ≠ .kwIf := fun hk => hnot w rfl (Terminal.fits_kind hk)
      by_cases hmem : w.kind ∈ statementKinds
      · have happart : ∀ kd ∈ statementKinds, ¬ (kd = .rbrace ∨ decide (kd = .eof) = true)
            ∧ ¬ topLevelKinds.contains kd = true ∧ ¬ variableKinds.contains kd = true
            ∧ statementKinds.contains kd = true := by
          decide
        obtain ⟨hclose, htop, hvariable, hstatement⟩ := happart _ hmem
        rw [valueStep_bind, valueStep_bind]
        refine .kind ?_
        simp only [if_neg hclose, if_neg htop, if_neg hvariable, if_pos hstatement]
        rw [← append_nil (w :: v)]
        refine (hs.reads _ h hfair).bind (fun _ h => h) fun s _ => ?_
        exact ReadsTwice.pure (by simp [ReadsTwice.moveRound]) ⟨_, rfl⟩
      · -- a statement that starts with no other kind is an expression
        have hdead : ∀ ks : List Kind, ks.all (Kind.kwIf :: statementKinds).contains = true →
            w.kind ∉ ks := by
          intro ks hks hks'
          have hin := contains_iff_mem.mp (all_eq_true.mp hks _ hks')
          rcases mem_cons.mp hin with hin | hin
          · exact hif hin
          · exact hmem hin
        have hstmt : Derived (.rule .exprStmt) (w :: v) := .prune hdead (Derives.rule_iff.mp h)
        obtain ⟨x, y, heq, hx, hy⟩ := Derives.seq_iff.mp (Derives.rule_iff.mp hstmt)
        cases hx with
        | except hx _ =>
          refine hexpr ?_
          rw [heq]
          exact .seq hx hy
  · exact hexpr h

theorem valueItems_implements :
    Implements d k anyWord (valueItems declaration statement expression)
      (valueItems declaration' statement' expression')
      (.seq (.many (.rule .declarationOrStmt)) (.rule .expression))
      (fun kd => ExprEnd kd ∧ kd ≠ .semicolon) (valueItemsDown d) (·.2.isSome = true) := by
  refine Implements.loop (μ := List.map (Stmt.down d)) rfl (.solid rfl (by decide))
    (valueStep_sound hd hs he) (fun items ws hws hfair => valueStep_reads_item hd hs he items hws
    hfair) (fun items ws hws hfair => ?_) []
  obtain ⟨w, v, rfl, hw⟩ := hws.exists_cons rfl
  exact valueStep_reads_expression hw (valueTail_reads_value he items hws hfair)

/-- A block with its value, moved. -/
def valueBlockDown (d : Nat) (r : Block × Expr) : Block × Expr :=
  (r.1.down d, r.2.down d)

theorem valueBlock_implements :
    Implements d k anyWord (valueBlock declaration statement expression context)
      (valueBlock declaration' statement' expression' context) (.rule .valueBlock)
      (fun _ => True) (valueBlockDown d) anyValue := by
  refine .rule (.expect rfl fun left _ => ?_)
  refine Implements.congr ?_ fun _ => Derives.seq_assoc_iff
  refine (valueItems_implements hd hs he).bind_where (Q := fun _ => True)
    (.mono (valueItems_implements hd hs he).sound (fun _ h => h) fun _ _ _ => trivial)
    (.solid rfl (by decide)) (fun r hr => ?_) fun r hr => ?_
  · obtain ⟨items, value?⟩ := r
    cases value? with
    | none => cases hr
    | some value =>
      refine .expect rfl fun right _ => ?_
      refine .spanOf fun s => .spanOf fun s' => .pure ?_ trivial
      simp only [valueBlockDown, Block.down, Span.upTo_down, stmtsDown_eq]
  · obtain ⟨items, value?⟩ := r
    cases value? with
    | none => exact .failHere _
    | some value => exact absurd rfl hr

theorem conditional_implements :
    Implements d (k + 1) (fun w => w.kind = .kwIf) (conditional declaration statement expression)
      (conditional declaration' statement' expression') (.rule .ifExpr) (fun _ => True)
      (Expr.down d) anyValue := by
  refine .rule (.next (by decide) (fun w hw => Terminal.fits_kind hw) ?_)
  refine fun start _ => .expect rfl fun _ _ => ?_
  refine he.bind (.solid rfl (by decide)) fun condition => ?_
  refine .expect rfl fun _ _ => ?_
  refine (valueBlock_implements hd hs he).bind (.solid rfl fun _ _ => trivial) fun thenPart => ?_
  refine .expect rfl fun _ _ => ?_
  refine (valueBlock_implements hd hs he).bind (.empty fun _ _ => trivial) fun elsePart => ?_
  refine .spanOf fun s => .pure ?_ trivial
  simp only [Expr.down, Block.span_down, Span.upTo_down]

theorem conditional_value :
    Spells (fun w => w.kind = .kwIf) (conditional declaration statement expression)
      fun a _ => isTarget a = false := by
  have hblock : ∀ context : String,
      Spells anyWord (valueBlock declaration statement expression context) fun _ _ => True :=
    fun _ => (valueBlock_implements hd hs he).sound.imp fun _ _ _ => trivial
  have hexpr : Spells anyWord expression fun _ _ => True :=
    he.sound.imp fun _ _ _ => trivial
  refine .next (fun w hw => by rw [hw]; decide) fun start _ => ?_
  refine .expect rfl fun _ _ => hexpr.bind fun condition => ?_
  refine .expect rfl fun _ _ => (hblock _).bind fun thenPart => ?_
  refine .expect rfl fun _ _ => (hblock _).bind fun elsePart => ?_
  exact .spanOf fun s => .pure fun _ _ _ _ _ _ => rfl

end ValueBlocks

-- ==== variables

theorem typeName_implements :
    Implements d k anyWord (Parser.expect .ident what) (Parser.expect .ident what)
      (.rule .typeName) S (Token.down d) anyValue :=
  .rule (.expect_only (by decide))

theorem typeAnnotation_implements :
    Implements d k anyWord (Parser.behind .colon (Parser.expect .ident what))
      (Parser.behind .colon (Parser.expect .ident what))
      (.opt (.all [.kind .colon, .rule .typeName])) (fun kd => S kd ∧ kd ≠ .colon)
      (Option.map (Token.down d)) anyValue :=
  .behind (by decide) typeName_implements.seq_empty

theorem typeName_down (t? : Option Token) :
    (t?.map (Token.down d)).map (·.lexeme) = t?.map (·.lexeme) := by
  cases t? <;> rfl

/-- A declaration of a variable, once its tokens are known. -/
def variableNode (name : Token) (typeName : Option Token) (isConst isVolatile : Bool)
    (initializer : Option Expr) (stop : Token) : Parser Stmt := do
  return .varDecl ((← Parser.spanOf name).upTo (← Parser.spanOf stop)) name.lexeme
    (typeName.map (·.lexeme)) initializer (!isConst) isConst isVolatile

theorem variableNode_implements :
    Implements d k anyWord (variableNode name typeName isConst isVolatile initializer stop)
      (variableNode (name.down d) (typeName.map (Token.down d)) isConst isVolatile
        (initializer.map (Expr.down d)) (stop.down d)) .empty S (Stmt.down d) anyValue := by
  refine .spanOf fun s => .spanOf fun s' => .pure ?_ trivial
  simp only [typeName_down, Stmt.down, Span.upTo_down, Token.lexeme_down, exprDown?_eq]

theorem variableDecl_implements (he : ImplementsExpr d k expression expression') :
    Implements d k anyWord (variableDecl expression true isConst isVolatile)
      (variableDecl expression' true isConst isVolatile)
      (.all (Rule.variableParts ++ [.kind .semicolon])) S (Stmt.down d) anyValue := by
  refine .expect rfl fun name _ => ?_
  refine (typeAnnotation_implements (S := fun _ => True)).bind (.solid rfl (by decide)) ?_
  intro typeName
  refine (he.seq_empty.behind (by decide)).bind (.solid rfl (by decide)) fun initializer => ?_
  exact .expect rfl fun stop _ => variableNode_implements

theorem variableClause_implements (he : ImplementsExpr d k expression expression') :
    Implements d k anyWord (variableDecl expression false isConst isVolatile)
      (variableDecl expression' false isConst isVolatile) (.all Rule.variableParts)
      (· = .semicolon) (Stmt.down d) anyValue := by
  refine .expect rfl fun name _ => ?_
  refine (typeAnnotation_implements (S := fun _ => True)).bind ?_ fun typeName => ?_
  · exact ⟨by decide, fun _ kd hkd => ⟨trivial, by rw [hkd]; decide⟩⟩
  have hinit : Implements d k anyWord (Parser.behind .assign expression)
      (Parser.behind .assign expression') (.opt (.all [.kind .assign, .rule .expression]))
      (fun kd => ExprEnd kd ∧ kd ≠ .assign) (Option.map (Expr.down d)) anyValue :=
    he.seq_empty.behind (by decide)
  have hnode : ∀ (initializer : Option Expr) (stop : Token), Implements d k anyWord
      (variableNode name typeName isConst isVolatile initializer stop)
      (variableNode (name.down d) (typeName.map (Token.down d)) isConst isVolatile
        (initializer.map (Expr.down d)) (stop.down d)) .empty (· = .semicolon) (Stmt.down d)
      anyValue :=
    fun _ _ => variableNode_implements
  refine ⟨hinit.sound.bind fun initializer => ?_, fun ws hws hfair => ?_⟩
  · -- which token ends the span makes no difference to what is read
    have hdone : ∀ stop, Spells anyWord
        (variableNode name typeName isConst isVolatile initializer stop) fun b v => ∀ u,
        (anyValue initializer → Derived (.opt (.all [.kind .assign, .rule .expression])) u) →
        anyValue b → Derived (.all [.opt (.all [.kind .assign, .rule .expression])]) (u ++ v) :=
      fun stop => (hnode initializer stop).sound.imp fun _ _ hv u hu _ =>
        .seq (hu trivial) (hv trivial)
    cases initializer with
    | none => exact hdone name
    | some value => exact .look (fun c => ⟨c.last, rfl⟩) hdone
  · have hws' := Derives.seq_empty_iff.mp hws
    cases hws' with
    | none =>
      have hread : ReadsTwice d (Parser.behind .assign expression)
          (Parser.behind .assign expression') [] (· = .semicolon) (Option.map (Expr.down d))
          (· = none) := by
        refine .accepts_false (fun kd hkd => ?_) (.pure rfl rfl)
        rw [show nextKind [] kd = .semicolon from hkd]
        decide
      refine hread.bind (fun _ h => h) fun initializer hnone => ?_
      subst hnone
      exact (hnode none name).reads [] .empty hfair
    | some hws' =>
      have hread := Implements.behind_reads (by decide) he.seq_empty hws' hfair
      have hne : ws ≠ [] := by
        rintro rfl
        exact absurd hws'.isNullable (by decide)
      refine .bind_last
        (F := fun initializer => variableNode name typeName isConst isVolatile initializer)
        (H := fun initializer =>
          variableNode (name.down d) (typeName.map (Token.down d)) isConst isVolatile initializer)
        (hread.mono (fun kd hkd => by rw [hkd]; decide) fun _ h => h) hne
        (fun initializer hsome => ?_) (fun initializer hsome => ?_)
          fun initializer stop hsome => ?_
      · cases initializer with
        | none => cases hsome
        | some value => rfl
      · cases initializer with
        | none => cases hsome
        | some value => rfl
      · exact (hnode initializer stop).reads [] .empty hfair.nil

section Qualified

variable {semi : Bool} {ending : List (Ebnf Rule)} {S : Kind → Prop}
  (hdecl : ∀ isConst isVolatile : Bool, Implements d k anyWord
    (variableDecl expression semi isConst isVolatile)
    (variableDecl expression' semi isConst isVolatile) (.all (Rule.variableParts ++ ending)) S
    (Stmt.down d) anyValue)
include hdecl

/-- What stands behind a qualifier: the other one, `let`, both or
neither. -/
theorem qualified_implements (hother : .eof ≠ other) (hlet : other ≠ .kwLet)
    (hident : other ≠ .ident) (isConst isVolatile : Bool → Bool) :
    Implements d k anyWord
      (Parser.accepts other >>= fun b => Parser.accept .kwLet >>= fun _ =>
        variableDecl expression semi (isConst b) (isVolatile b) >>= fun s => pure (some s))
      (Parser.accepts other >>= fun b => Parser.accept .kwLet >>= fun _ =>
        variableDecl expression' semi (isConst b) (isVolatile b) >>= fun s => pure (some s))
      (.all (.opt (.kind other) :: .opt (.kind .kwLet) :: Rule.variableParts ++ ending)) S
      (Option.map (Stmt.down d)) (·.isSome = true) := by
  have hstarts : ∀ kd ∈ [Kind.kwLet, .ident], kd ≠ other := by
    intro kd hkd
    rcases mem_cons.mp hkd with rfl | hkd
    · exact Ne.symm hlet
    · rw [mem_singleton.mp hkd]
      exact Ne.symm hident
  refine .accepts hother (.solid rfl hstarts) fun b => ?_
  refine .accept (by decide)
    (.solid rfl (show ∀ kd ∈ [Kind.ident], kd ≠ .kwLet by decide)) fun _ => ?_
  exact (hdecl (isConst b) (isVolatile b)).bind_pure (fun _ => rfl) fun _ => rfl

theorem qualifiedDecl_isSome :
    Spells (fun w => w.kind ∈ variableKinds) (qualifiedDecl? expression semi) fun a _ =>
      a.isSome = true := by
  have hvar : ∀ isConst isVolatile : Bool, Spells anyWord
      (variableDecl expression semi isConst isVolatile >>= fun s => pure (some s)) fun a _ =>
        a.isSome = true := by
    refine fun isConst isVolatile => .bind (D := fun _ _ => True) ?_ fun s => ?_
    · exact (hdecl isConst isVolatile).sound.imp fun _ _ _ => trivial
    · exact .pure fun _ _ => rfl
  have hlet : ∀ isConst isVolatile : Bool, Spells anyWord
      (Parser.accept .kwLet >>= fun _ =>
        variableDecl expression semi isConst isVolatile >>= fun s => pure (some s)) fun a _ =>
        a.isSome = true := fun isConst isVolatile =>
    .accept (by decide) (fun _ _ => hvar isConst isVolatile)
      ((hvar isConst isVolatile).mono (fun _ _ => trivial) fun _ _ h => h)
  refine .accepts (by decide) (fun _ _ => ?_) (.accepts (by decide) (fun _ _ => ?_)
    (.accepts (by decide) (fun _ _ => hvar false false) fun c hc => ?_))
  · exact .accepts (by decide) (fun _ _ => hlet true true)
      ((hlet true false).mono (fun _ _ => trivial) fun _ _ h => h)
  · exact .accepts (by decide) (fun _ _ => hlet true true)
      ((hlet false true).mono (fun _ _ => trivial) fun _ _ h => h)
  · have hmem : c.peek.word.kind ∈ variableKinds := hc.1.1.1
    simp only [variableKinds, mem_cons, not_mem_nil, or_false] at hmem
    rcases hmem with h | h | h
    · exact absurd h hc.2
    · exact absurd h hc.1.1.2
    · exact absurd h hc.1.2

theorem qualifiedDecl_implements :
    Implements d k (fun w => w.kind ∈ variableKinds) (qualifiedDecl? expression semi)
      (qualifiedDecl? expression' semi) (Rule.variableForms ending) S (Option.map (Stmt.down d))
      (·.isSome = true) := by
  have hlet : Implements d k (fun w => w.kind = .kwLet) (qualifiedDecl? expression semi)
      (qualifiedDecl? expression' semi)
      (.all (.kind .kwLet :: Rule.variableParts ++ ending)) S (Option.map (Stmt.down d))
      (·.isSome = true) := by
    refine .accepts_other rfl (fun w hw => by rw [hw]; decide) ?_
    refine .accepts_other rfl (fun w hw => by rw [hw]; decide) ?_
    refine .accepts_here (by decide) (fun _ hw => hw) ?_
    exact (hdecl false false).bind_pure (fun _ => rfl) fun _ => rfl
  have hconst : Implements d k (fun w => w.kind = .kwConst) (qualifiedDecl? expression semi)
      (qualifiedDecl? expression' semi)
      (.all (.kind .kwConst :: .opt (.kind .kwVolatile) :: .opt (.kind .kwLet)
        :: Rule.variableParts ++ ending)) S (Option.map (Stmt.down d)) (·.isSome = true) :=
    .accepts_here (by decide) (fun _ hw => hw)
      (qualified_implements hdecl (by decide) (by decide) (by decide) (fun _ => true) id)
  have hvolatile : Implements d k (fun w => w.kind = .kwVolatile)
      (qualifiedDecl? expression semi) (qualifiedDecl? expression' semi)
      (.all (.kind .kwVolatile :: .opt (.kind .kwConst) :: .opt (.kind .kwLet)
        :: Rule.variableParts ++ ending)) S (Option.map (Stmt.down d)) (·.isSome = true) := by
    refine .accepts_other rfl (fun w hw => by rw [hw]; decide) ?_
    exact .accepts_here (by decide) (fun _ hw => hw)
      (qualified_implements hdecl (by decide) (by decide) (by decide) id fun _ => true)
  refine .by_word rfl fun w hw => ?_
  have hword : ∀ {kd : Kind}, w.kind = kd → ∀ x, x = w → x.kind = kd := fun hkd x hx => hx ▸ hkd
  simp only [variableKinds, mem_cons, not_mem_nil, or_false] at hw
  rcases hw with hw | hw | hw
  · exact .prune_kind .kwLet rfl (hword hw)
      (hlet.mono (Nat.le_refl k) (hword hw) fun _ h => h)
  · exact .prune_kind .kwConst rfl (hword hw)
      (hconst.mono (Nat.le_refl k) (hword hw) fun _ h => h)
  · exact .prune_kind .kwVolatile rfl (hword hw)
      (hvolatile.mono (Nat.le_refl k) (hword hw) fun _ h => h)

theorem qualifiedDecl_bind
    (hsome : ∀ s : Stmt, Implements d k anyWord (f (some s)) (g (some (s.down d))) .empty S ν R)
    (hnone : Spells anyWord (f none) fun _ _ => True) :
    Implements d k (fun w => w.kind ∈ variableKinds) (qualifiedDecl? expression semi >>= f)
      (qualifiedDecl? expression' semi >>= g) (Rule.variableForms ending) S ν R := by
  have h : Implements d k (fun w => w.kind ∈ variableKinds) (qualifiedDecl? expression semi >>= f)
      (qualifiedDecl? expression' semi >>= g) (.seq (Rule.variableForms ending) .empty) S ν R := by
    refine (qualifiedDecl_implements hdecl).bind_where (qualifiedDecl_isSome hdecl)
      (.empty fun _ h => h) (fun item hitem => ?_) fun item hitem => ?_
    · cases item with
      | none => cases hitem
      | some s => exact hsome s
    · cases item with
      | none => exact hnone.imp fun _ _ _ hsome => by cases hsome
      | some s => exact absurd rfl hitem
  exact h.congr fun _ => Derives.seq_empty_iff

end Qualified

end SketchCompiler
