/-
Printed expressions are read back.  Every expression is printed in
parentheses, so what the rules for operators see behind an operand is
the end of it: a loop over operators stops at once, and the levels
between an expression and its operands are passed without reading
(`chain_quiet` and the like).  The one level that an operator belongs to
reads it and the operand behind.

`Expr.ReadsBack` states it of the words inside the parentheses.  One
level of nesting more than there are words is enough; with the
parentheses the levels and the words grow alike
(`Expr.ReadsBack.words`).
-/
import SketchCompiler.Proofs.ExprImage
import SketchCompiler.Proofs.PrintedWords
import SketchCompiler.Proofs.Reads

namespace SketchCompiler

open List Grammar

variable {ws : List Word} {w : Word} {v : Expr} {m : Nat}
  {expression : Parser Expr} {span : Span} {typeName : String} {inner : Expr}

-- ==== nothing behind an operand

/-- The operators in front of an operand. -/
def frontOperators : List Kind :=
  [.bang, .minus, .tilde]

section Quiet

variable {operand nested value expression : Parser Expr} {ws : List Word} {S S₁ : Kind → Prop}
  {Q : Expr → Prop}

theorem callStep_done (he : Q e) (hS : ∀ k, S k → k ∉ [.lparen, .dot]) :
    Reads (callStep expression e) [] S fun r => ∃ v, r = .done v ∧ Q v := by
  refine .accepts_false (fun k hk hparen => hS k hk ?_) ?_
  · rw [show k = .lparen from hparen]
    decide
  refine .accepts_false (fun k hk hdot => hS k hk ?_) (.pure ⟨e, rfl, he⟩)
  rw [show k = .dot from hdot]
  decide

theorem calls_quiet (h : Reads operand ws S Q)
    (hS : ∀ k, S₁ k → S k ∧ k ∉ [.lparen, .dot]) : Reads (calls expression operand) ws S₁ Q :=
  (h.mono (fun k hk => (hS k hk).1) fun _ h => h).bind_last fun _ he =>
    .done (callStep_done he fun k hk => (hS k hk).2)

theorem postfixStep_done (he : Q e) (hS : ∀ k, S k → k ∉ [.increment, .decrement, .kwAs]) :
    Reads (postfixStep e) [] S fun r => ∃ v, r = .done v ∧ Q v := by
  refine .acceptAny_none (fun k hk hop => hS k hk ?_) ?_
  · exact mem_of_mem_take (i := 2) hop
  refine .accepts_false (fun k hk has => hS k hk ?_) (.pure ⟨e, rfl, he⟩)
  rw [show k = .kwAs from has]
  decide

theorem postfixed_quiet (h : Reads operand ws S Q)
    (hS : ∀ k, S₁ k → S k ∧ k ∉ [.increment, .decrement, .kwAs]) :
    Reads (postfixed operand) ws S₁ Q :=
  (h.mono (fun k hk => (hS k hk).1) fun _ h => h).bind_last fun _ he =>
    .done (postfixStep_done he fun k hk => (hS k hk).2)

theorem unary_quiet (h : Reads operand ws S Q)
    (hws : ∀ k, S k → nextKind ws k ∉ frontOperators) :
    Reads (unary nested operand) ws S Q :=
  .acceptAny_none hws h

theorem chainStep_done (he : Q e) (hS : ∀ k, S k → k ∉ level.operators) :
    Reads (chainStep operand level e) [] S fun r => ∃ v, r = .done v ∧ Q v :=
  .acceptAny_none hS (.pure ⟨e, rfl, he⟩)

theorem chain_quiet (h : Reads operand ws S Q) (hS : ∀ k, S₁ k → S k ∧ k ∉ level.operators) :
    Reads (chain operand level) ws S₁ Q :=
  (h.mono (fun k hk => (hS k hk).1) fun _ h => h).bind_last fun _ he =>
    .done (chainStep_done he fun k hk => (hS k hk).2)

theorem binary_quiet (h : Reads operand ws S Q)
    (hS : ∀ k, S₁ k → S k ∧ k ∉ ls.flatMap Level.operators) :
    Reads (binary operand ls) ws S₁ Q := by
  induction ls with
  | nil => exact h.mono (fun k hk => (hS k hk).1) fun _ h => h
  | cons level tighter ih =>
    refine chain_quiet (S := S₁) (ih fun k hk => ⟨(hS k hk).1, fun hmem => (hS k hk).2 ?_⟩)
      fun k hk => ⟨hk, fun hmem => (hS k hk).2 ?_⟩
    · exact mem_append_right _ hmem
    · exact mem_append_left _ hmem

/-- The binary operators. -/
def binaryKinds : List Kind :=
  levels.flatMap Level.operators

theorem assignment_quiet (h : Reads (binary operand levels) ws S Q)
    (hS : ∀ k, S₁ k → S k ∧ k ∉ assignmentOperators) :
    Reads (assignment operand value) ws S₁ Q := by
  refine (h.mono (fun k hk => (hS k hk).1) fun _ h => h).bind_last fun e he => ?_
  exact .acceptAny_none (fun k hk => (hS k hk).2) (.pure he)

end Quiet

-- ==== the levels

/-- The kinds that may stand behind a printed expression. -/
def exprEnds : List Kind :=
  [.rparen, .semicolon, .comma, .rbrace, .fatArrow]

/-- The kinds that go on with an operand. -/
def postfixKinds : List Kind :=
  [.lparen, .dot, .increment, .decrement, .kwAs]

/-- Operands without operators, of bounded nesting. -/
def primaryAt (n : Nat) : Parser Expr :=
  primary (expressionAt n) (conditional (declarationAt n) (statementAt n) (expressionAt n))

theorem expressionAt_succ (n : Nat) :
    expressionAt (n + 1) = assignment (unaryAt n) (expressionAt n) :=
  rfl

theorem unaryAt_succ (n : Nat) :
    unaryAt (n + 1) = unary (unaryAt n) (postfixed (calls (expressionAt n) (primaryAt n))) :=
  rfl

section Levels

variable {n : Nat} {ws : List Word} {S : Kind → Prop} {Q : Expr → Prop}

theorem exprEnds_apart :
    ∀ k ∈ exprEnds, k ∉ binaryKinds ∧ k ∉ assignmentOperators ∧ k ∉ postfixKinds := by
  decide

theorem expression_of_operand (h : Reads (unaryAt n) ws S Q) (hS : ∀ k ∈ exprEnds, S k) :
    Reads (expressionAt (n + 1)) ws (· ∈ exprEnds) Q := by
  rw [expressionAt_succ]
  refine assignment_quiet (S := (· ∈ exprEnds)) (binary_quiet h fun k hk => ⟨hS k hk, ?_⟩)
    fun k hk => ⟨hk, ?_⟩
  · exact (exprEnds_apart k hk).1
  · exact (exprEnds_apart k hk).2.1

theorem operand_of_calls (h : Reads (calls (expressionAt n) (primaryAt n)) ws S Q)
    (hws : ∀ k, nextKind ws k ∉ frontOperators) (hS : ∀ k, k ∉ postfixKinds → S k) :
    Reads (unaryAt (n + 1)) ws (· ∉ postfixKinds) Q := by
  rw [unaryAt_succ]
  refine unary_quiet (postfixed_quiet h fun k hk => ⟨hS k hk, fun hmem => hk ?_⟩) fun k _ => hws k
  exact mem_of_mem_drop (i := 2) hmem

theorem operand_of_primary (h : Reads (primaryAt n) ws (fun _ => True) Q)
    (hws : ∀ k, nextKind ws k ∉ frontOperators) :
    Reads (unaryAt (n + 1)) ws (· ∉ postfixKinds) Q := by
  refine operand_of_calls (S := (· ∉ postfixKinds)) (calls_quiet h fun k hk => ⟨trivial, ?_⟩) hws
    fun _ h => h
  exact fun hmem => hk (mem_of_mem_take (i := 2) hmem)

theorem primary_parens {conditional : Parser Expr} (h : Reads expression ws (· ∈ exprEnds) Q) :
    Reads (primary expression conditional) (inParens ws) (fun _ => True) Q := by
  refine .kind fun k _ => ?_
  rw [show nextKind (inParens ws) k = .lparen from rfl, if_neg (by decide), if_neg (by decide),
    if_neg (by decide), if_neg (by decide), if_pos rfl]
  refine .next rfl fun _ _ => h.bind_cons (by decide) fun e he => ?_
  exact .expect rfl fun _ _ => .pure he

end Levels

-- ==== reading back

/-- The words of the expression inside its parentheses are read as the
expression, spans apart. -/
def Expr.ReadsBack (e : Expr) : Prop :=
  ∀ n, e.core.length + 1 ≤ n →
    Reads (expressionAt n) e.core (· ∈ exprEnds) fun v => v.bare = e.bare

section Operands

variable {e : Expr} {n : Nat}

/-- With its parentheses the expression is read as an operand without
operators. -/
theorem Expr.ReadsBack.primary (h : e.ReadsBack) (hn : e.core.length + 1 ≤ n) :
    Reads (primaryAt n) e.words (fun _ => True) fun v => v.bare = e.bare :=
  primary_parens (h n hn)

/-- With its parentheses the expression is read as an operand. -/
theorem Expr.ReadsBack.operand (h : e.ReadsBack) (hn : e.core.length + 2 ≤ n) :
    Reads (unaryAt n) e.words (· ∉ postfixKinds) fun v => v.bare = e.bare := by
  obtain ⟨m, rfl⟩ := Nat.exists_eq_succ_of_ne_zero (by omega : n ≠ 0)
  exact operand_of_primary (h.primary (by omega)) fun _ =>
    (by decide : Kind.lparen ∉ frontOperators)

/-- With its parentheses the expression is read as an expression. -/
theorem Expr.ReadsBack.words (h : e.ReadsBack) (hn : e.core.length + 3 ≤ n) :
    Reads (expressionAt n) e.words (· ∈ exprEnds) fun v => v.bare = e.bare := by
  obtain ⟨m, rfl⟩ := Nat.exists_eq_succ_of_ne_zero (by omega : n ≠ 0)
  exact expression_of_operand (h.operand (by omega)) fun k hk => (exprEnds_apart k hk).2.2

theorem Expr.ReadsBack.of_primary (hcore : e.core = w :: ws) (hw : w.kind ∉ frontOperators)
    (h : ∀ n, ws.length ≤ n → Reads (primaryAt n) (w :: ws) (fun _ => True)
      fun v => v.bare = e.bare) : e.ReadsBack := by
  intro n hn
  rw [hcore, length_cons] at hn
  obtain ⟨m, rfl⟩ : ∃ m, n = m + 2 := ⟨n - 2, by omega⟩
  rw [hcore]
  exact expression_of_operand (operand_of_primary (h m (by omega)) fun _ => hw)
    fun k hk => (exprEnds_apart k hk).2.2

end Operands

-- ==== literals

theorem literalOf_reads (ht : t.word = value.word) (h : value.Proper False typeName) :
    Reads (literalOf t) [] S fun v => v.bare = .literal noSpan value typeName := by
  have hkind : t.kind = value.word.kind := congrArg Word.kind ht
  have hlexeme : t.lexeme = value.word.lexeme := congrArg Word.lexeme ht
  refine .spanOf fun span => ?_
  cases value with
  | int n =>
    obtain ⟨hn, rfl⟩ := h
    have hread : Numeral.readInt .marked t.lexeme = .ok n := by
      rw [hlexeme]
      refine (Numeral.readInt_hexadecimal n.toNat).trans ?_
      rw [Int.toNat_of_nonneg hn]
    simp only [show t.kind = .int from hkind]
    exact .number hread (.pure rfl)
  | float x => exact h.1.elim
  | bool b =>
    obtain rfl := h
    cases b with
    | true =>
      simp only [show t.kind = .kwTrue from hkind]
      exact .pure rfl
    | false =>
      simp only [show t.kind = .kwFalse from hkind]
      exact .pure rfl
  | text s =>
    obtain ⟨-, rfl⟩ := h
    simp only [show t.kind = .string from hkind]
    exact .pure (by rw [Expr.bare, show t.lexeme = s from hlexeme])
  | duration n unit =>
    obtain ⟨hn, hlimit, hunit, rfl⟩ := h
    have hparts : durationParts t.lexeme
        = (String.ofList (Nat.toDigits 10 n.toNat), unit) := by
      rw [hlexeme, show unit = String.ofList unit.toList from String.ofList_toList.symm,
        ← durationParts_append Nat.toDigits_ne_nil (fun d hd => isDigit_of_mem_toDigits hd) hunit,
        String.ofList_append]
      rfl
    have hread : Numeral.readInt .ten (String.ofList (Nat.toDigits 10 n.toNat)) = .ok n := by
      refine (Numeral.readInt_decimal hlimit).trans ?_
      rw [Int.toNat_of_nonneg hn]
    simp only [show t.kind = .duration from hkind, hparts]
    exact .number hread (.pure rfl)

theorem LiteralValue.word_kind (value : LiteralValue) : value.word.kind ∈ literalKinds := by
  cases value with
  | bool b => cases b <;> decide
  | int | float | text | duration => simp [LiteralValue.word, literalKinds]

theorem primary_literal (hw : w.kind ∈ literalKinds)
    (h : ∀ t : Token, t.word = w → Reads (literalOf t) [] (fun _ => True) Q) :
    Reads (primaryAt n) [w] (fun _ => True) Q := by
  have happart : ∀ k ∈ literalKinds, k ≠ .kwIf ∧ k ≠ .eof := by decide
  obtain ⟨hif, heof⟩ := happart _ hw
  refine .kind fun k _ => ?_
  rw [show nextKind [w] k = w.kind from rfl, if_neg hif, if_pos (contains_iff_mem.mpr hw)]
  exact .next (beq_false_of_ne heof) h

theorem primary_name :
    Reads (primaryAt n) [Word.name name] (fun _ => True) fun v => ∃ s, v = .ident s name := by
  refine .kind fun k _ => ?_
  rw [show nextKind [Word.name name] k = .ident from rfl, if_neg (by decide), if_neg (by decide),
    if_pos rfl]
  refine .next rfl fun t ht => .spanOf fun s => .pure ⟨s, ?_⟩
  rw [show t.lexeme = name from congrArg Word.lexeme ht]

/-- Literals are read back. -/
theorem Expr.ReadsBack.literal {value : LiteralValue} (h : value.Proper False typeName) :
    (Expr.literal span value typeName).ReadsBack := by
  have happart : ∀ k ∈ literalKinds, k ∉ frontOperators := by decide
  exact .of_primary rfl (happart _ value.word_kind) fun n _ =>
    primary_literal value.word_kind fun t ht => literalOf_reads ht h

/-- Names are read back. -/
theorem Expr.ReadsBack.ident {name : String} : (Expr.ident span name).ReadsBack := by
  refine .of_primary rfl (by decide : Kind.ident ∉ frontOperators) fun n _ =>
    primary_name.imp ?_
  rintro v ⟨s, rfl⟩
  rfl

-- ==== operators

section Operators

variable {span : Span} {e l r : Expr} {op : String}

theorem expression_prefixed (hop : IsTextOf frontOperators op)
    (h : Reads (unaryAt m) ws (· ∉ postfixKinds) fun v => v.bare = e.bare) :
    Reads (expressionAt (m + 2)) (Word.operator op :: ws) (· ∈ exprEnds)
      fun v => v.bare = (Expr.unary span op e).bare := by
  have hkind := hop.operator_kind (by decide)
  have heof : ∀ k ∈ frontOperators, k ≠ .eof := by decide
  refine expression_of_operand (S := (· ∉ postfixKinds)) ?_ fun k hk => (exprEnds_apart k hk).2.2
  rw [unaryAt_succ]
  refine .acceptAny_some (heof _ hkind) hkind fun t ht => ?_
  refine h.bind_last fun v hv => .spanOf fun s => .pure ?_
  rw [Expr.bare, Expr.bare, hv, show t.lexeme = op from congrArg Word.lexeme ht]

/-- Operators in front of an operand are read back. -/
theorem Expr.ReadsBack.unary (hop : IsTextOf frontOperators op) (h : e.ReadsBack) :
    (Expr.unary span op e).ReadsBack := by
  intro n hn
  have hlen : (Expr.unary span op e).core.length = e.core.length + 3 := by
    simp [Expr.core, inParens]
  obtain ⟨m, rfl⟩ : ∃ m, n = m + 2 := ⟨n - 2, by omega⟩
  exact expression_prefixed hop (h.operand (by omega))

/-- An operand in parentheses, in front of what goes on with it. -/
theorem Expr.ReadsBack.calls (h : e.ReadsBack) (hn : e.core.length + 1 ≤ n) :
    Reads (calls (expressionAt n) (primaryAt n)) e.words (· ∉ [.lparen, .dot])
      fun v => v.bare = e.bare :=
  calls_quiet (h.primary hn) fun _ hk => ⟨trivial, hk⟩

theorem expression_suffixed
    (h : Reads (Grammar.calls (expressionAt m) (primaryAt m)) first (· ∉ [.lparen, .dot])
      fun u => u.bare = e.bare) (hfront : ∀ k, nextKind (first ++ w :: ws) k ∉ frontOperators)
    (hw : w.kind ∉ [.lparen, .dot])
    (hstep : ∀ inner : Expr, inner.bare = e.bare → Reads (postfixStep inner) (w :: ws)
      (fun _ => True) fun r => ∃ a, r = .again a ∧ a.bare = v.bare) :
    Reads (expressionAt (m + 2)) (first ++ w :: ws) (· ∈ exprEnds) fun u => u.bare = v.bare := by
  refine expression_of_operand (S := (· ∉ postfixKinds)) ?_ fun k hk => (exprEnds_apart k hk).2.2
  rw [unaryAt_succ]
  refine unary_quiet (h.bind_cons hw fun inner hinner => ?_) fun k _ => hfront k
  refine .once (hstep inner hinner) (cons_ne_nil _ _) (fun _ _ => trivial) fun a ha => ?_
  exact postfixStep_done ha fun k hk hmem => hk (mem_of_mem_drop (i := 2) hmem)

theorem Expr.ReadsBack.of_postfix (h : e.ReadsBack) (hcore : v.core = e.words ++ w :: ws)
    (hw : w.kind ∉ [.lparen, .dot])
    (hstep : ∀ inner : Expr, inner.bare = e.bare → Reads (postfixStep inner) (w :: ws)
      (fun _ => True) fun r => ∃ a, r = .again a ∧ a.bare = v.bare) : v.ReadsBack := by
  intro n hn
  have hlen : v.core.length = e.core.length + ws.length + 3 := by
    simp [hcore, Expr.words, inParens]
    omega
  obtain ⟨m, rfl⟩ : ∃ m, n = m + 2 := ⟨n - 2, by omega⟩
  rw [hcore]
  exact expression_suffixed (h.calls (by omega))
    (fun _ => (by decide : Kind.lparen ∉ frontOperators)) hw hstep

/-- The operators that change the operand in front of them. -/
def stepOperators : List Kind :=
  [.increment, .decrement]

theorem postfixStep_reads (hop : IsTextOf stepOperators op) (hinner : inner.bare = e.bare) :
    Reads (postfixStep inner) [Word.operator op] (fun _ => True)
      fun r => ∃ a, r = .again a ∧ a.bare = (Expr.postfixed span e op).bare := by
  have hkind := hop.operator_kind (by decide)
  have hapart : ∀ k ∈ stepOperators, k ≠ .eof := by decide
  refine .acceptAny_some (hapart _ hkind) hkind fun t ht => ?_
  refine .spanOf fun s => .pure ⟨_, rfl, ?_⟩
  rw [Expr.bare, Expr.bare, hinner, show t.lexeme = op from congrArg Word.lexeme ht]

theorem operator_kind_of_step (hop : IsTextOf stepOperators op) :
    (Word.operator op).kind ∉ [.lparen, .dot] := by
  have hapart : ∀ k ∈ stepOperators, k ∉ [.lparen, .dot] := by decide
  exact hapart _ (hop.operator_kind (by decide))

theorem Expr.ReadsBack.postfixed (hop : IsTextOf stepOperators op)
    (h : e.ReadsBack) : (Expr.postfixed span e op).ReadsBack :=
  h.of_postfix rfl (operator_kind_of_step hop) fun _ hinner => postfixStep_reads hop hinner

/-- Casts are read back. -/
theorem Expr.ReadsBack.cast (h : e.ReadsBack) : (Expr.cast span e typeName).ReadsBack := by
  refine h.of_postfix rfl (by decide) fun inner hinner => ?_
  refine .acceptAny_none (fun _ _ => (by decide : Kind.kwAs ∉ [.increment, .decrement])) ?_
  refine .accepts_true (by decide) (.expect rfl fun t ht => ?_)
  refine .spanOf fun s => .pure ⟨_, rfl, ?_⟩
  rw [Expr.bare, Expr.bare, hinner, show t.lexeme = typeName from congrArg Word.lexeme ht]

/-- An operator between operands is read by its level: the tighter
levels leave it, the looser ones come to the end. -/
theorem binary_reads (hl : Reads operand ws (· ∉ postfixKinds) L)
    (hr : Reads operand ws' (· ∉ postfixKinds) R) (hw : w.kind ∈ level.operators)
    (heof : w.kind ≠ .eof) (hpost : w.kind ∉ postfixKinds)
    (htight : w.kind ∉ tighter.flatMap Level.operators)
    (hends : ∀ k ∈ exprEnds, k ∉ (looser ++ level :: tighter).flatMap Level.operators) :
    Reads (binary operand (looser ++ level :: tighter)) (ws ++ w :: ws') (· ∈ exprEnds)
      fun v => ∃ a op b, v = level.node a op b ∧ op.word = w ∧ L a ∧ R b := by
  induction looser with
  | nil =>
    have hends' : ∀ k ∈ exprEnds, k ∉ level.operators ∧ k ∉ tighter.flatMap Level.operators :=
      fun k hk => ⟨fun h => hends k hk (mem_append_left _ h),
        fun h => hends k hk (mem_append_right _ h)⟩
    have hleft : Reads (binary operand tighter) ws (· = w.kind) L :=
      binary_quiet hl fun k hk => hk ▸ ⟨hpost, htight⟩
    have hright : Reads (binary operand tighter) ws' (· ∈ exprEnds) R :=
      binary_quiet hr fun k hk => ⟨(exprEnds_apart k hk).2.2, (hends' k hk).2⟩
    refine hleft.bind_cons rfl fun a ha => ?_
    refine .once (.acceptAny_some heof hw fun op hop => ?_) (cons_ne_nil _ _)
      (fun _ hk => hk) fun v hv => chainStep_done hv fun k hk => (hends' k hk).1
    exact hright.bind_last fun b hb => .pure ⟨_, rfl, a, op, b, rfl, hop, ha, hb⟩
  | cons first looser ih =>
    refine chain_quiet (S := (· ∈ exprEnds)) (ih fun k hk h => hends k hk ?_)
      fun k hk => ⟨hk, fun h => hends k hk ?_⟩
    · exact mem_append_right _ h
    · exact mem_append_left _ h

private theorem levels_apart :
    levels.Pairwise fun a b => ∀ k ∈ a.operators, k ∉ b.operators := by
  decide

theorem expression_joined (hop : IsTextOf (binaryOperators isBitwise) op)
    (hl : Reads (unaryAt m) ws (· ∉ postfixKinds) fun u => u.bare = l.bare)
    (hr : Reads (unaryAt m) ws' (· ∉ postfixKinds) fun u => u.bare = r.bare)
    (hnode : ∀ (a b : Expr) (s : Span), a.bare = l.bare → b.bare = r.bare →
      (if isBitwise then Expr.bitwise s a op b else Expr.binary s a op b).bare = v.bare) :
    Reads (expressionAt (m + 1)) (ws ++ Word.operator op :: ws') (· ∈ exprEnds)
      fun u => u.bare = v.bare := by
  have hoperators : ∀ isBitwise, ∀ k ∈ binaryOperators isBitwise, k ∈ operators.map (·.2) := by
    decide
  obtain ⟨level, hlevel, hkind⟩ := mem_flatMap.mp (hop.operator_kind (hoperators isBitwise))
  obtain ⟨hmem, hbit⟩ := mem_filter.mp hlevel
  obtain ⟨looser, tighter, hsplit⟩ := append_of_mem hmem
  have hapart : ∀ level ∈ levels, ∀ k ∈ level.operators, k ≠ .eof ∧ k ∉ postfixKinds := by decide
  have htight : (Word.operator op).kind ∉ tighter.flatMap Level.operators := by
    have hpair := levels_apart
    rw [hsplit] at hpair
    intro h
    obtain ⟨level', hlevel', hk'⟩ := mem_flatMap.mp h
    have hrel := (pairwise_cons.mp (pairwise_append.mp hpair).2.1).1 level' hlevel'
    exact hrel _ hkind hk'
  have hbinary : Reads (Grammar.binary (unaryAt m) levels) (ws ++ Word.operator op :: ws')
      (· ∈ exprEnds) fun u => ∃ a op' b, u = level.node a op' b ∧ op'.word = Word.operator op
        ∧ a.bare = l.bare ∧ b.bare = r.bare := by
    rw [hsplit]
    refine binary_reads hl hr hkind
      (hapart level hmem _ hkind).1 (hapart level hmem _ hkind).2 htight fun k hk => ?_
    rw [← hsplit]
    exact (exprEnds_apart k hk).1
  rw [expressionAt_succ]
  refine (assignment_quiet (S := (· ∈ exprEnds)) hbinary fun k hk =>
    ⟨hk, (exprEnds_apart k hk).2.1⟩).imp ?_
  rintro u ⟨a, t, b, rfl, ht, ha, hb⟩
  have hlexeme : t.lexeme = op := congrArg Word.lexeme ht
  have hbit' : level.isBitwise = isBitwise := by simpa using hbit
  unfold Level.node
  rw [hlexeme, hbit']
  exact hnode a b _ ha hb

theorem Expr.ReadsBack.of_binary (hop : IsTextOf (binaryOperators isBitwise) op)
    (hl : l.ReadsBack) (hr : r.ReadsBack)
    (hcore : v.core = l.words ++ Word.operator op :: r.words)
    (hnode : ∀ (a b : Expr) (s : Span), a.bare = l.bare → b.bare = r.bare →
      (if isBitwise then Expr.bitwise s a op b else Expr.binary s a op b).bare = v.bare) :
    v.ReadsBack := by
  intro n hn
  have hlen : v.core.length = l.core.length + r.core.length + 5 := by
    simp [hcore, Expr.words, inParens]
    omega
  obtain ⟨m, rfl⟩ : ∃ m, n = m + 1 := ⟨n - 1, by omega⟩
  rw [hcore]
  exact expression_joined hop (hl.operand (by omega)) (hr.operand (by omega)) hnode

theorem bare_binary (ha : a.bare = l.bare) (hb : b.bare = r.bare) :
    (if false = true then Expr.bitwise s a op b else Expr.binary s a op b).bare
      = (Expr.binary span l op r).bare := by
  show Expr.binary noSpan a.bare op b.bare = _
  rw [ha, hb]
  rfl

theorem bare_bitwise (ha : a.bare = l.bare) (hb : b.bare = r.bare) :
    (if true = true then Expr.bitwise s a op b else Expr.binary s a op b).bare
      = (Expr.bitwise span l op r).bare := by
  show Expr.bitwise noSpan a.bare op b.bare = _
  rw [ha, hb]
  rfl

theorem Expr.ReadsBack.binary (hop : IsTextOf (binaryOperators false) op) (hl : l.ReadsBack)
    (hr : r.ReadsBack) : (Expr.binary span l op r).ReadsBack :=
  .of_binary hop hl hr rfl fun _ _ _ => bare_binary

theorem Expr.ReadsBack.bitwise (hop : IsTextOf (binaryOperators true) op) (hl : l.ReadsBack)
    (hr : r.ReadsBack) : (Expr.bitwise span l op r).ReadsBack :=
  .of_binary hop hl hr rfl fun _ _ _ => bare_bitwise

theorem isTarget_bare (e : Expr) : isTarget e.bare = isTarget e := by
  cases e <;> rfl

theorem expression_assigned (hop : IsTextOf assignmentOperators op)
    (hl : Reads (unaryAt m) ws (· ∉ postfixKinds) fun v => v.bare = l.bare)
    (hr : Reads (expressionAt m) ws' (· ∈ exprEnds) fun v => v.bare = r.bare)
    (htarget : isTarget l = true) :
    Reads (expressionAt (m + 1)) (ws ++ Word.operator op :: ws') (· ∈ exprEnds)
      fun v => v.bare = (Expr.assign span l op r).bare := by
  have hkind := hop.operator_kind (by decide)
  have hapart : ∀ k ∈ assignmentOperators, k ≠ .eof ∧ k ∉ postfixKinds ∧ k ∉ binaryKinds := by
    decide
  obtain ⟨heof, hpost, hbin⟩ := hapart _ hkind
  have hleft : Reads (Grammar.binary (unaryAt m) levels) ws (· = (Word.operator op).kind)
      fun v => v.bare = l.bare :=
    binary_quiet hl fun k hk => hk ▸ ⟨hpost, hbin⟩
  rw [expressionAt_succ]
  refine hleft.bind_cons rfl fun a ha => .acceptAny_some heof hkind fun t ht => ?_
  refine hr.bind_last fun b hb => ?_
  have hta : isTarget a = true := by
    rw [← isTarget_bare, ha, isTarget_bare]
    exact htarget
  rw [if_pos hta]
  refine .pure ?_
  rw [Expr.bare, Expr.bare, ha, hb, show t.lexeme = op from congrArg Word.lexeme ht]

/-- Assignments are read back. -/
theorem Expr.ReadsBack.assign (hop : IsTextOf assignmentOperators op) (hl : l.ReadsBack)
    (hr : r.ReadsBack) (htarget : isTarget l = true) : (Expr.assign span l op r).ReadsBack := by
  intro n hn
  have hlen : (Expr.assign span l op r).core.length = l.core.length + r.core.length + 5 := by
    simp [Expr.core, inParens]
    omega
  obtain ⟨m, rfl⟩ : ∃ m, n = m + 1 := ⟨n - 1, by omega⟩
  exact expression_assigned hop (hl.operand (by omega)) (hr.words (by omega)) htarget

end Operators

-- ==== calls

section Calls

variable {span : Span} {e callee : Expr} {n : Nat}

theorem map_eq_of_forall₂ (h : List.Forall₂ (fun a b => g b = f a) as bs) :
    bs.map g = as.map f := by
  induction h with
  | nil => rfl
  | cons hab _ ih => rw [map_cons, map_cons, hab, ih]

theorem operand_of_callStep (hfirst : Reads (primaryAt n) first (fun _ => True) Q)
    (hfront : ∀ k, nextKind (first ++ w :: ws) k ∉ frontOperators)
    (hstep : ∀ inner : Expr, Q inner → Reads (callStep (expressionAt n) inner) (w :: ws)
      (fun _ => True) fun r => ∃ a, r = .again a ∧ a.bare = v.bare) :
    Reads (unaryAt (n + 1)) (first ++ w :: ws) (· ∉ postfixKinds) fun u => u.bare = v.bare := by
  refine operand_of_calls (S := (· ∉ postfixKinds)) ?_ hfront fun _ h => h
  refine hfirst.bind_cons trivial fun inner hinner => ?_
  refine .once (hstep inner hinner) (cons_ne_nil _ _) (fun _ _ => trivial) fun a ha => ?_
  exact callStep_done ha fun k hk hmem => hk (mem_of_mem_take (i := 2) hmem)

theorem callStep_member (hinner : inner.bare = e.bare) :
    Reads (callStep expression inner) [Word.of .dot, Word.name name] (fun _ => True)
      fun r => ∃ a, r = .again a ∧ a.bare = (Expr.member span e name).bare := by
  refine .accepts_false (fun _ _ => (by decide : Kind.dot ≠ .lparen)) ?_
  refine .accepts_true (by decide) (.expect rfl fun t ht => ?_)
  refine .spanOf fun s => .pure ⟨_, rfl, ?_⟩
  rw [Expr.bare, Expr.bare, hinner, show t.lexeme = name from congrArg Word.lexeme ht]

/-- Members are read back. -/
theorem Expr.ReadsBack.member (h : e.ReadsBack) : (Expr.member span e name).ReadsBack := by
  intro n hn
  have hlen : (Expr.member span e name).core.length = e.core.length + 4 := by
    simp [Expr.core, inParens]
  obtain ⟨m, rfl⟩ : ∃ m, n = m + 2 := ⟨n - 2, by omega⟩
  refine expression_of_operand (S := (· ∉ postfixKinds)) ?_ fun k hk => (exprEnds_apart k hk).2.2
  exact operand_of_callStep (h.primary (by omega))
    (fun _ => (by decide : Kind.lparen ∉ frontOperators)) fun _ hinner => callStep_member hinner

theorem kindBehind_eq {c : Cursor} {ts rest : List Token} {w w' : Word} {ws : List Word}
    (hrest : c.rest = ts ++ rest) (hws : ts.map Token.word = w :: w' :: ws) :
    c.kindBehind = some w'.kind := by
  obtain ⟨t, ts', rfl, -, hws'⟩ := exists_token_of_word hws
  obtain ⟨t', ts'', rfl, ht', -⟩ := exists_token_of_word hws'
  unfold Cursor.kindBehind
  rw [hrest, ← ht']
  rfl

/-- Arguments are read as arguments, unless they start like the fields of
a struct. -/
theorem callStep_arguments {args : List Expr} {words : Expr → List Word}
    (hinner : inner.bare = callee.bare)
    (h : ∀ e ∈ args, Reads expression (words e) (· ∈ exprEnds) fun v => v.bare = e.bare)
    (hfirst : ∀ e ∈ args, ∃ w ws, words e = w :: ws ∧ w.kind ≠ .rparen)
    (hnamed : ∀ w w' ws, commas (args.map words) ++ [Word.of .rparen] = w :: w' :: ws →
      w.kind = .ident → w'.kind ≠ .colon) :
    Reads (callStep expression inner) (inParens (commas (args.map words))) (fun _ => True)
      fun r => ∃ a, r = .again a ∧ a.bare = (Expr.call span callee args).bare := by
  refine .accepts_true (by decide) ?_
  refine .bind_last (Q := fun v => v.bare = (Expr.call span callee args).bare) ?_
    fun v hv => .pure ⟨v, rfl, hv⟩
  refine .get fun c ts rest hrest hws _ => ?_
  have hflag : decide (c.kind = .ident ∧ c.kindBehind = some .colon) = false := by
    refine decide_eq_false fun hflag => ?_
    obtain ⟨hkind, hbehind⟩ := hflag
    -- a single word is the closing parenthesis
    cases hall : commas (args.map words) ++ [Word.of .rparen] with
    | nil => simp at hall
    | cons w ws =>
      rw [hall] at hws
      rw [c.kind_eq hrest hws] at hkind
      cases ws with
      | nil =>
        have hlast : w = Word.of .rparen := by
          have := congrArg getLast? hall
          simpa using this.symm
        rw [hlast] at hkind
        exact absurd (show Kind.rparen = .ident from hkind) (by decide)
      | cons w' ws =>
        rw [kindBehind_eq hrest hws] at hbehind
        exact hnamed w w' ws hall hkind (Option.some.inj hbehind)
  rw [hflag]
  split
  · rename_i hfalse
    cases hfalse
  have hargs : Reads (Parser.separatedUntil .rparen expression) (commas (args.map words))
      (· = .rparen) fun vs => List.Forall₂ (fun e v => v.bare = e.bare) args vs :=
    .separatedUntil h (by decide) (by decide) (by decide) hfirst
  refine hargs.bind_cons rfl fun vs hvs => .expect rfl fun close _ => ?_
  refine .spanOf fun s => .pure ?_
  rw [Expr.bare, Expr.bare, exprsBare_eq, exprsBare_eq, map_eq_of_forall₂ hvs, hinner]

theorem length_le_commas (h : ws ∈ wss) : ws.length ≤ (commas wss).length := by
  induction wss with
  | nil => cases h
  | cons first rest ih =>
    cases rest with
    | nil =>
      rw [mem_singleton.mp h, commas_singleton]
    | cons second rest =>
      rw [commas_cons_cons, length_append, length_cons]
      rcases mem_cons.mp h with rfl | h
      · omega
      · have := ih h
        omega

theorem calleeWords_eq (h : callee.isAnalogRead = false) :
    calleeWords callee core = inParens core := by
  unfold calleeWords
  split
  · simp [Expr.isAnalogRead] at h
  · rfl

/-- Calls are read back. -/
theorem Expr.ReadsBack.call (hcallee : callee.ReadsBack) (hname : callee.isAnalogRead = false)
    (hargs : ∀ e ∈ args, e.ReadsBack) : (Expr.call span callee args).ReadsBack := by
  intro n hn
  have hcore : (Expr.call span callee args).core = callee.words
      ++ Word.of .lparen :: (commas (args.map Expr.words) ++ [Word.of .rparen]) := by
    rw [Expr.core, calleeWords_eq hname, exprsWords_eq]
    rfl
  have hlen : (Expr.call span callee args).core.length
      = callee.core.length + (commas (args.map Expr.words)).length + 4 := by
    rw [hcore]
    simp [Expr.words, inParens]
    omega
  obtain ⟨m, rfl⟩ : ∃ m, n = m + 2 := ⟨n - 2, by omega⟩
  refine expression_of_operand (S := (· ∉ postfixKinds)) ?_ fun k hk => (exprEnds_apart k hk).2.2
  rw [hcore]
  have hreads : ∀ e ∈ args, Reads (expressionAt m) e.words (· ∈ exprEnds)
      fun v => v.bare = e.bare := by
    intro e he
    have hle := length_le_commas (mem_map_of_mem (f := Expr.words) he)
    have hwords : e.words.length = e.core.length + 2 := by simp [Expr.words, inParens]
    exact (hargs e he).words (by omega)
  refine operand_of_callStep (hcallee.primary (by omega))
    (fun _ => (by decide : Kind.lparen ∉ frontOperators)) fun inner hinner =>
      callStep_arguments hinner hreads (fun e _ => ⟨Word.of .lparen, _, rfl, by decide⟩) ?_
  -- every argument starts with a parenthesis
  intro w w' ws hws hkind
  have hfirst : w.kind = .lparen ∨ w.kind = .rparen := by
    cases args with
    | nil => cases hws
    | cons e es => cases es <;> (injection hws with hw; exact .inl (hw ▸ rfl))
  rw [hkind] at hfirst
  rcases hfirst with hfirst | hfirst <;> cases hfirst

theorem primary_analogRead
    (h : Reads (expressionAt n) ws (· ∈ exprEnds) fun v => v.bare = arg.bare) :
    Reads (primaryAt n) (Word.of .kwAnalogRead :: inParens ws) (fun _ => True)
      fun v => v.bare = (Expr.call span (.ident s "analogRead") [arg]).bare := by
  refine .kind fun k _ => ?_
  rw [show nextKind (Word.of .kwAnalogRead :: inParens ws) k = .kwAnalogRead from rfl,
    if_neg (by decide), if_neg (by decide), if_neg (by decide), if_pos rfl]
  refine .next rfl fun t ht => .expect rfl fun _ _ => ?_
  refine h.bind_cons (by decide) fun v hv => ?_
  refine .expect rfl fun close _ => .between fun _ => .spanOf fun _ => ?_
  refine .pure ?_
  show Expr.call noSpan (.ident noSpan "analogRead") [v.bare]
    = Expr.call noSpan (.ident noSpan "analogRead") [arg.bare]
  rw [hv]

theorem Expr.isAnalogRead_iff : callee.isAnalogRead = true ↔
    ∃ s, callee = .ident s "analogRead" := by
  constructor
  · intro h
    cases callee with
    | ident s name => exact ⟨s, by rw [of_decide_eq_true h]⟩
    | _ => cases h
  · rintro ⟨s, rfl⟩
    rfl

theorem Expr.ReadsBack.analogRead (hname : callee.isAnalogRead = true) (harg : arg.ReadsBack) :
    (Expr.call span callee [arg]).ReadsBack := by
  obtain ⟨s, rfl⟩ := Expr.isAnalogRead_iff.mp hname
  have hcore : (Expr.call span (.ident s "analogRead") [arg]).core
      = Word.of .kwAnalogRead :: inParens arg.words := by
    rw [Expr.core, exprsWords_eq]
    simp [calleeWords, commas_singleton]
  refine .of_primary hcore (by decide) fun n hn => primary_analogRead (harg.words ?_)
  have hlen : (inParens arg.words).length = arg.core.length + 4 := by
    simp [Expr.words, inParens]
  omega

theorem fieldInit_reads {f : FieldInit} (h : ∀ name value, f = .mk name value →
      Reads expression value.words (· ∈ exprEnds) fun v => v.bare = value.bare) :
    Reads (fieldInit expression) f.words (· ∈ exprEnds) fun v => v.bare = f.bare := by
  obtain ⟨name, value⟩ := f
  refine .expect rfl fun t ht => .expect rfl fun _ _ => ?_
  refine (h name value rfl).bind_last fun v hv => .pure ?_
  rw [FieldInit.bare, FieldInit.bare, hv, show t.lexeme = name from congrArg Word.lexeme ht]

theorem Expr.ReadsBack.structInit {fields : List FieldInit} (hne : fields ≠ [])
    (hfields : ∀ name value, FieldInit.mk name value ∈ fields → value.ReadsBack) :
    (Expr.structInit span typeName fields).ReadsBack := by
  intro n hn
  have hcore : (Expr.structInit span typeName fields).core = [Word.name typeName]
      ++ Word.of .lparen :: (commas (fields.map FieldInit.words) ++ [Word.of .rparen]) := by
    rw [Expr.core, fieldsWords_eq]
    rfl
  have hlen : (Expr.structInit span typeName fields).core.length
      = (commas (fields.map FieldInit.words)).length + 3 := by
    rw [hcore]
    simp
  obtain ⟨m, rfl⟩ : ∃ m, n = m + 2 := ⟨n - 2, by omega⟩
  refine expression_of_operand (S := (· ∉ postfixKinds)) ?_ fun k hk => (exprEnds_apart k hk).2.2
  rw [hcore]
  have hreads : ∀ f ∈ fields, Reads (fieldInit (expressionAt m)) f.words (· ∈ exprEnds)
      fun v => v.bare = f.bare := by
    intro f hf
    refine fieldInit_reads fun name value hvalue => ?_
    subst hvalue
    have hle := length_le_commas (mem_map_of_mem (f := FieldInit.words) hf)
    have hwords : (FieldInit.mk name value).words.length = value.core.length + 4 := by
      simp [FieldInit.words, inParens]
    exact (hfields name value hf).words (by omega)
  refine operand_of_callStep primary_name (fun _ => (by decide : Kind.ident ∉ frontOperators))
    fun inner hinner => .accepts_true (by decide) ?_
  obtain ⟨s, rfl⟩ := hinner
  refine .bind_last (Q := fun v => v.bare = (Expr.structInit span typeName fields).bare) ?_
    fun v hv => .pure ⟨v, rfl, hv⟩
  refine .get fun c ts rest hrest hws _ => ?_
  have hflag : decide (c.kind = .ident ∧ c.kindBehind = some .colon) = true := by
    obtain ⟨⟨name, value⟩, fields, rfl⟩ := exists_cons_of_ne_nil hne
    obtain ⟨ws', hws'⟩ : ∃ ws', commas ((FieldInit.mk name value :: fields).map FieldInit.words)
        ++ [Word.of .rparen] = Word.name name :: Word.of .colon :: ws' := by
      cases fields <;> exact ⟨_, rfl⟩
    rw [hws'] at hws
    refine decide_eq_true ⟨?_, kindBehind_eq hrest hws⟩
    exact c.kind_eq hrest hws
  rw [hflag]
  have hsep : Reads (Parser.separated (fieldInit (expressionAt m)))
      (commas (fields.map FieldInit.words)) (· = .rparen)
      fun vs => List.Forall₂ (fun f v => v.bare = f.bare) fields vs := by
    refine .separated hne hreads (by decide) ?_
    rintro k rfl
    decide
  refine hsep.bind_cons rfl fun vs hvs => .expect rfl fun close _ => ?_
  refine .spanOf fun _ => .pure ?_
  rw [Expr.bare, Expr.bare, fieldsBare_eq, fieldsBare_eq, map_eq_of_forall₂ hvs]

end Calls

end SketchCompiler
