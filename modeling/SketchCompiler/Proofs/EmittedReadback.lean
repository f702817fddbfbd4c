/-
Generated expressions keep their structure.  The text written for an
expression is read again as the same expression, so no operator of it
can be taken to belong to another operand.  This covers the expressions
whose operators and grouping the target shares (`Expr.Plain`).

A name, a literal and a call are written as they are, every other
expression in parentheses, except for the target of an assignment.  So
what is written always stands for an operand, behind which calls and
members may follow (`Expr.IsOperand`).  A loop over calls and members is
passed through from the innermost callee outwards, which is why the
statement carries on with the rest of the loop.
-/
import SketchCompiler.Proofs.CompactText
import SketchCompiler.Proofs.ExprReadback
import SketchCompiler.Proofs.Image
import SketchCompiler.Sketch.Emit

namespace SketchCompiler

open List Grammar

-- ==== plain expressions

mutual

/-- The expression is built from names, integers below the limit, truth
values, operators, members, calls and plain assignments. -/
def Expr.Plain : Expr → Prop
  | .ident .. => True
  | .literal _ (.int n) _ => n.toNat < 10 ^ digitLimit
  | .literal _ (.bool _) _ => True
  | .unary _ _ e | .postfixed _ e _ | .member _ e _ => e.Plain
  | .binary _ l _ r | .bitwise _ l _ r => l.Plain ∧ r.Plain
  | .assign _ l op r => op = "=" ∧ l.Plain ∧ r.Plain
  | .call _ callee args => callee.Plain ∧ exprsPlain args
  | _ => False

def exprsPlain : List Expr → Prop
  | [] => True
  | e :: es => e.Plain ∧ exprsPlain es

end

mutual

/-- Whether an expression is built so can be decided. -/
def Expr.decidePlain : (e : Expr) → Decidable e.Plain
  | .ident .. | .literal _ (.bool _) _ => .isTrue (by simp only [Expr.Plain])
  | .literal _ (.int n) _ => inferInstanceAs (Decidable (n.toNat < 10 ^ digitLimit))
  | .unary _ _ e | .postfixed _ e _ | .member _ e _ => e.decidePlain
  | .binary _ l _ r | .bitwise _ l _ r =>
    @instDecidableAnd _ _ l.decidePlain r.decidePlain
  | .assign _ l op r =>
    @instDecidableAnd _ _ (inferInstanceAs (Decidable (op = "=")))
      (@instDecidableAnd _ _ l.decidePlain r.decidePlain)
  | .call _ callee args => @instDecidableAnd _ _ callee.decidePlain (decideExprsPlain args)
  | .literal _ (.float _) _ | .literal _ (.text _) _ | .literal _ (.duration ..) _ | .cast ..
  | .structInit .. | .ifElse .. => .isFalse (by simp only [Expr.Plain, not_false_eq_true])

def decideExprsPlain : (es : List Expr) → Decidable (exprsPlain es)
  | [] => .isTrue trivial
  | e :: es => @instDecidableAnd _ _ e.decidePlain (decideExprsPlain es)

end

instance : DecidablePred Expr.Plain :=
  Expr.decidePlain

/-- Words as an operand: in parentheses, unless they are those of a name,
a literal or a call. -/
def Expr.enclose (e : Expr) (ws : List Word) : List Word :=
  match e with
  | .ident .. | .literal .. | .call .. => ws
  | _ => inParens ws

mutual

/-- The words that a plain expression is written as, without parentheses
around all of them. -/
def Expr.openWords : Expr → List Word
  | .ident _ name => [Word.ofText name]
  | .literal _ (.int n) _ => [⟨.int, String.ofList (Nat.toDigits 10 n.toNat)⟩]
  | .literal _ (.bool b) _ => [Word.of (if b then .kwTrue else .kwFalse)]
  | .unary _ op e => Word.operator op :: e.enclose e.openWords
  | .postfixed _ e op => e.enclose e.openWords ++ [Word.operator op]
  | .binary _ l op r | .bitwise _ l op r =>
    l.enclose l.openWords ++ Word.operator op :: r.enclose r.openWords
  | .assign _ l op r => l.openWords ++ Word.operator op :: r.enclose r.openWords
  | .member _ e name => e.enclose e.openWords ++ [Word.of .dot, Word.name name]
  | .call _ callee args => callee.enclose callee.openWords ++ inParens (commas (argsWords args))
  | _ => []

def argsWords : List Expr → List (List Word)
  | [] => []
  | e :: es => e.enclose e.openWords :: argsWords es

end

/-- The words that a plain expression is written as. -/
def Expr.operandWords (e : Expr) : List Word :=
  e.enclose e.openWords

theorem argsWords_eq (es : List Expr) : argsWords es = es.map Expr.operandWords := by
  induction es with
  | nil => rfl
  | cons e es ih => rw [argsWords, ih]; rfl

-- ==== operands

/-- The kinds that the words of an operand start with. -/
def operandKinds : List Kind :=
  [.lparen, .ident, .int, .kwTrue, .kwFalse, .kwAnalogRead]

/-- The words start like an operand, and no colon stands behind a name,
as it does in front of the value of a field. -/
def StartsOperand (ws : List Word) : Prop :=
  ∃ w rest, ws = w :: rest ∧ w.kind ∈ operandKinds
    ∧ (w.kind = .ident → ∀ w' ∈ rest.head?, w'.kind ≠ .colon)

theorem StartsOperand.single (hw : w.kind ∈ operandKinds) : StartsOperand [w] :=
  ⟨w, [], rfl, hw, fun _ _ hnone => by cases hnone⟩

theorem StartsOperand.append (h : StartsOperand ws) (h' : ∀ w ∈ ws'.head?, w.kind ≠ .colon) :
    StartsOperand (ws ++ ws') := by
  obtain ⟨w, rest, rfl, hkind, hnamed⟩ := h
  refine ⟨w, rest ++ ws', rfl, hkind, fun hident w' hw' => ?_⟩
  cases rest with
  | nil => exact h' w' hw'
  | cons v rest => exact hnamed hident w' hw'

theorem not_named {α : Type} {xs : List α} {words : α → List Word} {w w' : Word} {ws : List Word}
    (h : ∀ x ∈ xs, StartsOperand (words x))
    (hws : commas (xs.map words) ++ [Word.of .rparen] = w :: w' :: ws) (hident : w.kind = .ident) :
    w'.kind ≠ .colon := by
  cases xs with
  | nil => cases hws
  | cons x xs =>
    have hstarts : StartsOperand (commas ((x :: xs).map words) ++ [Word.of .rparen]) := by
      cases xs with
      | nil =>
        rw [map_singleton, commas_singleton]
        refine (h x mem_cons_self).append fun w hw => ?_
        injection hw with hw
        rw [← hw]
        decide
      | cons y ys =>
        rw [map_cons, map_cons, commas_cons_cons, append_assoc]
        refine (h x mem_cons_self).append fun w hw => ?_
        injection hw with hw
        rw [← hw]
        decide
    rw [hws] at hstarts
    obtain ⟨v, rest, hv, -, hnamed⟩ := hstarts
    cases hv
    exact hnamed hident w' rfl

theorem StartsOperand.nextKind (h : StartsOperand ws) (k : Kind) :
    nextKind ws k ∈ operandKinds := by
  obtain ⟨w, rest, rfl, hkind, -⟩ := h
  exact hkind

/-- The words are read as the expression, in front of calls and members
that are read on. -/
structure Expr.IsOperand (e : Expr) (ws : List Word) : Prop where
  starts : StartsOperand ws
  reads : ∀ n, ws.length ≤ n + 1 → ∀ {ws' : List Word} {S : Kind → Prop} {R : Expr → Prop},
    (∀ v : Expr, v.bare = e.bare → Reads (Parser.loop (callStep (expressionAt n)) v) ws' S R) →
    Reads (calls (expressionAt n) (primaryAt n)) (ws ++ ws') S R

namespace Expr.IsOperand

variable {e l r : Expr} {ws ws' : List Word} {n : Nat} {span : Span} {op name : String}

theorem of_primary (hstarts : StartsOperand ws)
    (h : ∀ n, ws.length ≤ n + 1 → Reads (primaryAt n) ws (fun _ => True) fun v =>
      v.bare = e.bare) :
    e.IsOperand ws :=
  ⟨hstarts, fun n hn _ _ _ hloop => (h n hn).bind (fun _ _ => trivial) hloop⟩

/-- In front of no call and no member, the operand is read alone. -/
theorem calls (h : e.IsOperand ws) (hn : ws.length ≤ n + 1) :
    Reads (Grammar.calls (expressionAt n) (primaryAt n)) ws (· ∉ [.lparen, .dot])
      fun v => v.bare = e.bare := by
  rw [← append_nil ws]
  exact h.reads n hn fun v hv => .done (callStep_done hv fun _ hk => hk)

/-- In front of nothing that goes on with it, an operand is read with the
operators that may stand around it. -/
theorem operand (h : e.IsOperand ws) (hn : ws.length ≤ n) :
    Reads (unaryAt n) ws (· ∉ postfixKinds) fun v => v.bare = e.bare := by
  have hpos : 0 < ws.length := by
    obtain ⟨w, rest, rfl, -⟩ := h.starts
    exact Nat.succ_pos _
  obtain ⟨m, rfl⟩ : ∃ m, n = m + 1 := ⟨n - 1, by omega⟩
  have hfront : ∀ k ∈ operandKinds, k ∉ frontOperators := by decide
  exact operand_of_calls (h.calls hn) (fun k => hfront _ (h.starts.nextKind k))
    fun k hk hmem => hk (mem_of_mem_take (i := 2) hmem)

/-- An operand is an expression. -/
theorem expression (h : e.IsOperand ws) (hn : ws.length + 1 ≤ n) :
    Reads (expressionAt n) ws (· ∈ exprEnds) fun v => v.bare = e.bare := by
  obtain ⟨m, rfl⟩ : ∃ m, n = m + 1 := ⟨n - 1, by omega⟩
  exact expression_of_operand (h.operand (by omega)) fun k hk => (exprEnds_apart k hk).2.2

theorem expression_eof (h : e.IsOperand ws) (hn : ws.length + 1 ≤ n) :
    Reads (expressionAt n) ws (· = .eof) fun v => v.bare = e.bare := by
  obtain ⟨m, rfl⟩ : ∃ m, n = m + 1 := ⟨n - 1, by omega⟩
  rw [expressionAt_succ]
  refine assignment_quiet (S := (· = .eof)) (binary_quiet (h.operand (by omega)) fun k hk => ?_)
    fun k hk => ⟨hk, ?_⟩
  · rw [show k = .eof from hk]
    decide
  · rw [show k = .eof from hk]
    decide

theorem parens (h : ∀ n, ws.length + 1 ≤ n →
      Reads (expressionAt n) ws (· ∈ exprEnds) fun v => v.bare = e.bare) :
    e.IsOperand (inParens ws) := by
  refine of_primary ⟨Word.of .lparen, _, rfl, by decide, fun hident => ?_⟩ fun n hn =>
    primary_parens (h n ?_)
  · exact absurd (show Kind.lparen = .ident from hident) (by decide)
  simp only [inParens, length_cons, length_append, length_nil] at hn
  omega

-- --------------------------------------------------- names and literals

/-- A name is an operand. -/
theorem ident (h : IsName name) : (Expr.ident span name).IsOperand [Word.ofText name] := by
  rw [h.ofText]
  refine of_primary (.single (by decide : Kind.ident ∈ operandKinds)) fun n _ =>
    primary_name.imp ?_
  rintro v ⟨s, rfl⟩
  rfl

/-- An integer below the limit is an operand. -/
theorem int (hk : 0 ≤ k) (hlimit : k.toNat < 10 ^ digitLimit) :
    (Expr.literal span (.int k) "int").IsOperand
      [⟨.int, String.ofList (Nat.toDigits 10 k.toNat)⟩] := by
  refine of_primary (.single (by decide : Kind.int ∈ operandKinds)) fun n _ =>
    primary_literal (by decide : Kind.int ∈ literalKinds) fun t ht => .spanOf fun s => ?_
  have hread : Numeral.readInt .marked t.lexeme = .ok k := by
    rw [show t.lexeme = _ from congrArg Word.lexeme ht, Numeral.readInt_marked_decimal hlimit,
      Int.toNat_of_nonneg hk]
  simp only [show t.kind = .int from congrArg Word.kind ht]
  exact .number hread (.pure rfl)

/-- A truth value is an operand. -/
theorem bool (b : Bool) : (Expr.literal span (.bool b) "bool").IsOperand
    [Word.of (if b then .kwTrue else .kwFalse)] := by
  have hword : Word.of (if b then .kwTrue else .kwFalse) = (LiteralValue.bool b).word := by
    cases b <;> rfl
  rw [hword]
  refine of_primary (.single ?_) fun n _ =>
    primary_literal (LiteralValue.word_kind _) fun t ht => literalOf_reads ht rfl
  cases b <;> decide

-- ------------------------------------------------------------ operators

/-- An operator in front of an operand, in parentheses. -/
theorem unary (hop : IsTextOf frontOperators op) (h : e.IsOperand ws) :
    (Expr.unary span op e).IsOperand (inParens (Word.operator op :: ws)) := by
  refine parens fun n hn => ?_
  rw [length_cons] at hn
  obtain ⟨m, rfl⟩ : ∃ m, n = m + 2 := ⟨n - 2, by omega⟩
  exact expression_prefixed hop (h.operand (by omega))

theorem postfixed (hop : IsTextOf stepOperators op) (h : e.IsOperand ws) :
    (Expr.postfixed span e op).IsOperand (inParens (ws ++ [Word.operator op])) := by
  refine parens fun n hn => ?_
  rw [length_append, length_singleton] at hn
  obtain ⟨m, rfl⟩ : ∃ m, n = m + 2 := ⟨n - 2, by omega⟩
  have hfront : ∀ k ∈ operandKinds, k ∉ frontOperators := by decide
  have hstarts : StartsOperand (ws ++ [Word.operator op]) := by
    refine h.starts.append fun w hw => ?_
    have hapart : ∀ k ∈ stepOperators, k ≠ .colon := by decide
    injection hw with hw
    rw [← hw]
    exact hapart _ (hop.operator_kind (by decide))
  exact expression_suffixed (h.calls (by omega)) (fun k => hfront _ (hstarts.nextKind k))
    (operator_kind_of_step hop) fun _ hinner => postfixStep_reads hop hinner

theorem binary (hop : IsTextOf (binaryOperators false) op) (hl : l.IsOperand ws)
    (hr : r.IsOperand ws') :
    (Expr.binary span l op r).IsOperand (inParens (ws ++ Word.operator op :: ws')) := by
  refine parens fun n hn => ?_
  rw [length_append, length_cons] at hn
  obtain ⟨m, rfl⟩ : ∃ m, n = m + 1 := ⟨n - 1, by omega⟩
  exact expression_joined hop (hl.operand (by omega)) (hr.operand (by omega))
    fun _ _ _ => bare_binary

/-- A bitwise operator between operands, in parentheses. -/
theorem bitwise (hop : IsTextOf (binaryOperators true) op) (hl : l.IsOperand ws)
    (hr : r.IsOperand ws') :
    (Expr.bitwise span l op r).IsOperand (inParens (ws ++ Word.operator op :: ws')) := by
  refine parens fun n hn => ?_
  rw [length_append, length_cons] at hn
  obtain ⟨m, rfl⟩ : ∃ m, n = m + 1 := ⟨n - 1, by omega⟩
  exact expression_joined hop (hl.operand (by omega)) (hr.operand (by omega))
    fun _ _ _ => bare_bitwise

/-- An assignment, in parentheses, its target in none of its own. -/
theorem assign (hop : IsTextOf assignmentOperators op) (hl : l.IsOperand ws)
    (hr : r.IsOperand ws') (htarget : isTarget l = true) :
    (Expr.assign span l op r).IsOperand (inParens (ws ++ Word.operator op :: ws')) := by
  refine parens fun n hn => ?_
  rw [length_append, length_cons] at hn
  obtain ⟨m, rfl⟩ : ∃ m, n = m + 1 := ⟨n - 1, by omega⟩
  exact expression_assigned hop (hl.operand (by omega)) (hr.expression (by omega)) htarget

-- ---------------------------------------------------- calls and members

/-- A member is an operand, the round of the loop behind its object. -/
theorem member (h : e.IsOperand ws) :
    (Expr.member span e name).IsOperand (ws ++ [Word.of .dot, Word.name name]) := by
  refine ⟨h.starts.append fun w hw => ?_, fun n hn ws' S R hloop => ?_⟩
  · injection hw with hw
    rw [← hw]
    decide
  · rw [length_append] at hn
    rw [append_assoc]
    refine h.reads n (by omega) fun v hv => ?_
    exact .again (callStep_member hv) (cons_ne_nil _ _) (fun _ _ => trivial) hloop

/-- A call is an operand, the round of the loop behind its callee. -/
theorem call {args : List Expr} (h : e.IsOperand ws)
    (hargs : ∀ a ∈ args, a.IsOperand a.operandWords) :
    (Expr.call span e args).IsOperand (ws ++ inParens (commas (args.map Expr.operandWords))) := by
  refine ⟨h.starts.append fun w hw => ?_, fun n hn ws' S R hloop => ?_⟩
  · injection hw with hw
    rw [← hw]
    decide
  · simp only [length_append, inParens, length_cons, length_nil] at hn
    rw [append_assoc]
    refine h.reads n (by omega) fun v hv => ?_
    refine .again (callStep_arguments hv (fun a ha => ?_) (fun a ha => ?_) ?_)
      (cons_ne_nil _ _) (fun _ _ => trivial) hloop
    · have hpos : 0 < ws.length := by
        obtain ⟨w, rest, rfl, -⟩ := h.starts
        exact Nat.succ_pos _
      have hle := length_le_commas (mem_map_of_mem (f := Expr.operandWords) ha)
      exact (hargs a ha).expression (by omega)
    · obtain ⟨w, rest, hrest, hkind, -⟩ := (hargs a ha).starts
      have hclose : ∀ k ∈ operandKinds, k ≠ .rparen := by decide
      exact ⟨w, rest, hrest, hclose _ hkind⟩
    · exact fun w w' ws => not_named fun a ha => (hargs a ha).starts

theorem analogRead (h : e.IsOperand e.operandWords) :
    (Expr.call span (.ident s "analogRead") [e]).IsOperand
      (Word.of .kwAnalogRead :: inParens e.operandWords) := by
  refine of_primary ⟨_, _, rfl, by decide, fun hident => ?_⟩ fun n hn => primary_analogRead ?_
  · exact absurd (show Kind.kwAnalogRead = .ident from hident) (by decide)
  · simp only [inParens, length_cons, length_append, length_nil] at hn
    exact h.expression (by omega)

end Expr.IsOperand

mutual

theorem Expr.Proper.isOperand : ∀ {e : Expr}, e.Proper True → e.Plain → e.IsOperand e.operandWords
  | .ident .., h, _ => .ident h
  | .literal _ (.int _) _, h, hplain => by
    obtain ⟨hn, rfl⟩ := h
    rw [Expr.Plain] at hplain
    exact .int hn hplain
  | .literal _ (.bool b) _, h, _ => by
    obtain rfl := h
    exact .bool b
  | .literal _ (.float _) _, _, hplain | .literal _ (.text _) _, _, hplain
  | .literal _ (.duration _ _) _, _, hplain | .cast .., _, hplain | .structInit .., _, hplain
  | .ifElse .., _, hplain => hplain.elim
  | .unary .., h, hplain => .unary h.1 (h.2.isOperand hplain)
  | .postfixed .., h, hplain => .postfixed h.2 (h.1.isOperand hplain)
  | .binary .., h, hplain => .binary h.2.1 (h.1.isOperand hplain.1) (h.2.2.isOperand hplain.2)
  | .bitwise .., h, hplain => .bitwise h.2.1 (h.1.isOperand hplain.1) (h.2.2.isOperand hplain.2)
  | .assign _ (.ident _ name) _ _, h, hplain =>
    .assign h.2.2.1 (.ident h.1) (h.2.2.2.isOperand hplain.2.2) rfl
  | .assign _ (.member _ object _) _ _, h, hplain =>
    .assign h.2.2.1 (h.1.1.isOperand hplain.2.1).member (h.2.2.2.isOperand hplain.2.2) rfl
  | .assign _ (.literal ..) _ _, h, _ | .assign _ (.unary ..) _ _, h, _
  | .assign _ (.postfixed ..) _ _, h, _ | .assign _ (.binary ..) _ _, h, _
  | .assign _ (.bitwise ..) _ _, h, _ | .assign _ (.assign ..) _ _, h, _
  | .assign _ (.cast ..) _ _, h, _ | .assign _ (.call ..) _ _, h, _
  | .assign _ (.structInit ..) _ _, h, _ | .assign _ (.ifElse ..) _ _, h, _ => by cases h.2.1
  | .member .., h, hplain => .parens fun _ hn => (h.1.isOperand hplain).member.expression hn
  | .call _ callee args, h, hplain => by
    have hargs := exprsProper.isOperand h.2 hplain.2
    unfold Expr.operandWords Expr.openWords
    rw [argsWords_eq]
    rcases h.1 with ⟨hname, hone⟩ | hcallee
    · obtain ⟨s, rfl⟩ := Expr.isAnalogRead_iff.mp hname
      obtain ⟨arg, rfl⟩ := length_eq_one_iff.mp hone
      rw [map_singleton, commas_singleton]
      exact .analogRead (hargs arg mem_cons_self)
    · exact .call (hcallee.isOperand hplain.1) hargs

theorem exprsProper.isOperand : ∀ {es : List Expr}, exprsProper True es → exprsPlain es →
    ∀ e ∈ es, e.IsOperand e.operandWords
  | [], _, _, _, he => by cases he
  | _ :: _, h, hplain, e, he => by
    rcases mem_cons.mp he with heq | he
    · rw [heq]
      exact h.1.isOperand hplain.1
    · exact exprsProper.isOperand h.2 hplain.2 e he

end

-- ==== texts

theorem Scans.compact {cs : List Char} {ws : List Word} {text : String} (h : Scans cs ws)
    (htext : text.toList = '(' :: (cs ++ [')'])) : Compact text.toList (inParens ws) := by
  rw [htext]
  exact h.parens

mutual

theorem Expr.Proper.compact (cx : EmitContext) : ∀ {e : Expr}, e.Proper True → e.Plain →
    ∃ text, Emit.expr cx e = .ok text ∧ Compact text.toList e.operandWords
  | .ident _ name, h, _ => ⟨name, rfl, by
      rw [show (Expr.ident _ name).operandWords = [Word.ofText name] from rfl, IsName.ofText h]
      exact .name h⟩
  | .literal _ (.int n) _, h, hplain => by
    obtain ⟨hn, rfl⟩ := h
    rw [Expr.Plain] at hplain
    refine ⟨String.ofList (Nat.toDigits 10 n.toNat), ?_, ?_⟩
    · show (Numeral.writeInt n).mapError _ = _
      rw [Numeral.writeInt_eq hn hplain]
      rfl
    · rw [String.toList_ofList]
      exact .decimal _
  | .literal _ (.bool b) _, h, _ => by
    obtain rfl := h
    cases b with
    | true => exact ⟨"true", rfl, .keyword (k := .kwTrue) (by decide)⟩
    | false => exact ⟨"false", rfl, .keyword (k := .kwFalse) (by decide)⟩
  | .literal _ (.float _) _, _, hplain | .literal _ (.text _) _, _, hplain
  | .literal _ (.duration _ _) _, _, hplain | .cast .., _, hplain | .structInit .., _, hplain
  | .ifElse .., _, hplain => hplain.elim
  | .unary _ op e, h, hplain => by
    obtain ⟨t, ht, hcompact⟩ := h.2.compact cx hplain
    refine ⟨"(" ++ op ++ t ++ ")", by simp only [Emit.expr, ht]; rfl, ?_⟩
    exact (hcompact.prefixed h.1).compact (by simp)
  | .postfixed _ e op, h, hplain => by
    obtain ⟨t, ht, hcompact⟩ := h.1.compact cx hplain
    refine ⟨"(" ++ t ++ op ++ ")", by simp only [Emit.expr, ht]; rfl, ?_⟩
    exact (hcompact.scans.suffixed h.2).compact (by simp)
  | .binary _ _ op _, h, hplain | .bitwise _ _ op _, h, hplain => by
    obtain ⟨t, ht, hleft⟩ := h.1.compact cx hplain.1
    obtain ⟨t', ht', hright⟩ := h.2.2.compact cx hplain.2
    refine ⟨"(" ++ t ++ " " ++ op ++ " " ++ t' ++ ")", by simp only [Emit.expr, ht, ht']; rfl, ?_⟩
    exact (hleft.scans.joined h.2.1 (by decide) hright).compact (by simp)
  | .assign _ (.ident _ name) op r, h, hplain => by
    obtain rfl : op = "=" := hplain.1
    obtain ⟨t', ht', hright⟩ := h.2.2.2.compact cx hplain.2.2
    refine ⟨"(" ++ name ++ " = " ++ t' ++ ")", by simp only [Emit.expr, ht']; rfl, ?_⟩
    rw [show (Expr.assign _ (.ident _ name) "=" r).operandWords
      = inParens ([Word.ofText name] ++ Word.operator "=" :: r.operandWords) from rfl,
      IsName.ofText h.1]
    exact ((Compact.name h.1).scans.joined h.2.2.1 (by decide) hright).compact (by simp)
  | .assign _ (.member _ object name) op r, h, hplain => by
    obtain rfl : op = "=" := hplain.1
    obtain ⟨t, ht, hobject⟩ := h.1.1.compact cx hplain.2.1
    obtain ⟨t', ht', hright⟩ := h.2.2.2.compact cx hplain.2.2
    refine ⟨"(" ++ (t ++ "." ++ name) ++ " = " ++ t' ++ ")", by
      simp only [Emit.expr, ht, ht']; rfl, ?_⟩
    exact ((hobject.scans.member h.1.2).joined h.2.2.1 (by decide) hright).compact (by simp)
  | .assign _ (.literal ..) _ _, h, _ | .assign _ (.unary ..) _ _, h, _
  | .assign _ (.postfixed ..) _ _, h, _ | .assign _ (.binary ..) _ _, h, _
  | .assign _ (.bitwise ..) _ _, h, _ | .assign _ (.assign ..) _ _, h, _
  | .assign _ (.cast ..) _ _, h, _ | .assign _ (.call ..) _ _, h, _
  | .assign _ (.structInit ..) _ _, h, _ | .assign _ (.ifElse ..) _ _, h, _ => by cases h.2.1
  | .member _ e name, h, hplain => by
    obtain ⟨t, ht, hcompact⟩ := h.1.compact cx hplain
    refine ⟨"(" ++ t ++ "." ++ name ++ ")", by simp only [Emit.expr, ht]; rfl, ?_⟩
    exact (hcompact.scans.member h.2).compact (by simp)
  | .call _ callee args, h, hplain => by
    obtain ⟨ts, hts, hargs⟩ := exprsProper.compact cx h.2 hplain.2
    obtain ⟨t, ht, hcallee⟩ : ∃ t, Emit.expr cx callee = .ok t
        ∧ Compact t.toList callee.operandWords := by
      rcases h.1 with ⟨hname, -⟩ | hcallee
      · obtain ⟨s, rfl⟩ := Expr.isAnalogRead_iff.mp hname
        exact ⟨"analogRead", rfl, .keyword (k := .kwAnalogRead) (by decide)⟩
      · exact hcallee.compact cx hplain.1
    refine ⟨t ++ "(" ++ ", ".intercalate ts ++ ")", by simp only [Emit.expr, ht, hts]; rfl, ?_⟩
    have htext : (t ++ "(" ++ ", ".intercalate ts ++ ")").toList
        = t.toList ++ '(' :: ([',', ' '].intercalate (ts.map String.toList) ++ [')']) := by
      simp [String.toList_intercalate]
    rw [htext]
    exact hcallee.extend (hcallee.scans.call hargs)

theorem exprsProper.compact (cx : EmitContext) : ∀ {es : List Expr}, exprsProper True es →
    exprsPlain es → ∃ texts, Emit.exprs cx es = .ok texts
      ∧ List.Forall₂ Compact (texts.map String.toList) (argsWords es)
  | [], _, _ => ⟨[], rfl, .nil⟩
  | e :: es, h, hplain => by
    obtain ⟨t, ht, hfirst⟩ := h.1.compact cx hplain.1
    obtain ⟨ts, hts, hrest⟩ := exprsProper.compact cx h.2 hplain.2
    exact ⟨t :: ts, by simp only [Emit.exprs, ht, hts]; rfl, .cons hfirst hrest⟩

end

/-- The text written for a plain expression keeps its structure: what was
read without findings is written as a text without findings, and this is
read to its end as the same expression, spans apart. -/
theorem Emit.expr_reread {source : String} {scanned : Scanned} {start stop : Cursor} {n : Nat}
    {e : Expr} (hscan : Token.scan source = .ok scanned) (hclean : scanned.errors = [])
    (hstart : ∀ t ∈ start.rest, t ∈ scanned.tokens) (hread : expressionAt n start = .ok e stop)
    (hstop : stop.errors = []) (hplain : e.Plain) (cx : EmitContext) (file : String) :
    ∃ text rescanned v behind, Emit.expr cx e = .ok text
      ∧ Token.scan text = .ok rescanned ∧ rescanned.errors = []
      ∧ expressionAt (nesting rescanned.tokens.length)
          { file, rest := rescanned.tokens, last := rescanned.tokens.getLastD Parser.endMarker }
        = .ok v behind
      ∧ v.bare = e.bare ∧ behind.errors = [] ∧ behind.rest.map Token.word = [⟨.eof, ""⟩] := by
  have hlegible : start.All (Token.Legible True) := fun t ht heof =>
    ⟨(Token.scan_spelled hscan hclean t (hstart t ht)).resolve_left heof, fun _ => trivial,
      fun _ => trivial⟩
  have hproper : e.Proper True := by
    have hmeets := (yields_at True n).1 start hlegible
    rw [hread] at hmeets
    exact (hmeets.2 hstop).2
  obtain ⟨text, hemit, hcompact⟩ := hproper.compact cx hplain
  obtain ⟨tokens, hrescan, hwords⟩ := hcompact.scan
  rw [String.ofList_toList] at hrescan
  obtain ⟨ts, rest, rfl, hts, hrest⟩ := List.map_eq_append_iff.mp hwords
  have hlen : e.operandWords.length + 1 ≤ nesting (ts ++ rest).length := by
    rw [← hts, List.length_map, List.length_append, nesting]
    omega
  have heof : headKind rest = .eof := by
    obtain ⟨t, rest, rfl, ht, -⟩ := exists_token_of_word hrest
    exact congrArg Word.kind ht
  obtain ⟨v, last, hrun, hv⟩ := (hproper.isOperand hplain).expression_eof hlen
    { file, rest := ts ++ rest, last := (ts ++ rest).getLastD Parser.endMarker } ts rest rfl
      hts heof
  exact ⟨text, _, v, _, hemit, hrescan, rfl, hrun, hv, rfl, hrest⟩

/-- The text is one plain expression, read without findings. -/
def readsPlain (source : String) : Bool :=
  match Token.scan source with
  | .ok scanned =>
    scanned.errors.isEmpty
      && match expressionAt (nesting scanned.tokens.length)
          { file := "sketch", rest := scanned.tokens, last := Parser.endMarker } with
        | .ok e stop => stop.errors.isEmpty && decide e.Plain
        | _ => false
  | .error _ => false

theorem exists_of_readsPlain (h : readsPlain source = true) :
    ∃ scanned e stop, Token.scan source = .ok scanned ∧ scanned.errors = []
      ∧ expressionAt (nesting scanned.tokens.length)
          { file := "sketch", rest := scanned.tokens, last := Parser.endMarker } = .ok e stop
      ∧ stop.errors = [] ∧ e.Plain := by
  unfold readsPlain at h
  split at h
  · rename_i scanned hscan
    obtain ⟨hclean, hread⟩ := Bool.and_eq_true_iff.mp h
    split at hread
    · rename_i e stop hrun
      obtain ⟨hstop, hplain⟩ := Bool.and_eq_true_iff.mp hread
      exact ⟨scanned, e, stop, hscan, isEmpty_iff.mp hclean, hrun, isEmpty_iff.mp hstop,
        of_decide_eq_true hplain⟩
    · cases hread
  · cases h

/-- An assignment to a member of what a negated call of a call yields,
shifted, keeps its structure. -/
theorem Emit.expr_reread_assignment :
    ∃ scanned e stop text rescanned v behind,
      Token.scan "a.b = -f(1, x--)(!true) << (2 + analogRead(3)) * 0x10" = .ok scanned
      ∧ expressionAt (nesting scanned.tokens.length)
          { file := "sketch", rest := scanned.tokens, last := Parser.endMarker } = .ok e stop
      ∧ Emit.expr ⟨.esp32, fun _ => [], fun _ => .ok "0"⟩ e = .ok text
      ∧ Token.scan text = .ok rescanned ∧ rescanned.errors = []
      ∧ expressionAt (nesting rescanned.tokens.length)
          { file := "code", rest := rescanned.tokens,
            last := rescanned.tokens.getLastD Parser.endMarker } = .ok v behind
      ∧ v.bare = e.bare ∧ behind.errors = [] ∧ behind.rest.map Token.word = [⟨.eof, ""⟩] := by
  have hreads : readsPlain "a.b = -f(1, x--)(!true) << (2 + analogRead(3)) * 0x10" = true := by
    decide +kernel
  obtain ⟨scanned, e, stop, hscan, hclean, hread, hstop, hplain⟩ := exists_of_readsPlain hreads
  obtain ⟨text, rescanned, v, behind, hresult⟩ :=
    Emit.expr_reread hscan hclean (fun _ ht => ht) hread hstop hplain
      ⟨.esp32, fun _ => [], fun _ => .ok "0"⟩ "code"
  exact ⟨scanned, e, stop, text, rescanned, v, behind, hscan, hread, hresult⟩

end SketchCompiler
