/-
Which operators bind tighter.  Operands with binary operators between
them are read as a tree (`OpTree`) that has them in the order in which
they stand, and in which an operator binds no tighter than one of its
left operand and less tightly than one of its right operand
(`Grammar.expressionAt_ordered`).  Together this says how tightly each
operator binds, and that operators that bind equally tightly associate to
the left.

The tree is put together by an induction on the levels of operators, and
within one level by an induction on the operators of the level, from left
to right.  What an operand is plays no part.
-/
import SketchCompiler.Proofs.Image
import SketchCompiler.Proofs.Reads

namespace SketchCompiler

open List Grammar

variable {op : Token}

-- ==== operators

/-- How tightly a binary operator binds; nothing else does at all. -/
def Kind.precedence : Kind → Nat
  | .orOr => 1
  | .andAnd => 2
  | .pipe => 3
  | .caret => 4
  | .amp => 5
  | .equal | .notEqual => 6
  | .greater | .greaterEqual | .less | .lessEqual => 7
  | .shiftLeft | .shiftRight => 8
  | .plus | .minus => 9
  | .star | .slash | .percent => 10
  | _ => 0

/-- The operator works on the bits of its operands. -/
def Kind.isBitwise : Kind → Bool
  | .pipe | .caret | .amp | .shiftLeft | .shiftRight => true
  | _ => false

/-- Operands with operators between them. -/
inductive OpTree where
  | operand (e : Expr)
  | node (left : OpTree) (op : Token) (right : OpTree)

namespace OpTree

/-- The expression of a tree. -/
def expr : OpTree → Expr
  | operand e => e
  | node left op right =>
    let span := left.expr.span.upTo right.expr.span
    if op.kind.isBitwise then .bitwise span left.expr op.lexeme right.expr
    else .binary span left.expr op.lexeme right.expr

/-- The first operand, and the operators with the operands behind
them. -/
def inOrder : OpTree → Expr × List (Token × Expr)
  | operand e => (e, [])
  | node left op right =>
    (left.inOrder.1, left.inOrder.2 ++ (op, right.inOrder.1) :: right.inOrder.2)

/-- The operator of a tree that is no operand. -/
def root? : OpTree → Option Kind
  | operand _ => none
  | node _ op _ => some op.kind

/-- Each operator binds no tighter than that of its left side, and less
tightly than that of its right side. -/
def Ordered : OpTree → Prop
  | operand _ => True
  | node left op right =>
    left.Ordered ∧ right.Ordered ∧ (∀ k ∈ left.root?, op.kind.precedence ≤ k.precedence)
      ∧ ∀ k ∈ right.root?, op.kind.precedence < k.precedence

end OpTree

/-- From the cursor, operators with operands behind them are read up to
`stop`.  Each operand is read to its end: where it stops stands the next
operator. -/
inductive Follows (operand : Parser Expr) : Cursor → List (Token × Expr) → Cursor → Prop
  | done {c : Cursor} : Follows operand c [] c
  | more {c c₁ stop : Cursor} {e : Expr} {parts : List (Token × Expr)}
    (hrun : operand c.advance = .ok e c₁) (hrest : Follows operand c₁ parts stop) :
    Follows operand c ((c.peek, e) :: parts) stop

-- ==== levels

/-- The levels bind more and more tightly, the operators of one equally,
and those of a bitwise level are the bitwise ones. -/
structure Graded (ls : List Level) : Prop where
  apart : ls.Pairwise fun l l' =>
    ∀ k ∈ l.operators, ∀ k' ∈ l'.operators, k.precedence < k'.precedence
  alike : ∀ l ∈ ls, ∀ k ∈ l.operators,
    (∀ k' ∈ l.operators, k.precedence = k'.precedence) ∧ k.isBitwise = l.isBitwise ∧ k ≠ .eof

theorem levels_graded : Graded levels := ⟨by decide, by decide⟩

theorem mem_operators (h : k.precedence ≠ 0) : k ∈ levels.flatMap Level.operators := by
  cases k <;> first | decide | exact absurd rfl h

theorem OpTree.expr_node {left right : OpTree} {level : Level}
    (h : op.kind.isBitwise = level.isBitwise) :
    (OpTree.node left op right).expr = level.node left.expr op right.expr := by
  unfold Level.node
  rw [← h]
  rfl

section Levels

variable {operand : Parser Expr} {c c₁ stop : Cursor} {parts : List (Token × Expr)}

theorem Follows.split (h : Follows operand c parts stop) (kinds : List Kind) :
    ∃ front back mid, parts = front ++ back ∧ Follows operand c front mid
      ∧ Follows operand mid back stop ∧ (∀ part ∈ front, part.1.kind ∉ kinds)
      ∧ (back ≠ [] → mid.kind ∈ kinds) := by
  induction h with
  | done => exact ⟨[], [], _, rfl, .done, .done, by simp, by simp⟩
  | @more c c₁ stop e parts hrun hrest ih =>
    by_cases hk : c.kind ∈ kinds
    · exact ⟨[], _, c, rfl, .done, .more hrun hrest, by simp, fun _ => hk⟩
    · obtain ⟨front, back, mid, rfl, hfront, hback, hkinds, hmid⟩ := ih
      exact ⟨_ :: front, back, mid, rfl, .more hrun hfront, hback,
        forall_mem_cons.mpr ⟨hk, hkinds⟩, hmid⟩

theorem Follows.length_le (h : Follows operand c parts stop)
    (hoperand : ∀ c e c', operand c = .ok e c' → c'.rest.length ≤ c.rest.length)
    (hk : ∀ part ∈ parts, part.1.kind ≠ .eof) : stop.rest.length ≤ c.rest.length := by
  induction h with
  | done => exact Nat.le_refl _
  | @more c c₁ stop e parts hrun hrest ih =>
    obtain ⟨hc, hparts⟩ := forall_mem_cons.mp hk
    have hadvance := Cursor.length_of_le (Cursor.le_advance (c := c) hc)
    exact (ih hparts).trans ((hoperand _ _ _ hrun).trans hadvance)

/-- The parser reads operands with the operators between them, up to
where none of these follows, as an ordered tree. -/
def Orders (operand : Parser Expr) (kinds : List Kind) (p : Parser Expr) : Prop :=
  ∀ c e c₁ parts stop, operand c = .ok e c₁ → Follows operand c₁ parts stop →
    (∀ part ∈ parts, part.1.kind ∈ kinds) → stop.kind ∉ kinds →
    ∃ tree : OpTree, p c = .ok tree.expr stop ∧ tree.inOrder = (e, parts) ∧ tree.Ordered
      ∧ ∀ k ∈ tree.root?, k ∈ kinds

variable (hoperand : ∀ c e c', operand c = .ok e c' → c'.rest.length ≤ c.rest.length)
  {level : Level} {tighter : List Level} (hgraded : Graded (level :: tighter))
  {p : Parser Expr} (hp : Orders operand (tighter.flatMap Level.operators) p)

theorem chainStep_none (hk : c.kind ∉ level.operators) :
    chainStep p level left c = .ok (.done left) c := by
  have hmem : ¬ level.operators.contains c.kind = true := by simpa using hk
  show Parser.bind (Parser.acceptAny level.operators) _ c = _
  unfold Parser.bind Parser.acceptAny
  rw [if_neg hmem]
  rfl

theorem chainStep_some (hk : c.kind ∈ level.operators) (heof : c.kind ≠ .eof)
    (hrun : p c.advance = .ok right stop) :
    chainStep p level left c = .ok (.again (level.node left c.peek right)) stop := by
  have hmem : level.operators.contains c.kind = true := by simpa using hk
  show Parser.bind (Parser.acceptAny level.operators) _ c = _
  unfold Parser.bind Parser.acceptAny
  rw [if_pos hmem]
  show Parser.bind p _ c.advance = _
  unfold Parser.bind
  rw [hrun, Cursor.advance_last heof]
  rfl

include hgraded

theorem Graded.kind_ne_eof (hk : k ∈ (level :: tighter).flatMap Level.operators) : k ≠ .eof := by
  obtain ⟨l, hl, hk⟩ := mem_flatMap.mp hk
  exact (hgraded.alike l hl k hk).2.2

theorem Graded.lt (hk : k ∈ level.operators) (hk' : k' ∈ tighter.flatMap Level.operators) :
    k.precedence < k'.precedence := by
  obtain ⟨l, hl, hk'⟩ := mem_flatMap.mp hk'
  exact (pairwise_cons.mp hgraded.apart).1 l hl k hk k' hk'

/-- An operator of the level makes an ordered node of a tree of the
levels and one of the tighter levels. -/
theorem Graded.ordered {left right : OpTree} (hop : op.kind ∈ level.operators)
    (hleft : left.Ordered) (hright : right.Ordered)
    (hl : ∀ k ∈ left.root?, k ∈ (level :: tighter).flatMap Level.operators)
    (hr : ∀ k ∈ right.root?, k ∈ tighter.flatMap Level.operators) :
    (OpTree.node left op right).Ordered := by
  refine ⟨hleft, hright, fun k hk => ?_, fun k hk => hgraded.lt hop (hr k hk)⟩
  rcases mem_append.mp (hl k hk) with hmem | hmem
  · exact ((hgraded.alike level mem_cons_self _ hop).1 k hmem).le
  · exact (hgraded.lt hop hmem).le

include hoperand hp

/-- An operand of a level is read by the tighter levels, up to the first
operator of the level. -/
theorem operand_orders (hrun : operand c = .ok e c₁) (hparts : Follows operand c₁ parts stop)
    (hkinds : ∀ part ∈ parts, part.1.kind ∈ (level :: tighter).flatMap Level.operators)
    (hstop : stop.kind ∉ (level :: tighter).flatMap Level.operators) :
    ∃ (tree : OpTree) (front back : List (Token × Expr)) (mid : Cursor), parts = front ++ back
      ∧ p c = .ok tree.expr mid ∧ mid.rest.length ≤ c.rest.length ∧ tree.inOrder = (e, front)
      ∧ tree.Ordered ∧ (∀ k ∈ tree.root?, k ∈ tighter.flatMap Level.operators)
      ∧ Follows operand mid back stop ∧ (back ≠ [] → mid.kind ∈ level.operators) := by
  obtain ⟨front, back, mid, rfl, hfront, hback, hapart, hmid⟩ := hparts.split level.operators
  obtain ⟨hkinds, -⟩ := forall_mem_append.mp hkinds
  have htight (part) (hpart : part ∈ front) : part.1.kind ∈ tighter.flatMap Level.operators :=
    (mem_append.mp (hkinds part hpart)).resolve_left (hapart part hpart)
  have hmidKind : mid.kind ∉ tighter.flatMap Level.operators := by
    by_cases hnil : back = []
    · subst hnil
      cases hback
      exact fun hmem => hstop (mem_append_right _ hmem)
    · exact fun hmem => Nat.lt_irrefl _ (hgraded.lt (hmid hnil) hmem)
  obtain ⟨tree, hread, hin, htree, hroot⟩ := hp c e c₁ front mid hrun hfront htight hmidKind
  have hlen := hfront.length_le hoperand fun part hpart => hgraded.kind_ne_eof (hkinds part hpart)
  exact ⟨tree, front, back, mid, rfl, hread, hlen.trans (hoperand _ _ _ hrun), hin, htree, hroot,
    hback, hmid⟩

/-- The operators of a level, from left to right. -/
theorem chain_orders_from {left : OpTree} (hparts : Follows operand c parts stop)
    (hkinds : ∀ part ∈ parts, part.1.kind ∈ (level :: tighter).flatMap Level.operators)
    (hstop : stop.kind ∉ (level :: tighter).flatMap Level.operators)
    (hc : parts ≠ [] → c.kind ∈ level.operators) (hleft : left.Ordered)
    (hroot : ∀ k ∈ left.root?, k ∈ (level :: tighter).flatMap Level.operators) :
    ∃ tree : OpTree, Parser.loop (chainStep p level) left.expr c = .ok tree.expr stop
      ∧ tree.inOrder = (left.inOrder.1, left.inOrder.2 ++ parts) ∧ tree.Ordered
      ∧ ∀ k ∈ tree.root?, k ∈ (level :: tighter).flatMap Level.operators := by
  induction hn : parts.length using Nat.strong_induction_on generalizing parts c left with
  | _ n ih =>
  cases hparts with
  | done =>
    have hdone : chainStep p level left.expr stop = _ :=
      chainStep_none fun hmem => hstop (mem_append_left _ hmem)
    exact ⟨left, Parser.loop_done hdone, by simp, hleft, hroot⟩
  | @more _ c₁ _ e parts hrun hrest =>
    have hop := hc (cons_ne_nil _ _)
    obtain ⟨-, hbit, heof⟩ := hgraded.alike level mem_cons_self _ hop
    obtain ⟨-, hkinds⟩ := forall_mem_cons.mp hkinds
    obtain ⟨right, front, back, mid, rfl, hread, hlen, hin, hright, hr, hback, hmid⟩ :=
      operand_orders hoperand hgraded hp hrun hrest hkinds hstop
    have hlt : mid.rest.length < c.rest.length := by
      rw [Cursor.rest_eq heof]
      exact Nat.lt_succ_of_le hlen
    -- the other operators of the level follow behind the node of this one
    obtain ⟨tree, hloop, hin', htree, hroot'⟩ := ih back.length
      (by rw [← hn, length_cons, length_append]; omega) hback
      (forall_mem_append.mp hkinds).2 hmid (hgraded.ordered hop hleft hright hroot hr)
      (fun k hk => Option.some.inj hk ▸ mem_append_left _ hop) rfl
    refine ⟨tree, Parser.loop_next (chainStep_some hop heof hread) hlt ?_, ?_, htree, hroot'⟩
    · rw [← OpTree.expr_node hbit]
      exact hloop
    · rw [hin']
      simp [OpTree.inOrder, hin]

theorem chain_orders : Orders operand ((level :: tighter).flatMap Level.operators)
    (chain p level) := by
  intro c e c₁ parts stop hrun hparts hkinds hstop
  obtain ⟨left, front, back, mid, rfl, hread, -, hin, hleft, hl, hback, hmid⟩ :=
    operand_orders hoperand hgraded hp hrun hparts hkinds hstop
  obtain ⟨tree, hloop, hin', htree, hroot⟩ := chain_orders_from hoperand hgraded hp hback
    (forall_mem_append.mp hkinds).2 hstop hmid hleft
    fun k hk => mem_append_right _ (hl k hk)
  refine ⟨tree, ?_, by rw [hin', hin], htree, hroot⟩
  exact (Parser.bind_run hread).trans hloop

end Levels

theorem binary_orders {operand : Parser Expr}
    (hoperand : ∀ c e c', operand c = .ok e c' → c'.rest.length ≤ c.rest.length)
    (hgraded : Graded ls) : Orders operand (ls.flatMap Level.operators) (binary operand ls) := by
  induction ls with
  | nil =>
    intro c e c₁ parts stop hrun hparts hkinds _
    cases hparts with
    | done => exact ⟨.operand e, hrun, rfl, trivial, by simp [OpTree.root?]⟩
    | more => exact absurd (hkinds _ mem_cons_self) (by simp)
  | cons level tighter ih =>
    have htighter : Graded tighter :=
      ⟨(pairwise_cons.mp hgraded.apart).2, (forall_mem_cons.mp hgraded.alike).2⟩
    exact chain_orders hoperand hgraded (ih htighter)

/-- Operands, each read to its end, with binary operators between them and
a semicolon behind the last are read as one expression, up to the
semicolon.  It is that of a tree with just these operands and operators
in this order, in which tighter operators stand further inside and equally
tight ones associate to the left. -/
theorem Grammar.expressionAt_ordered {n : Nat} {c c₁ stop : Cursor} {first : Expr}
    {parts : List (Token × Expr)} (hfirst : unaryAt n c = .ok first c₁)
    (hparts : Follows (unaryAt n) c₁ parts stop)
    (hkinds : ∀ part ∈ parts, part.1.kind.precedence ≠ 0) (hstop : stop.kind = .semicolon) :
    ∃ tree : OpTree, expressionAt (n + 1) c = .ok tree.expr stop
      ∧ tree.inOrder = (first, parts) ∧ tree.Ordered := by
  have hoperand (c : Cursor) (e : Expr) (c' : Cursor) (h : unaryAt n c = .ok e c') :
      c'.rest.length ≤ c.rest.length := by
    have hrun := (rules_at True n 0).2.1 (Nat.zero_le _) c (.refl c)
    rw [h] at hrun
    exact Cursor.length_of_le hrun.1
  obtain ⟨tree, hread, hin, htree, -⟩ := binary_orders hoperand levels_graded c first c₁ parts stop
    hfirst hparts (fun part hpart => mem_operators (hkinds part hpart)) (by rw [hstop]; decide)
  refine ⟨tree, ?_, hin, htree⟩
  have hassign : ¬ assignmentOperators.contains stop.kind = true := by rw [hstop]; decide
  refine (Parser.bind_run hread).trans ?_
  show Parser.bind (Parser.acceptAny assignmentOperators) _ stop = _
  unfold Parser.bind Parser.acceptAny
  rw [if_neg hassign]
  rfl

/-- The tokens of `a + b * c;`, from one of them on. -/
def sumFrom (i : Nat) : Cursor :=
  let tokens : List Token := [⟨.ident, "a", ⟨1, 1⟩⟩, ⟨.plus, "+", ⟨1, 3⟩⟩, ⟨.ident, "b", ⟨1, 5⟩⟩,
    ⟨.star, "*", ⟨1, 7⟩⟩, ⟨.ident, "c", ⟨1, 9⟩⟩, ⟨.semicolon, ";", ⟨1, 10⟩⟩, ⟨.eof, "", ⟨1, 11⟩⟩]
  { file := "sketch", rest := tokens.drop i, last := (tokens.take i).getLastD Parser.endMarker }

/-- They are read up to the semicolon, in order. -/
theorem Grammar.expressionAt_ordered_sum : ∃ tree : OpTree,
    expressionAt 2 (sumFrom 0) = .ok tree.expr (sumFrom 5)
      ∧ tree.inOrder.2.map (·.1.lexeme) = ["+", "*"] ∧ tree.Ordered := by
  have hfirst : unaryAt 1 (sumFrom 0) = .ok _ (sumFrom 1) := rfl
  have hparts : Follows (unaryAt 1) (sumFrom 1) _ (sumFrom 5) := .more rfl (.more rfl .done)
  obtain ⟨tree, hread, hin, htree⟩ :=
    Grammar.expressionAt_ordered hfirst hparts (by decide) rfl
  exact ⟨tree, hread, by rw [hin]; rfl, htree⟩

end SketchCompiler
