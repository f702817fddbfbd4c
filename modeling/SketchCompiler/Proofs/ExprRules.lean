/-
The rules for expressions implement their grammar.  Each rule is treated
by itself, under the premise that the rules it refers to implement
theirs.

# Targets and names

What stands on the left of an assignment is read as any operand is, and
only the value tells whether it can be assigned to; whether arguments may
have names is told by whether the value called is a name.  So each rule
from the operands up implements three bodies: its own by all its values,
`assignable` by the targets among them, and `structName` by the names.
Operators make values that are neither, so the last two go through every
rule unchanged (`Atoms`).
-/
import SketchCompiler.Proofs.Implements
import SketchCompiler.Proofs.ExprReadback

namespace SketchCompiler

open List Grammar

open Derives (seq_iff seq_empty_iff kind_iff rule_iff seq_tok_iff alt_iff)

variable {G : Ebnf Rule} {P : Expr → Prop} {r : Rule}

variable {d k : Nat}

/-- The expression is a name. -/
def Expr.IsIdent (e : Expr) : Prop :=
  ∃ span name, e = .ident span name

/-- A condition on expressions that nothing but names and members
meet. -/
def Atoms (P : Expr → Prop) : Prop :=
  ∀ e, P e → isTarget e = true

theorem atoms_isIdent : Atoms Expr.IsIdent := by
  rintro e ⟨span, name, rfl⟩
  rfl

theorem atoms_isTarget : Atoms (isTarget · = true) := fun _ h => h

theorem isTarget_down (e : Expr) : isTarget (e.down d) = isTarget e := by
  cases e <;> simp only [Expr.down, isTarget]

theorem Level.node_down (level : Level) (left right : Expr) (op : Token) :
    level.node (left.down d) (op.down d) (right.down d) = (level.node left op right).down d := by
  unfold Level.node
  cases level.isBitwise <;> simp [Expr.down]

theorem Level.isTarget_node (level : Level) (left right : Expr) (op : Token) :
    isTarget (level.node left op right) = false := by
  unfold Level.node
  cases level.isBitwise <;> rfl

-- ==== binary operators

section Binary

variable {operand operand' : Parser Expr} {level : Level} {S : Kind → Prop}

theorem chainStep_sound (hne : ops ≠ []) (hops : ∀ kd, kd ∈ level.operators ↔ kd ∈ ops)
    (heof : .eof ∉ ops) (h : Spells anyWord operand fun _ ws => Derived (.rule r) ws)
    (left : Expr) :
    Spells anyWord (chainStep operand level left) fun step ws =>
      Spells.Leaves (fun a ws => isTarget a = false ∧ Derived (.all [.oneOf ops, .rule r]) ws)
        (fun a ws => a = left ∧ ws = []) ws step := by
  refine .acceptAny (fun hmem => heof ((hops _).mp hmem)) (fun op _ hop => ?_) ?_
  · refine h.bind fun right => .pure fun u hu => ⟨Level.isTarget_node _ _ _ _, ?_⟩
    have hop' : Derived (.oneOf ops) [op.word] :=
      (Derives.oneOf_iff hne).mpr ⟨_, rfl, (hops _).mp hop⟩
    exact .seq (u := [op.word]) hop' (.seq hu .empty)
  · exact .pure ⟨rfl, rfl⟩

theorem chain_implements (hne : ops ≠ []) (hops : ∀ kd, kd ∈ level.operators ↔ kd ∈ ops)
    (heof : .eof ∉ ops) (hS : ∀ kd ∈ ops, S kd)
    (h : Implements d k anyWord operand operand' (.rule r) S (Expr.down d) anyValue) :
    Implements d k anyWord (chain operand level) (chain operand' level)
      (Rule.operatorChain ops r) (fun kd => S kd ∧ kd ∉ level.operators) (Expr.down d)
      anyValue := by
  have hstarts : ∀ kd ∈ (Ebnf.seq (.many (.all [.oneOf ops, .rule r])) .empty).starts Rule.first,
      S kd := by
    intro kd hkd
    have hnull := Ebnf.isNullable_oneOf (ρ := Rule) hne
    simp only [Ebnf.starts, Ebnf.all, Ebnf.isNullable, hnull, if_true, append_nil,
      Ebnf.starts_oneOf, Bool.false_eq_true, if_false] at hkd
    exact hS kd hkd
  have hstop : Stops (.seq (.many (.all [.oneOf ops, .rule r])) .empty)
      (fun kd => S kd ∧ kd ∉ level.operators) S :=
    ⟨hstarts, fun _ _ h => h.1⟩
  refine h.bind hstop fun first => ?_
  have hsolid : (Ebnf.all [.oneOf ops, .rule r]).isNullable = false := by
    show ((Ebnf.oneOf ops).isNullable && _) = false
    rw [Ebnf.isNullable_oneOf hne]
    rfl
  refine .loop hsolid hstop (fun left => ?_) (fun left ws hws hfair => ?_)
    (fun left ws hws _ => ?_) first
  · refine (chainStep_sound hne hops heof
      (h.sound.imp fun _ _ hD => hD trivial) left).imp ?_
    intro step ws hstep
    cases step with
    | again a => exact hstep.2
    | done b =>
      intro _
      rw [hstep.2]
      exact .empty
  · obtain ⟨u, v, rfl, hu, hv⟩ := seq_iff.mp hws
    obtain ⟨w, rfl, hw⟩ := (Derives.oneOf_iff hne).mp hu
    refine .acceptAny_some (fun he => heof (he ▸ hw)) ((hops _).mpr hw) fun op _ => ?_
    have hround : Implements d k anyWord
        (operand >>= fun right => pure (Parser.Round.again (level.node left op right)))
        (operand' >>= fun right =>
          pure (Parser.Round.again (level.node (left.down d) (op.down d) right)))
        (.rule r) S (ReadsTwice.moveRound (β := Expr) (Expr.down d) (Expr.down d))
        fun step => ∃ a, step = .again a := by
      refine h.bind_pure (fun right => ?_) fun right => ⟨_, rfl⟩
      rw [Level.node_down]
      rfl
    exact hround.reads v (seq_empty_iff.mp hv) hfair.right
  · rw [hws.eq_nil]
    exact .acceptAny_none (fun _ hkd => hkd.2) (.pure rfl ⟨_, rfl, trivial⟩)

end Binary

theorem loop_atoms (hstep : ∀ e, Spells anyWord (step e) fun r ws =>
      Spells.Leaves (fun a _ => ¬ P a) (fun b ws => b = e ∧ ws = []) ws r)
    (hdone : ∀ e, ReadsTwice d (step e) (step' (e.down d)) [] S
      (ReadsTwice.moveRound (Expr.down d) (Expr.down d)) (· = .done e)) (hS : ∀ kd, S kd → S₁ kd)
    (h : Implements d k anyWord operand operand' G S₁ (Expr.down d) P) :
    Implements d k anyWord (operand >>= Parser.loop step) (operand' >>= Parser.loop step') G S
      (Expr.down d) P where
  sound := by
    have hround : ∀ e, Spells anyWord (step e) fun r v => ∀ u, (P e → Derived G u) →
        Spells.Leaves (fun a ws => P a → Derived G ws) (fun a ws => P a → Derived G ws) (u ++ v)
          r := by
      refine fun e => (hstep e).imp fun r v hv u hu => ?_
      cases r with
      | again a => exact fun ha => absurd ha hv
      | done b =>
        obtain ⟨rfl, rfl⟩ := hv
        rw [append_nil]
        exact hu
    refine h.sound.bind fun e => ?_
    exact (Spells.loop hround e).imp fun b v hv u hu => hv u hu
  reads := by
    intro ws hws hfair
    rw [← append_nil ws]
    refine (h.reads ws hws hfair).bind (fun kd hkd => hS kd hkd) fun e he => ?_
    refine .done (μ := Expr.down d) ?_
    exact (hdone e).imp fun r hr => ⟨e, hr, he⟩

section Binary

variable {operand operand' : Parser Expr} {level : Level} {S : Kind → Prop}

theorem chain_atoms (hP : Atoms P) (heof : .eof ∉ level.operators)
    (hany : Spells anyWord operand fun _ _ => True)
    (h : Implements d k anyWord operand operand' G S (Expr.down d) P) :
    Implements d k anyWord (chain operand level) (chain operand' level) G
      (fun kd => S kd ∧ kd ∉ level.operators) (Expr.down d) P := by
  refine loop_atoms (fun left => ?_) (fun left => ?_) (fun _ hkd => hkd.1) h
  · refine .acceptAny heof (fun op _ _ => ?_) (.pure ⟨rfl, rfl⟩)
    refine hany.bind fun right => .pure fun _ _ hnode => ?_
    have htarget := hP _ hnode
    rw [Level.isTarget_node] at htarget
    cases htarget
  · exact .acceptAny_none (fun _ hkd => hkd.2) (.pure rfl rfl)

/-- What may follow operands joined by the operators of the levels. -/
abbrev BinaryEnd (ls : List Level) (kd : Kind) : Prop :=
  kd ∉ postfixKinds ∧ ∀ l ∈ ls, kd ∉ l.operators

/-- The levels are those of the rules from one down to the operands. -/
inductive Tower : Rule → List Level → Prop
  | operand : Tower .unary []
  | level {r r' : Rule} {level : Level} {ls : List Level} {ops : List Kind}
      (hr : Rule.accepted r = Rule.operatorChain ops r') (hne : ops ≠ [])
      (hops : level.operators.Perm ops) (heof : .eof ∉ ops) (hstop : ∀ kd ∈ ops, BinaryEnd ls kd)
      (h : Tower r' ls) : Tower r (level :: ls)

theorem tower_levels : Tower .logicOr levels := by
  unfold levels
  repeat refine .level rfl (by decide) (by decide) (by decide) (by decide) ?_
  exact .operand

theorem binary_implements (htower : Tower r ls)
    (h : Implements d k anyWord operand operand' (.rule .unary) (· ∉ postfixKinds) (Expr.down d)
      anyValue) :
    Implements d k anyWord (binary operand ls) (binary operand' ls) (.rule r) (BinaryEnd ls)
      (Expr.down d) anyValue := by
  induction htower with
  | operand => exact h.stop fun _ hkd => hkd.1
  | level hr hne hops heof hstop _ ih =>
    refine .rule ?_
    rw [hr]
    refine (chain_implements hne (fun _ => hops.mem_iff) heof hstop ih).stop fun kd hkd => ?_
    obtain ⟨hfirst, hrest⟩ := forall_mem_cons.mp hkd.2
    exact ⟨⟨hkd.1, hrest⟩, hfirst⟩

theorem binary_atoms (hP : Atoms P) (htower : Tower r ls)
    (hall : Implements d k anyWord operand operand' (.rule .unary) (· ∉ postfixKinds)
      (Expr.down d) anyValue)
    (h : Implements d k anyWord operand operand' G (· ∉ postfixKinds) (Expr.down d) P) :
    Implements d k anyWord (binary operand ls) (binary operand' ls) G (BinaryEnd ls)
      (Expr.down d) P := by
  induction htower with
  | operand => exact h.stop fun _ hkd => hkd.1
  | @level r r' level ls ops hr hne hops heof hstop htower ih =>
    have hany : Spells anyWord (binary operand ls) fun _ _ => True :=
      (binary_implements htower hall).sound.imp fun _ _ _ => trivial
    refine (chain_atoms hP (fun h => heof (hops.mem_iff.mp h)) hany ih).stop fun kd hkd => ?_
    obtain ⟨hfirst, hrest⟩ := forall_mem_cons.mp hkd.2
    exact ⟨⟨hkd.1, hrest⟩, hfirst⟩

end Binary

-- ==== assignment

/-- What may follow an expression. -/
abbrev ExprEnd (kd : Kind) : Prop :=
  BinaryEnd levels kd ∧ kd ∉ assignmentOperators

/-- The parsers implement expressions. -/
abbrev ImplementsExpr (d k : Nat) (p q : Parser Expr) : Prop :=
  Implements d k anyWord p q (.rule .expression) ExprEnd (Expr.down d) anyValue

theorem binaryEnd_of_assignment : ∀ kd ∈ assignmentOperators, BinaryEnd levels kd := by
  decide

section Assignment

variable {operand operand' value value' : Parser Expr}

theorem assignment_implements (hk : k ≤ k' + 1)
    (hall : Implements d k anyWord operand operand' (.rule .unary) (· ∉ postfixKinds)
      (Expr.down d) anyValue)
    (htarget : Implements d k anyWord operand operand' (.rule .assignable)
      (· ∉ postfixKinds) (Expr.down d) (isTarget · = true))
    (hvalue : ImplementsExpr d k' value value') :
    ImplementsExpr d k (assignment operand value) (assignment operand' value') := by
  have hbinary := binary_implements tower_levels hall
  have hleft := binary_atoms atoms_isTarget tower_levels hall htarget
  have hvalues : ∀ ws, Derived (.rule .expression) ws ↔ Derived (.rule .assignment) ws :=
    fun _ => rule_iff
  refine (Implements.rule (r := .assignment) ⟨?_, ?_⟩).congr fun ws => (hvalues ws).symm
  · refine (hbinary.sound.and hleft.sound).bind fun left => ?_
    refine .acceptAny (by decide) (fun op _ hop => ?_) ?_
    · refine hvalue.sound.bind fun right => ?_
      by_cases ht : isTarget left = true
      · rw [if_pos ht]
        refine .pure fun v hv u hu _ => .left ?_
        have hop' : Derived (.rule .assignmentOp) [op.word] :=
          .rule ((Derives.oneOf_iff (by decide)).mpr ⟨op.word, rfl, hop⟩)
        have hv' : Derived (.rule .assignment) v := (hvalues v).mp (hv trivial)
        exact .seq (hu.2 ht) (.seq (u := [op.word]) hop' (.seq hv' .empty))
      · rw [if_neg ht]
        exact .reportAt (.pure (D := fun _ _ => True) trivial)
    · refine .pure fun u hu _ => ?_
      rw [append_nil]
      exact .right (hu.1 trivial)
  · intro ws hws hfair
    rcases alt_iff.mp hws with hws | hws
    · obtain ⟨u, rest, rfl, hu, hrest⟩ := seq_iff.mp hws
      obtain ⟨x, v, rfl, hx, hv⟩ := seq_iff.mp hrest
      have hx' : Derived (.oneOf assignmentOperators) x := rule_iff.mp hx
      obtain ⟨w, rfl, hw⟩ := (Derives.oneOf_iff (by decide)).mp hx'
      have hv' : Derived (.rule .expression) v := (hvalues v).mpr (seq_empty_iff.mp hv)
      refine (hleft.reads u hu hfair.left).bind (fun _ _ => binaryEnd_of_assignment _ hw) ?_
      intro left ht
      refine .acceptAny_some (fun h => absurd (h ▸ hw) (by decide)) hw fun op _ => ?_
      have hfair' : Fair k' anyWord v := (hfair.right.mono hk fun _ h => h).tail
      rw [← append_nil v]
      refine (hvalue.reads v hv' hfair').bind (fun _ h => h) fun right _ => ?_
      rw [if_pos ht, if_pos ((isTarget_down left).trans ht)]
      refine .pure ?_ trivial
      simp only [Expr.down, Expr.span_down, Span.upTo_down, Token.lexeme_down]
    · rw [← append_nil ws]
      refine (hbinary.reads ws hws hfair).bind (fun _ h => h.1) fun left _ => ?_
      exact .acceptAny_none (fun _ h => h.2) (.pure rfl trivial)

theorem assignment_atoms (hP : Atoms P)
    (hall : Implements d k anyWord operand operand' (.rule .unary) (· ∉ postfixKinds)
      (Expr.down d) anyValue)
    (h : Implements d k anyWord operand operand' G (· ∉ postfixKinds) (Expr.down d) P)
    (hvalue : Spells anyWord value fun _ _ => True) :
    Implements d k anyWord (assignment operand value) (assignment operand' value') G ExprEnd
      (Expr.down d) P where
  sound := by
    refine (binary_atoms hP tower_levels hall h).sound.bind fun left => ?_
    refine .acceptAny (by decide) (fun op _ _ => ?_) ?_
    · refine hvalue.bind fun right => ?_
      by_cases ht : isTarget left = true
      · rw [if_pos ht]
        exact .pure fun _ _ _ _ hassign => absurd (hP _ hassign) Bool.false_ne_true
      · rw [if_neg ht]
        exact .reportAt (.pure (D := fun _ _ => True) trivial)
    · refine .pure fun u hu => ?_
      rw [append_nil]
      exact hu
  reads := by
    intro ws hws hfair
    rw [← append_nil ws]
    refine ((binary_atoms hP tower_levels hall h).reads ws hws hfair).bind (fun _ h => h.1) ?_
    intro left hleft
    exact .acceptAny_none (fun _ h => h.2) (.pure rfl hleft)

end Assignment

-- ==== unary and postfix

section Postfix

variable {nested nested' operand operand' : Parser Expr} {S : Kind → Prop}

theorem unary_implements
    (hnested : Implements d k anyWord nested nested' (.rule .unary) S (Expr.down d) anyValue)
    (h : Implements d (k + 1) anyWord operand operand' (.rule .postfixed) S (Expr.down d)
      anyValue) :
    Implements d (k + 1) anyWord (unary nested operand) (unary nested' operand') (.rule .unary) S
      (Expr.down d) anyValue := by
  refine .rule ⟨?_, ?_⟩
  · refine .acceptAny (by decide) (fun op _ hop => ?_) ?_
    · refine hnested.sound.bind fun inner => .spanOf fun s => .pure fun u hu _ => ?_
      have hop' : Derived (.oneOf frontOperators) [op.word] :=
        (Derives.oneOf_iff (by decide)).mpr ⟨op.word, rfl, hop⟩
      exact .left (.seq (u := [op.word]) hop' (.seq (hu trivial) .empty))
    · exact h.sound.mono (fun _ _ => trivial) fun _ _ hD _ => .right (hD trivial)
  · intro ws hws hfair
    rcases alt_iff.mp hws with hws | hws
    · obtain ⟨x, v, rfl, hx, hv⟩ := seq_iff.mp hws
      obtain ⟨w, rfl, hw⟩ := (Derives.oneOf_iff (by decide)).mp hx
      refine .acceptAny_some (fun he => absurd (he ▸ hw) (by decide)) hw fun op _ => ?_
      have hv' : Derived (.rule .unary) v := seq_empty_iff.mp hv
      rw [← append_nil v]
      refine (hnested.reads v hv' hfair.tail).bind (fun _ h => h) fun inner _ => ?_
      refine .spanOf fun s => .pure ?_ trivial
      simp only [Expr.down, Expr.span_down, Span.upTo_down, Token.lexeme_down]
    · obtain ⟨w, v, rfl, hw⟩ := hws.exists_cons rfl
      refine .acceptAny_none (fun _ _ => ?_) (h.reads _ hws hfair)
      have hfront : ∀ kd ∈ Rule.operandStarts, kd ∉ [Kind.bang, .minus, .tilde] := by decide
      exact hfront _ hw

theorem unary_atoms (hP : Atoms P) (hG : G.isNullable = false)
    (hstarts : ∀ kd ∈ G.starts Rule.first, kd ∉ frontOperators)
    (hnested : Spells anyWord nested fun _ _ => True)
    (h : Implements d k anyWord operand operand' G S (Expr.down d) P) :
    Implements d k anyWord (unary nested operand) (unary nested' operand') G S
      (Expr.down d) P where
  sound := by
    refine .acceptAny (by decide) (fun op _ _ => ?_) (h.sound.mono (fun _ _ => trivial)
      fun _ _ hD => hD)
    refine hnested.bind fun inner => .spanOf fun s => ?_
    exact .pure fun _ _ hunary => absurd (hP _ hunary) Bool.false_ne_true
  reads := by
    intro ws hws hfair
    obtain ⟨w, v, rfl, hw⟩ := hws.exists_cons hG
    exact .acceptAny_none (fun _ _ => hstarts _ hw) (h.reads _ hws hfair)

theorem postfixStep_sound (inner : Expr) :
    Spells anyWord (postfixStep inner) fun step ws =>
      Spells.Leaves (fun a ws => isTarget a = false ∧ Derived
          (.any [.oneOf [.increment, .decrement], .all [.kind .kwAs, .kind .ident]]) ws)
        (fun a ws => a = inner ∧ ws = []) ws step := by
  refine .acceptAny (by decide) (fun op _ hop => ?_) ?_
  · refine .spanOf fun s => .pure ⟨rfl, .left ?_⟩
    exact (Derives.oneOf_iff (by decide)).mpr ⟨op.word, rfl, hop⟩
  · refine .accepts (by decide) (fun w hw => ?_) (.pure ⟨rfl, rfl⟩)
    refine .expect rfl fun t ht => .spanOf fun s => ?_
    refine .pure ⟨rfl, .right ?_⟩
    have hw' : Derived (.kind .kwAs) [w] := kind_iff.mpr ⟨w, rfl, hw⟩
    have ht' : Derived (.kind .ident) [t.word] := kind_iff.mpr ⟨t.word, rfl, ht⟩
    exact .seq hw' (.seq ht' .empty)

theorem postfixStep_quiet (inner : Expr) :
    ReadsTwice d (postfixStep inner) (postfixStep (inner.down d)) [] (· ∉ postfixKinds)
      (ReadsTwice.moveRound (Expr.down d) (Expr.down d)) (· = .done inner) := by
  have hsteps : ∀ kd ∈ [Kind.increment, .decrement], kd ∈ postfixKinds := by decide
  refine .acceptAny_none (fun kd hkd hmem => hkd (hsteps kd hmem)) ?_
  · refine .accepts_false (fun kd hkd heq => ?_) (.pure rfl rfl)
    rw [show kd = .kwAs from heq] at hkd
    exact absurd hkd (by decide)

theorem postfixed_implements
    (h : Implements d k anyWord operand operand' (.rule .call) (· ∉ [.lparen, .dot])
      (Expr.down d) anyValue) :
    Implements d k anyWord (postfixed operand) (postfixed operand') (.rule .postfixed)
      (· ∉ postfixKinds) (Expr.down d) anyValue := by
  have hstop : Stops (.seq (.many (.any [.oneOf [.increment, .decrement],
      .all [.kind .kwAs, .kind .ident]])) .empty) (· ∉ postfixKinds) (· ∉ [.lparen, .dot]) :=
    ⟨by decide, fun _ kd hkd hmem => hkd (mem_of_mem_take (i := 2) hmem)⟩
  refine .rule (h.bind hstop fun first => ?_)
  have hany : Stops (.seq (.many (.any [.oneOf [.increment, .decrement],
      .all [.kind .kwAs, .kind .ident]])) .empty) (· ∉ postfixKinds) fun _ => True :=
    ⟨fun _ _ => trivial, fun _ _ _ => trivial⟩
  refine .loop rfl hany
    (fun inner => ?_) (fun inner ws hws _ => ?_) (fun inner ws hws _ => ?_) first
  · refine (postfixStep_sound inner).imp fun step ws hstep => ?_
    cases step with
    | again a => exact hstep.2
    | done b =>
      intro _
      rw [hstep.2]
      exact .empty
  · rcases alt_iff.mp hws with hws | hws
    · obtain ⟨w, rfl, hw⟩ := (Derives.oneOf_iff (by decide)).mp hws
      refine .acceptAny_some (fun he => absurd (he ▸ hw) (by decide)) hw fun op _ => ?_
      refine .spanOf fun s => .pure ?_ ⟨_, rfl⟩
      simp only [ReadsTwice.moveRound, Expr.down, Expr.span_down, Span.upTo_down,
        Token.lexeme_down]
    · obtain ⟨w, v, rfl, hw, hv⟩ := seq_tok_iff.mp hws
      obtain ⟨t, v', rfl, ht, hnil⟩ := seq_tok_iff.mp hv
      obtain rfl := hnil.eq_nil
      refine .acceptAny_none (fun _ _ hmem => ?_) ?_
      · change w.kind ∈ _ at hmem
        rw [hw.1] at hmem
        exact absurd hmem (by decide)
      refine .accepts_true (by rw [hw.1]; decide) hw.1 ?_
      refine .expect (by rw [ht.1]; decide) ht.1 fun target _ => ?_
      refine .spanOf fun s => .pure ?_ ⟨_, rfl⟩
      simp only [ReadsTwice.moveRound, Expr.down, Expr.span_down, Span.upTo_down,
        Token.lexeme_down]
  · rw [hws.eq_nil]
    exact (postfixStep_quiet inner).imp fun r hr => ⟨inner, hr, trivial⟩

theorem postfixed_atoms (hP : Atoms P)
    (h : Implements d k anyWord operand operand' G (· ∉ [.lparen, .dot]) (Expr.down d) P) :
    Implements d k anyWord (postfixed operand) (postfixed operand') G (· ∉ postfixKinds)
      (Expr.down d) P := by
  refine loop_atoms (fun inner => ?_) postfixStep_quiet
    (fun kd hkd hmem => hkd (mem_of_mem_take (i := 2) hmem)) h
  refine (postfixStep_sound inner).imp fun step ws hstep => ?_
  cases step with
  | again a =>
    intro ha
    have htarget := hP a ha
    rw [hstep.1] at htarget
    cases htarget
  | done b => exact hstep

end Postfix

end SketchCompiler
