/-
Operands implement their grammar: literals, names, calls and what stands
in parentheses.

# Arguments with names

Behind a name, `field:` starts an initializer, while the grammar derives
arguments without names there, too.  That no expression starts with a
name and a colon follows from reading it: the name alone is an
expression, and a rule reads one thing (`not_field`).
-/
import SketchCompiler.Proofs.ExprRules

namespace SketchCompiler

open List Grammar

open Derives (seq_iff seq_empty_iff kind_iff rule_iff seq_tok_iff alt_iff tok_iff)

variable {ws v : List Word} {S : Kind → Prop} {P : Expr → Prop} {w : Word}

variable {d k : Nat}

-- ==== literals

theorem literalOf_sound (t : Token) :
    Spells K (literalOf t) fun a ws =>
      isTarget a = false ∧ ws = [] ∧ Rule.denotes t.kind t.lexeme = true := by
  refine .spanOf fun s => ?_
  split
  · rename_i hkind
    exact .pure ⟨rfl, rfl, by rw [hkind]; rfl⟩
  · rename_i hkind
    exact .pure ⟨rfl, rfl, by rw [hkind]; rfl⟩
  · rename_i hkind
    generalize hread : Numeral.readInt .marked t.lexeme = read
    refine .number fun n hn => .pure ⟨rfl, rfl, ?_⟩
    rw [hkind]
    unfold Rule.denotes
    rw [hread, hn]
    rfl
  · rename_i hkind
    generalize hparts : durationParts t.lexeme = parts
    refine .number fun n hn => .pure ⟨rfl, rfl, ?_⟩
    rw [hkind]
    unfold Rule.denotes
    rw [hparts, hn]
    rfl
  · rename_i hkind
    generalize hread : Numeral.readFloat t.lexeme = read
    refine .number fun x hx => .pure ⟨rfl, rfl, ?_⟩
    rw [hkind]
    unfold Rule.denotes
    rw [hread, hx]
    rfl
  · rename_i hint hduration hfloat
    refine .pure ⟨rfl, rfl, ?_⟩
    unfold Rule.denotes
    split
    · exact absurd ‹_› hint
    · exact absurd ‹_› hduration
    · exact absurd ‹_› hfloat
    · rfl

theorem exists_of_isOk {α : Type} {read : Except NumeralError α} (h : read.isOk = true) :
    ∃ n, read = .ok n := by
  cases read with
  | ok n => exact ⟨n, rfl⟩
  | error e => cases h

theorem literalOf_reads_twice {t : Token} {S : Kind → Prop} (hkind : t.kind ∈ literalKinds)
    (ht : Rule.denotes t.kind t.lexeme = true) :
    ReadsTwice d (literalOf t) (literalOf (t.down d)) [] S (Expr.down d) anyValue := by
  obtain ⟨kind, lexeme, pos⟩ := t
  refine .spanOf fun s => ?_
  simp only [literalKinds, mem_cons, not_mem_nil, or_false] at hkind
  rcases hkind with rfl | rfl | rfl | rfl | rfl | rfl
  · exact .pure (by simp only [Expr.down]) trivial
  · exact .pure (by simp only [Expr.down]) trivial
  · have hok : (Numeral.readInt .marked lexeme).isOk = true := ht
    obtain ⟨n, hn⟩ := exists_of_isOk hok
    exact .number hn (.pure (by simp only [Expr.down]) trivial)
  · have hok : (Numeral.readInt .ten (durationParts lexeme).1).isOk = true := ht
    obtain ⟨n, hn⟩ := exists_of_isOk hok
    simp only [Token.kind_down, Token.lexeme_down]
    generalize durationParts lexeme = parts at hn ⊢
    exact .number hn (.pure (by simp only [Expr.down]) trivial)
  · have hok : (Numeral.readFloat lexeme).isOk = true := ht
    obtain ⟨x, hx⟩ := exists_of_isOk hok
    exact .number hx (.pure (by simp only [Expr.down]) trivial)
  · exact .pure (by simp only [Expr.down]; rfl) trivial

theorem literal_implements (hkd : kd ∈ literalKinds) :
    Implements d k (fun w => anyWord w ∧ w.kind = kd) (Parser.next >>= literalOf)
      (Parser.next >>= literalOf) (.tok (Rule.literal kd)) S (Expr.down d) anyValue := by
  have heof : ∀ kd ∈ literalKinds, kd ≠ .eof := by decide
  refine ⟨.next (fun w hw => hw.2 ▸ heof kd hkd) fun t ht => ?_, fun ws hws _ => ?_⟩
  · refine (literalOf_sound t).imp fun _ ws hD _ => ?_
    have hkind : t.kind = kd := ht.2
    rw [hkind] at hD
    refine tok_iff.mpr ⟨t.word, by rw [hD.2.1], hkind, fun spells hs => ?_⟩
    cases hs
    exact hD.2.2
  · obtain ⟨w, rfl, hw⟩ := tok_iff.mp hws
    have hkind : w.kind = kd := hw.1
    refine .next (hkind ▸ heof kd hkd) fun t ht => ?_
    have hkt : t.kind = kd := (congrArg Word.kind ht).trans hkind
    refine literalOf_reads_twice (hkt ▸ hkd) ?_
    have hlexeme : t.lexeme = w.lexeme := congrArg Word.lexeme ht
    rw [hkt, hlexeme]
    exact hw.2 _ rfl

-- ==== operands

section Primary

variable {expression expression' conditional conditional' : Parser Expr}

theorem analogRead_implements (he : ImplementsExpr d k expression expression') :
    Implements d k anyWord (analogRead expression start) (analogRead expression' (start.down d))
      (.all [.kind .lparen, .rule .expression, .kind .rparen]) S (Expr.down d) anyValue := by
  refine .expect rfl fun _ _ => ?_
  refine he.bind (.solid rfl (by decide)) fun arg => ?_
  refine .expect rfl fun close _ => ?_
  refine .between fun s => .spanOf fun s' => .pure ?_ trivial
  simp only [Expr.down, exprsDown]

theorem analogRead_value (he : Spells anyWord expression fun _ _ => True) :
    Spells anyWord (analogRead expression start) fun a _ => isTarget a = false := by
  refine .expect rfl fun _ _ => he.bind fun arg => ?_
  refine .expect rfl fun close _ => ?_
  exact .between fun s => .spanOf fun s' => .pure fun _ _ => rfl

theorem ident_implements (hP : ∀ s name, P (.ident s name)) :
    Implements d (k + 1) (fun w => anyWord w ∧ w.kind = .ident)
      (Parser.next >>= fun name =>
        Parser.spanOf name >>= fun s => pure (Expr.ident s name.lexeme))
      (Parser.next >>= fun name =>
        Parser.spanOf name >>= fun s => pure (Expr.ident s name.lexeme))
      (.kind .ident) S (Expr.down d) P := by
  suffices h : Implements d (k + 1) (fun w => anyWord w ∧ w.kind = .ident)
      (Parser.next >>= fun name =>
        Parser.spanOf name >>= fun s => pure (Expr.ident s name.lexeme))
      (Parser.next >>= fun name =>
        Parser.spanOf name >>= fun s => pure (Expr.ident s name.lexeme))
      (.seq (.kind .ident) .empty) S (Expr.down d) P from
    h.congr fun _ => seq_empty_iff
  refine .next (by decide) (fun w hw => ⟨hw.2, fun _ hs => by cases hs⟩) fun t _ => ?_
  refine .spanOf fun s => .pure ?_ (hP _ _)
  simp only [Expr.down, Token.lexeme_down]

theorem parens_implements
    (he : Implements d k anyWord expression expression' G ExprEnd (Expr.down d) P) :
    Implements d (k + 1) (fun w => anyWord w ∧ w.kind = .lparen)
      (Parser.next >>= fun _ => expression >>= fun inner =>
        Parser.expect .rparen what >>= fun _ => pure inner)
      (Parser.next >>= fun _ => expression' >>= fun inner =>
        Parser.expect .rparen what >>= fun _ => pure inner)
      (.all [.kind .lparen, G, .kind .rparen]) S (Expr.down d) P := by
  refine .next (by decide) (fun w hw => ⟨hw.2, fun _ hs => by cases hs⟩) fun _ _ => ?_
  refine ⟨?_, fun ws hws hfair => ?_⟩
  · refine he.sound.bind fun inner => .expect rfl fun close hclose => ?_
    refine .pure fun u hu hP => ?_
    have hclose' : Derived (.kind .rparen) [close.word] :=
      kind_iff.mpr ⟨close.word, rfl, hclose⟩
    exact .seq (hu hP) (.seq hclose' .empty)
  · obtain ⟨u, v, rfl, hu, hv⟩ := seq_iff.mp hws
    obtain ⟨w, v', rfl, hw, hnil⟩ := seq_tok_iff.mp hv
    obtain rfl := hnil.eq_nil
    have hstop : ExprEnd w.kind := by
      rw [hw.1]
      decide
    refine (he.reads u hu hfair.left).bind (fun _ _ => hstop) fun inner hP => ?_
    refine .expect (by rw [hw.1]; decide) hw.1 fun _ _ => ?_
    exact .pure rfl hP

theorem primary_implements
    (he : ImplementsExpr d k expression expression')
    (hc : Implements d (k + 1) (fun w => w.kind = .kwIf) conditional conditional' (.rule .ifExpr)
      (fun _ => True) (Expr.down d) anyValue) :
    Implements d (k + 1) anyWord (primary expression conditional)
      (primary expression' conditional') (.rule .primary) (fun _ => True) (Expr.down d)
      anyValue := by
  refine .rule (.kind rfl fun kd => ?_)
  by_cases hif : kd = .kwIf
  · subst hif
    refine .prune_kind .kwIf rfl (fun w hw => hw.2) ?_
    exact hc.mono (Nat.le_refl _) (fun w hw => hw.2) fun _ h => h
  simp only [if_neg hif]
  by_cases hliteral : kd ∈ literalKinds
  · simp only [if_pos (contains_iff_mem.mpr hliteral)]
    refine .prune_kind kd rfl (fun w hw => hw.2) ?_
    have hkinds := hliteral
    simp only [literalKinds, mem_cons, not_mem_nil, or_false] at hkinds
    rcases hkinds with rfl | rfl | rfl | rfl | rfl | rfl <;> exact literal_implements hliteral
  simp only [if_neg fun h => hliteral (contains_iff_mem.mp h)]
  by_cases hident : kd = .ident
  · subst hident
    exact .prune_kind .ident rfl (fun w hw => hw.2) (ident_implements fun _ _ => trivial)
  simp only [if_neg hident]
  by_cases hanalog : kd = .kwAnalogRead
  · subst hanalog
    refine .prune_kind .kwAnalogRead rfl (fun w hw => hw.2) ?_
    exact .next (by decide) (fun w hw => ⟨hw.2, fun _ hs => by cases hs⟩)
      fun t _ => analogRead_implements he
  simp only [if_neg hanalog]
  by_cases hparen : kd = .lparen
  · subst hparen
    exact .prune_kind .lparen rfl (fun w hw => hw.2) (parens_implements he)
  simp only [if_neg hparen]
  -- nothing starts with any other kind
  refine ⟨.failHere _, fun ws hws hfair => ?_⟩
  obtain ⟨w, v, rfl, hw⟩ := hws.exists_cons rfl
  have hkd : w.kind = kd := (hfair.guard w rfl).2
  have hmem : kd ∈ Rule.operandStarts := hkd ▸ Rule.reading.closed .primary _ hw
  have hstarts : ∀ kd ∈ Rule.operandStarts, kd = .kwIf ∨ kd ∈ literalKinds ∨ kd = .ident
      ∨ kd = .kwAnalogRead ∨ kd = .lparen := by decide
  rcases hstarts kd hmem with h | h | h | h | h
  · exact absurd h hif
  · exact absurd h hliteral
  · exact absurd h hident
  · exact absurd h hanalog
  · exact absurd h hparen

theorem primary_atoms (hP : Atoms P) (hident : ∀ s name, P (.ident s name))
    (hany : Spells anyWord expression fun _ _ => True)
    (he : Implements d k anyWord expression expression' G ExprEnd (Expr.down d) P)
    (hc : Spells (fun w => w.kind = .kwIf) conditional fun a _ => isTarget a = false) :
    Implements d (k + 1) anyWord (primary expression conditional)
      (primary expression' conditional')
      (.any [.kind .ident, .all [.kind .lparen, G, .kind .rparen]]) (fun _ => True) (Expr.down d)
      P := by
  refine .kind rfl fun kd => ?_
  -- a value that is no target does not count, and no name starts it
  have hother : ∀ (p q : Parser Expr), kd ≠ .ident → kd ≠ .lparen →
      Spells (fun w => anyWord w ∧ w.kind = kd) p (fun a _ => isTarget a = false) →
      Implements d (k + 1) (fun w => anyWord w ∧ w.kind = kd) p q
        (.any [.kind .ident, .all [.kind .lparen, G, .kind .rparen]]) (fun _ => True)
        (Expr.down d) P := by
    intro p q hne hne' hp
    refine ⟨hp.imp fun a ws hfalse ha => ?_, fun ws hws hfair => ?_⟩
    · have htarget := hP a ha
      rw [hfalse] at htarget
      cases htarget
    · obtain ⟨w, v, rfl, hw⟩ := hws.exists_cons rfl
      have hkd : w.kind = kd := (hfair.guard w rfl).2
      have hmem : w.kind ∈ [Kind.ident, .lparen] := hw
      rw [hkd] at hmem
      simp only [mem_cons, not_mem_nil, or_false] at hmem
      exact (hmem.elim hne hne').elim
  by_cases hif : kd = .kwIf
  · subst hif
    exact hother _ _ (by decide) (by decide) (hc.mono (fun w hw => hw.2) fun _ _ h => h)
  simp only [if_neg hif]
  by_cases hliteral : kd ∈ literalKinds
  · simp only [if_pos (contains_iff_mem.mpr hliteral)]
    have happart : ∀ kd ∈ literalKinds, kd ≠ .ident ∧ kd ≠ .lparen ∧ kd ≠ .eof := by decide
    obtain ⟨hne, hne', heof⟩ := happart kd hliteral
    refine hother _ _ hne hne' ?_
    refine .next (fun w hw => by rw [hw.2]; exact heof) fun t _ => ?_
    exact (literalOf_sound t).imp fun _ _ h => h.1
  simp only [if_neg fun h => hliteral (contains_iff_mem.mp h)]
  by_cases hname : kd = .ident
  · subst hname
    exact .prune_kind .ident rfl (fun w hw => hw.2) (ident_implements hident)
  simp only [if_neg hname]
  by_cases hanalog : kd = .kwAnalogRead
  · subst hanalog
    refine hother _ _ (by decide) (by decide) ?_
    refine .next (fun w hw => by rw [hw.2]; decide) fun t _ => ?_
    exact (analogRead_value hany).imp fun _ _ h => h
  simp only [if_neg hanalog]
  by_cases hparen : kd = .lparen
  · subst hparen
    exact .prune_kind .lparen rfl (fun w hw => hw.2) (parens_implements he)
  simp only [if_neg hparen]
  exact hother _ _ hname hparen (.failHere _)

end Primary

-- ==== arguments

/-- The operands of every level are expressions. -/
theorem Tower.derived (h : Tower r ls) (hws : Derived (.rule .unary) ws) :
    Derived (.rule r) ws := by
  induction h with
  | operand => exact hws
  | @level r r' level ls ops hr _ _ _ _ _ ih =>
    have hnone : Derived (.many (.all [.oneOf ops, .rule r'])) [] := .done
    have hbody : Derived (Rule.operatorChain ops r') (ws ++ []) :=
      .seq ih (seq_empty_iff.mpr hnone)
    rw [append_nil] at hbody
    refine rule_iff.mpr ?_
    show Derived (Rule.accepted r) ws
    rw [hr]
    exact hbody

theorem derived_call_of_primary (h : Derived (.rule .primary) ws) : Derived (.rule .call) ws := by
  have hnone : Derived (.many Rule.callSuffix) [] := .done
  rw [← append_nil ws]
  exact .rule (.seq (.right h) (seq_empty_iff.mpr hnone))

theorem derived_name (hw : w.kind = .ident) : Derived (.rule .expression) [w] := by
  have hname : Derived ((Rule.accepted .primary).prune Rule.first fun ks => !ks.contains .ident)
      [w] := kind_iff.mpr ⟨w, rfl, hw⟩
  have hcall := derived_call_of_primary (.rule hname.of_prune)
  have hnone : Derived (.many (.any [.oneOf [.increment, .decrement],
      .all [.kind .kwAs, .kind .ident]])) [] := .done
  have hpostfixed : Derived (.rule .postfixed) ([w] ++ []) :=
    .rule (.seq hcall (seq_empty_iff.mpr hnone))
  have hor : Derived (.rule .logicOr) [w] := tower_levels.derived (.rule (.right hpostfixed))
  exact .rule (.rule (.right hor))

section Arguments

variable {expression expression' : Parser Expr}
  (he : ImplementsExpr d k expression expression')
include he

theorem not_field
    (hws : Derived (.rule .expression) (w :: w' :: v)) (hfair : Fair k anyWord (w :: w' :: v))
    (hw : w.kind = .ident) : w'.kind ≠ .colon := by
  intro hcolon
  have hname : Fair k anyWord [w] := Fair.left (u := [w]) (v := w' :: v) hfair
  have hlong := (he.reads _ hws hfair).reads (by decide)
  have hshort := (he.reads _ (derived_name hw) hname).reads (by decide)
  -- both readings start from one cursor, and leave different tokens
  let token : Word → Token := fun w => ⟨w.kind, w.lexeme, {}⟩
  have hword : ∀ ws : List Word, (ws.map token).map Token.word = ws := by
    intro ws
    rw [map_map]
    exact map_id ws
  let c : Cursor := { file := "", rest := (w :: w' :: v).map token, last := Parser.endMarker }
  obtain ⟨a, last, hrun, -⟩ := hlong c ((w :: w' :: v).map token) []
    (append_nil _).symm (hword _) (by decide)
  have hstop : ExprEnd (headKind ((w' :: v).map token)) := by
    show ExprEnd w'.kind
    rw [hcolon]
    decide
  obtain ⟨a', last', hrun', -⟩ :=
    hshort c ([w].map token) ((w' :: v).map token) rfl (hword _) hstop
  rw [hrun] at hrun'
  cases hrun'

theorem fieldInit_implements :
    Implements d k anyWord (fieldInit expression) (fieldInit expression') (.rule .namedArgument)
      ExprEnd (FieldInit.down d) anyValue := by
  refine .rule (.expect rfl fun name _ => ?_)
  refine .expect rfl fun _ _ => ?_
  refine he.bind (.empty fun _ h => h) fun value => .pure ?_ trivial
  simp only [FieldInit.down, Token.lexeme_down]

theorem fieldInits_implements :
    Implements d k anyWord (Parser.separated (fieldInit expression))
      (Parser.separated (fieldInit expression')) (.rule .namedArgumentList)
      (fun kd => ExprEnd kd ∧ kd ≠ .comma) (List.map (FieldInit.down d)) anyValue :=
  .rule ((fieldInit_implements he).separated (by decide))

theorem argumentList_implements :
    Implements d k anyWord (Parser.separatedUntil .rparen expression)
      (Parser.separatedUntil .rparen expression') (.opt (.rule .argumentList)) (· = .rparen)
      (List.map (Expr.down d)) anyValue :=
  .separatedUntil rfl (by decide) (by decide) (.rule (he.separated (by decide)))

theorem arguments_sound (callee : Expr) :
    Spells anyWord (arguments expression callee) fun a ws => isTarget a = false
      ∧ (Derived (.all [.opt (.rule .argumentList), .kind .rparen]) ws
        ∨ callee.IsIdent ∧ Derived (.all [.rule .namedArgumentList, .kind .rparen]) ws) := by
  have hclose : ∀ {t : Token}, t.kind = .rparen → Derived (.all [.kind .rparen]) [t.word] :=
    fun ht => seq_empty_iff.mpr (kind_iff.mpr ⟨_, rfl, ht⟩)
  refine .get fun c _ => ?_
  split
  · refine ((fieldInits_implements he).sound.mono (fun _ _ => trivial) fun _ _ hD => hD).bind ?_
    refine fun fields => .expect rfl fun close ht => .spanOf fun s => ?_
    exact .pure fun u hu => ⟨rfl, .inr ⟨⟨_, _, rfl⟩, .seq (hu trivial) (hclose ht)⟩⟩
  · refine ((argumentList_implements he).sound.mono (fun _ _ => trivial) fun _ _ hD => hD).bind ?_
    refine fun args => .expect rfl fun close ht => .spanOf fun s => ?_
    exact .pure fun u hu => ⟨rfl, .inl (.seq (hu trivial) (hclose ht))⟩

theorem not_field_of_arguments
    (hws : Derived (.all [.opt (.rule .argumentList), .kind .rparen]) (w :: w' :: v))
    (hfair : Fair k anyWord (w :: w' :: v)) (hw : w.kind = .ident) : w'.kind ≠ .colon := by
  obtain ⟨args, close, heq, hargs, hclose⟩ := seq_iff.mp hws
  obtain ⟨t, close', rfl, ht, -⟩ := seq_tok_iff.mp hclose
  cases hargs with
  | none =>
    cases heq
    exact absurd (hw.symm.trans ht.1) (by decide)
  | some hargs =>
    obtain ⟨x, y, rfl, hx, hy⟩ := seq_iff.mp (rule_iff.mp hargs)
    obtain ⟨w₁, x, rfl, -⟩ := hx.exists_cons rfl
    cases x with
    | cons w₂ x =>
      -- the second word is in the first argument
      rw [heq, append_assoc] at hfair
      cases heq
      exact not_field he hx hfair.left hw
    | nil =>
      -- the second word is behind it
      cases y with
      | nil =>
        cases heq
        rw [ht.1]
        decide
      | cons w₂ y =>
        cases heq
        have hcomma : w'.kind ∈ [Kind.comma] := hy.starts
        rw [mem_singleton.mp hcomma]
        decide

theorem arguments_reads (callee : Expr)
    (hws : Derived (.all [.opt (.rule .argumentList), .kind .rparen]) ws)
    (hfair : Fair k anyWord ws) :
    ReadsTwice d (arguments expression callee) (arguments expression' (callee.down d)) ws S
      (Expr.down d) anyValue := by
  have hlook : ∀ {c : Cursor} {ts rest : List Token}, c.rest = ts ++ rest →
      ts.map Token.word = ws → decide (c.kind = .ident ∧ c.kindBehind = some .colon) = false := by
    intro c ts rest hrest hts
    refine decide_eq_false fun ⟨hident, hbehind⟩ => ?_
    obtain ⟨w, v, rfl, hw⟩ := hws.exists_cons rfl
    have hkind : w.kind = .ident := by
      rw [← hident]
      exact (congrArg Word.kind (ReadsTwice.peek_word hrest hts)).symm
    cases v with
    | nil =>
      -- a single word is the parenthesis
      obtain ⟨args, close, heq, -, hclose⟩ := seq_iff.mp hws
      obtain ⟨t, close', rfl, ht, -⟩ := seq_tok_iff.mp hclose
      cases args with
      | nil =>
        cases heq
        exact absurd (hkind.symm.trans ht.1) (by decide)
      | cons x args => simp at heq
    | cons w' v =>
      rw [kindBehind_eq hrest hts] at hbehind
      exact not_field_of_arguments he hws hfair hkind (Option.some.inj hbehind)
  have hplain : Implements d k anyWord
      (Parser.separatedUntil .rparen expression >>= fun args =>
        Parser.expect .rparen "')' after arguments" >>= fun close =>
        Parser.spanOf close >>= fun s => pure (Expr.call (callee.span.upTo s) callee args))
      (Parser.separatedUntil .rparen expression' >>= fun args =>
        Parser.expect .rparen "')' after arguments" >>= fun close =>
        Parser.spanOf close >>= fun s =>
          pure (Expr.call ((callee.down d).span.upTo s) (callee.down d) args))
      (.all [.opt (.rule .argumentList), .kind .rparen]) S (Expr.down d) anyValue := by
    refine (argumentList_implements he).bind (.solid rfl (by decide)) fun args => ?_
    refine .expect rfl fun close _ => .spanOf fun s => ?_
    refine .pure ?_ trivial
    simp only [Expr.down, Expr.span_down, Span.upTo_down, exprsDown_eq]
  refine .look fun c c' ts rest rest' _ hleft hright hts _ _ => ⟨c, c', rfl, rfl, ?_⟩
  rw [hlook hleft hts, hlook hright ((words_down ts).trans hts)]
  have hread := hplain.reads ws hws hfair
  cases callee <;> exact hread

theorem arguments_reads_named
    (hcallee : callee.IsIdent) (hws : Derived (.all [.rule .namedArgumentList, .kind .rparen]) ws)
    (hfair : Fair k anyWord ws) :
    ReadsTwice d (arguments expression callee) (arguments expression' (callee.down d)) ws S
      (Expr.down d) anyValue := by
  obtain ⟨span, name, rfl⟩ := hcallee
  have hlook : ∀ {c : Cursor} {ts rest : List Token}, c.rest = ts ++ rest →
      ts.map Token.word = ws → decide (c.kind = .ident ∧ c.kindBehind = some .colon) = true := by
    intro c ts rest hrest hts
    obtain ⟨u, close, rfl, hu, -⟩ := seq_iff.mp hws
    obtain ⟨x, y, rfl, hx, -⟩ := seq_iff.mp (rule_iff.mp hu)
    obtain ⟨w, x', rfl, hw, hx'⟩ := seq_tok_iff.mp (rule_iff.mp hx)
    obtain ⟨w', x'', rfl, hw', -⟩ := seq_tok_iff.mp hx'
    refine decide_eq_true ⟨?_, ?_⟩
    · exact (congrArg Word.kind (ReadsTwice.peek_word hrest hts)).trans hw.1
    · exact (kindBehind_eq hrest hts).trans (congrArg some hw'.1)
  have hnamed : Implements d k anyWord
      (Parser.separated (fieldInit expression) >>= fun fields =>
        Parser.expect .rparen "')' after struct initializer" >>= fun close =>
        Parser.spanOf close >>= fun s => pure (Expr.structInit (span.upTo s) name fields))
      (Parser.separated (fieldInit expression') >>= fun fields =>
        Parser.expect .rparen "')' after struct initializer" >>= fun close =>
        Parser.spanOf close >>= fun s => pure (Expr.structInit ((span.down d).upTo s) name fields))
      (.all [.rule .namedArgumentList, .kind .rparen]) S (Expr.down d) anyValue := by
    refine (fieldInits_implements he).bind (.solid rfl (by decide)) fun fields => ?_
    refine .expect rfl fun close _ => .spanOf fun s => ?_
    refine .pure ?_ trivial
    simp only [Expr.down, Span.upTo_down, fieldsDown_eq]
  refine .look fun c c' ts rest rest' _ hleft hright hts _ _ => ⟨c, c', rfl, rfl, ?_⟩
  rw [hlook hleft hts, hlook hright ((words_down ts).trans hts)]
  exact hnamed.reads ws hws hfair

end Arguments

-- ==== calls

section Calls

variable {expression expression' operand operand' : Parser Expr}

/-- What a round behind a callee has read: arguments, which make no
target, or a member, which is no name. -/
def CallStep (inner a : Expr) (ws : List Word) : Prop :=
  isTarget a = false ∧ Derived (.all [.kind .lparen, .opt (.rule .argumentList), .kind .rparen]) ws
    ∨ isTarget a = false ∧ inner.IsIdent
      ∧ Derived (.all [.kind .lparen, .rule .namedArgumentList, .kind .rparen]) ws
    ∨ ¬ a.IsIdent ∧ Derived (.all [.kind .dot, .kind .ident]) ws

theorem callStep_reads_nothing (inner : Expr) :
    ReadsTwice d (callStep expression inner) (callStep expression' (inner.down d)) []
      (· ∉ [.lparen, .dot]) (ReadsTwice.moveRound (Expr.down d) (Expr.down d))
      (· = .done inner) := by
  refine .accepts_false (fun kd hkd heq => ?_) ?_
  · rw [show kd = .lparen from heq] at hkd
    exact absurd hkd (by decide)
  refine .accepts_false (fun kd hkd heq => ?_) (.pure rfl rfl)
  rw [show kd = .dot from heq] at hkd
  exact absurd hkd (by decide)

theorem callStep_reads_member (inner : Expr) (hws : Derived (.all [.kind .dot, .kind .ident]) ws) :
    ReadsTwice d (callStep expression inner) (callStep expression' (inner.down d)) ws S
      (ReadsTwice.moveRound (Expr.down d) (Expr.down d))
      fun r => ∃ a, r = .again a ∧ isTarget a = true := by
  obtain ⟨w, v, rfl, hw, hv⟩ := seq_tok_iff.mp hws
  obtain ⟨t, v', rfl, ht, hnil⟩ := seq_tok_iff.mp hv
  obtain rfl := hnil.eq_nil
  refine .accepts_false (fun _ _ heq => ?_) ?_
  · exact absurd (hw.1.symm.trans heq) (by decide)
  refine .accepts_true (by rw [hw.1]; decide) hw.1 ?_
  refine .expect (by rw [ht.1]; decide) ht.1 fun name _ => ?_
  refine .spanOf fun s => .pure ?_ ⟨_, rfl, rfl⟩
  simp only [ReadsTwice.moveRound, Expr.down, Expr.span_down, Span.upTo_down, Token.lexeme_down]

theorem callStep_reads_arguments {inner : Expr} (hw : w.kind = .lparen)
    (h : ReadsTwice d (arguments expression inner) (arguments expression' (inner.down d)) v S
      (Expr.down d) anyValue) :
    ReadsTwice d (callStep expression inner) (callStep expression' (inner.down d)) (w :: v) S
      (ReadsTwice.moveRound (Expr.down d) (Expr.down d)) fun r => ∃ a, r = .again a := by
  refine .accepts_true (by rw [hw]; decide) hw ?_
  rw [← append_nil v]
  exact h.bind (fun _ hS => hS) fun a _ => .pure rfl ⟨_, rfl⟩

theorem derived_call_snoc (hu : Derived (.rule .call) u) (hv : Derived Rule.callSuffix v) :
    Derived (.rule .call) (u ++ v) := by
  obtain ⟨x, y, rfl, hx, hy⟩ := seq_iff.mp (rule_iff.mp hu)
  rw [append_assoc]
  exact .rule (.seq hx (seq_empty_iff.mpr
    (.many_snoc (seq_empty_iff.mp hy) hv)))

theorem derived_call_named (hu : Derived (.rule .structName) u)
    (hv : Derived (.all [.kind .lparen, .rule .namedArgumentList, .kind .rparen]) v) :
    Derived (.rule .call) (u ++ v) := by
  have hnone : Derived (.many Rule.callSuffix) [] := .done
  rw [← append_nil (u ++ v)]
  exact .rule (.seq (.left (.seq hu hv)) (seq_empty_iff.mpr hnone))

/-- What is known of a callee and the words it was read from. -/
structure Called (a : Expr) (ws : List Word) : Prop where
  call : Derived (.rule .call) ws
  target : isTarget a = true → Derived (.rule .assignable) ws
  name : a.IsIdent → Derived (.rule .structName) ws

theorem Called.step {inner : Expr} (h : Called inner u) (hstep : CallStep inner a v) :
    Called a (u ++ v) := by
  have hnot : ∀ {P : Prop}, isTarget a = false → a.IsIdent → P := by
    intro P hfalse hident
    rw [atoms_isIdent a hident] at hfalse
    cases hfalse
  rcases hstep with ⟨ha, hv⟩ | ⟨ha, hinner, hv⟩ | ⟨ha, hv⟩
  · refine ⟨derived_call_snoc h.call (.left hv), fun htrue => ?_, hnot ha⟩
    rw [ha] at htrue
    cases htrue
  · refine ⟨derived_call_named (h.name hinner) hv, fun htrue => ?_, hnot ha⟩
    rw [ha] at htrue
    cases htrue
  · refine ⟨derived_call_snoc h.call (.right hv), fun _ => ?_, fun hident => absurd hident ha⟩
    exact .rule (.right (.right (.seq h.call hv)))

/-- What a call starts with: a struct and arguments with names, or an
operand. -/
def callHead : Ebnf Rule :=
  .any [.all [.rule .structName, .kind .lparen, .rule .namedArgumentList, .kind .rparen],
    .rule .primary]

theorem calls_loop_reads_nothing (ha : P a) :
    ReadsTwice d (Parser.loop (callStep expression) a)
      (Parser.loop (callStep expression') (a.down d)) [] (· ∉ [.lparen, .dot])
        (Expr.down d) P := by
  refine .done (μ := Expr.down d) ?_
  exact (callStep_reads_nothing a).imp fun r hr => ⟨a, hr, ha⟩

variable (he : ImplementsExpr d k expression expression')
include he

theorem callStep_sound (inner : Expr) :
    Spells anyWord (callStep expression inner) fun step ws =>
      Spells.Leaves (CallStep inner) (fun a ws => a = inner ∧ ws = []) ws step := by
  refine .accepts (by decide) (fun w hw => ?_) ?_
  · refine (arguments_sound he inner).bind fun a => .pure fun u hu => ?_
    have hw' : Derived (.kind .lparen) [w] := kind_iff.mpr ⟨w, rfl, hw⟩
    rw [append_nil]
    rcases hu with ⟨ha, hu | ⟨hinner, hu⟩⟩
    · exact .inl ⟨ha, .seq hw' hu⟩
    · exact .inr (.inl ⟨ha, hinner, .seq hw' hu⟩)
  · refine .accepts (by decide) (fun w hw => ?_) (.pure ⟨rfl, rfl⟩)
    refine .expect rfl fun name ht => .spanOf fun s => ?_
    have hw' : Derived (.kind .dot) [w] := kind_iff.mpr ⟨w, rfl, hw⟩
    have ht' : Derived (.kind .ident) [name.word] := kind_iff.mpr ⟨_, rfl, ht⟩
    refine .pure (.inr (.inr ⟨?_, .seq hw' (.seq ht' .empty)⟩))
    rintro ⟨s', n, heq⟩
    cases heq

theorem callStep_reads_suffix (inner : Expr)
    (hws : Derived Rule.callSuffix ws) (hfair : Fair (k + 1) anyWord ws) :
    ReadsTwice d (callStep expression inner) (callStep expression' (inner.down d)) ws S
      (ReadsTwice.moveRound (Expr.down d) (Expr.down d)) fun r => ∃ a, r = .again a := by
  rcases alt_iff.mp hws with hws | hws
  · obtain ⟨w, v, rfl, hw, hv⟩ := seq_tok_iff.mp hws
    exact callStep_reads_arguments hw.1 (arguments_reads he inner hv hfair.tail)
  · exact (callStep_reads_member inner hws).imp fun r ⟨a, hr, _⟩ => ⟨a, hr⟩

theorem calls_sound (h : Spells anyWord operand Called) :
    Spells anyWord (calls expression operand) Called := by
  have hround : ∀ inner, Spells anyWord (callStep expression inner) fun step v => ∀ u,
      Called inner u → Spells.Leaves Called Called (u ++ v) step := by
    refine fun inner => (callStep_sound he inner).imp fun step v hv u hu => ?_
    cases step with
    | again a => exact hu.step hv
    | done b =>
      obtain ⟨rfl, rfl⟩ := hv
      rw [append_nil]
      exact hu
  exact h.bind fun inner => .loop hround inner

/-- A call and what follows it is read, if the rounds behind it are. -/
theorem calls_reads
    (hprimary : Implements d (k + 1) anyWord operand operand' (.rule .primary) (fun _ => True)
      (Expr.down d) anyValue)
    (hname : Implements d (k + 1) anyWord operand operand' (.rule .structName) (fun _ => True)
      (Expr.down d) Expr.IsIdent)
    (hloop : ∀ (a : Expr) (ws : List Word), Derived G ws → Fair (k + 1) anyWord ws →
      ReadsTwice d (Parser.loop (callStep expression) a)
      (Parser.loop (callStep expression') (a.down d)) ws (· ∉ [.lparen, .dot]) (Expr.down d) P)
    (hws : Derived (.seq callHead (.seq (.many Rule.callSuffix) G)) ws)
    (hfair : Fair (k + 1) anyWord ws) :
    ReadsTwice d (calls expression operand) (calls expression' operand') ws
      (· ∉ [.lparen, .dot]) (Expr.down d) P := by
  have hstop : Stops (.seq (.many Rule.callSuffix) G) (· ∉ [.lparen, .dot]) fun _ => True :=
    ⟨fun _ _ => trivial, fun _ _ _ => trivial⟩
  have hmany : ∀ (a : Expr) (v : List Word), Derived (.seq (.many Rule.callSuffix) G) v →
      Fair (k + 1) anyWord v → ReadsTwice d (Parser.loop (callStep expression) a)
        (Parser.loop (callStep expression') (a.down d)) v (· ∉ [.lparen, .dot]) (Expr.down d)
        P := by
    intro a v hv hfairv
    refine Implements.loop_reads (I := anyValue) rfl hstop (fun a _ x hx hfairx => ?_)
      (fun a _ => hloop a) trivial hv hfairv
    exact (callStep_reads_suffix he a hx hfairx).imp
      fun r ⟨a, hr⟩ => ⟨a, hr, trivial⟩
  obtain ⟨x, y, rfl, hx, hy⟩ := seq_iff.mp hws
  rcases alt_iff.mp hx with hx | hx
  · obtain ⟨u, v, rfl, hu, hv⟩ := seq_iff.mp hx
    rw [append_assoc] at hfair ⊢
    refine (hname.reads u hu hfair.left).bind (fun _ _ => trivial) fun a ha => ?_
    obtain ⟨w, v, rfl, hw, hv⟩ := seq_tok_iff.mp hv
    have hargs := arguments_reads_named he (S := fun _ => True) ha hv hfair.right.left.tail
    have hround : ReadsTwice d (callStep expression a) (callStep expression' (a.down d)) (w :: v)
        (fun _ => True) (ReadsTwice.moveRound (Expr.down d) (Expr.down d))
        fun r => ∃ a, r = .again a ∧ anyValue a :=
      (callStep_reads_arguments hw.1 hargs).imp fun r ⟨a, hr⟩ => ⟨a, hr, trivial⟩
    exact ReadsTwice.again hround (cons_ne_nil _ _) (fun _ _ => trivial)
      fun a _ => hmany a y hy hfair.right.right
  · refine (hprimary.reads x hx hfair.left).bind (fun _ _ => trivial) fun a _ => ?_
    exact hmany a y hy hfair.right

variable
  (hprimary : Implements d (k + 1) anyWord operand operand' (.rule .primary) (fun _ => True)
    (Expr.down d) anyValue)
  (htarget : Implements d (k + 1) anyWord operand operand'
    (.any [.kind .ident, .all [.kind .lparen, .rule .assignable, .kind .rparen]]) (fun _ => True)
    (Expr.down d) (isTarget · = true))
  (hname : Implements d (k + 1) anyWord operand operand' (.rule .structName) (fun _ => True)
    (Expr.down d) Expr.IsIdent)
include hprimary htarget hname

omit he in
theorem operand_called : Spells anyWord operand Called := by
  refine ((hprimary.sound.and htarget.sound).and hname.sound).imp ?_
  rintro a ws ⟨⟨hcall, htarget⟩, hname⟩
  refine ⟨derived_call_of_primary (hcall trivial), fun ha => ?_, hname⟩
  rcases alt_iff.mp (htarget ha) with h | h
  · exact .rule (.left h)
  · exact .rule (.right (.left h))

theorem calls_implements :
    Implements d (k + 1) anyWord (calls expression operand) (calls expression' operand')
      (.rule .call) (· ∉ [.lparen, .dot]) (Expr.down d) anyValue where
  sound := (calls_sound he (operand_called hprimary htarget hname)).imp
    fun _ _ h _ => h.call
  reads := by
    intro ws hws hfair
    refine calls_reads (G := .empty) he hprimary hname (fun a v hv _ => ?_)
      (rule_iff.mp hws) hfair
    rw [hv.eq_nil]
    exact calls_loop_reads_nothing trivial

theorem calls_targets :
    Implements d (k + 1) anyWord (calls expression operand) (calls expression' operand')
      (.rule .assignable) (· ∉ [.lparen, .dot]) (Expr.down d) (isTarget · = true) where
  sound := (calls_sound he (operand_called hprimary htarget hname)).imp
    fun _ _ h => h.target
  reads := by
    intro ws hws hfair
    have hsimple : Derived (.any [.kind .ident,
        .all [.kind .lparen, .rule .assignable, .kind .rparen]]) ws →
        ReadsTwice d (calls expression operand) (calls expression' operand') ws
          (· ∉ [.lparen, .dot]) (Expr.down d) (isTarget · = true) := by
      intro h
      rw [← append_nil ws]
      exact (htarget.reads ws h hfair).bind (fun _ _ => trivial)
        fun a ha => calls_loop_reads_nothing ha
    rcases alt_iff.mp (rule_iff.mp hws) with h | h
    · exact hsimple (.left h)
    rcases alt_iff.mp h with h | h
    · exact hsimple (.right h)
    -- a member of a call is a last round
    obtain ⟨u, v, rfl, hu, hv⟩ := seq_iff.mp h
    obtain ⟨x, y, rfl, hx, hy⟩ := seq_iff.mp (rule_iff.mp hu)
    have hmember : Derived (.seq callHead (.seq (.many Rule.callSuffix)
        (.all [.kind .dot, .kind .ident]))) (x ++ (y ++ v)) :=
      .seq hx (.seq (seq_empty_iff.mp hy) hv)
    rw [append_assoc] at hfair ⊢
    refine calls_reads he hprimary hname (fun a v hv _ => ?_) hmember hfair
    rw [← append_nil v]
    obtain ⟨w, v', rfl, -⟩ := hv.exists_cons rfl
    exact .again (callStep_reads_member (S := fun _ => True) a hv)
      (cons_ne_nil _ _) (fun _ _ => trivial) fun a ha => calls_loop_reads_nothing ha

omit hprimary htarget in
theorem calls_names :
    Implements d (k + 1) anyWord (calls expression operand) (calls expression' operand')
      (.rule .structName) (· ∉ [.lparen, .dot]) (Expr.down d) Expr.IsIdent := by
  refine loop_atoms (fun inner => ?_) callStep_reads_nothing (fun _ _ => trivial) hname
  refine (callStep_sound he inner).imp fun step ws hstep => ?_
  cases step with
  | again a =>
    intro hident
    have htarget := atoms_isIdent a hident
    rcases hstep with ⟨ha, -⟩ | ⟨ha, -, -⟩ | ⟨ha, -⟩
    · rw [ha] at htarget
      cases htarget
    · rw [ha] at htarget
      cases htarget
    · exact ha hident
  | done b => exact hstep

end Calls

end SketchCompiler
