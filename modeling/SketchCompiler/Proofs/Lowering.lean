/-
What becomes of the statements of a program in its generated code.

The lines of a statement inside a block stand in the lines of what is
around it, each moved to the right; the lines of a statement inside a
value block stand in the one text of the expression around it.  Only the
first clause of a loop loses something: it is written without the
semicolons that close it, so lines are looked for without these
(`Line.stem`).

Texts carry statements if all lines of the statements stand in them.  The
text of an expression carries what is inside its written part, and so do
the lines of a statement (`expr_carries`, `stmt_carries`), by induction on
the tree with one case for each form.
-/
import SketchCompiler.Proofs.WrittenProgram

namespace SketchCompiler

open List hiding head tail span

variable {a b : String}

-- ==== standing in a text

/-- The text is an unbroken part of the other. -/
def StandsIn (text code : String) : Prop :=
  text.toList <:+: code.toList

theorem StandsIn.refl (text : String) : StandsIn text text := infix_refl _

theorem StandsIn.trans (hab : StandsIn a b) (hbc : StandsIn b c) : StandsIn a c :=
  List.IsInfix.trans hab hbc

theorem StandsIn.append_right (h : StandsIn a b) (c : String) : StandsIn a (b ++ c) := by
  unfold StandsIn at h ⊢
  rw [String.toList_append]
  exact h.trans (prefix_append _ _).isInfix

theorem StandsIn.append_left (h : StandsIn a b) (c : String) : StandsIn a (c ++ b) := by
  unfold StandsIn at h ⊢
  rw [String.toList_append]
  exact h.trans (suffix_append _ _).isInfix

/-- Each of the texts put together stands in the whole. -/
theorem standsIn_concat (rest : List String) (first : String) :
    ∀ a ∈ first :: rest, StandsIn a (rest.foldl (· ++ ·) first) := by
  induction rest generalizing first with
  | nil =>
    intro a ha
    rw [mem_singleton.mp ha]
    exact .refl _
  | cons second rest ih =>
    intro a ha
    rw [foldl_cons]
    have hfirst : StandsIn (first ++ second) (rest.foldl (· ++ ·) (first ++ second)) :=
      ih _ _ mem_cons_self
    rcases mem_cons.mp ha with heq | ha
    · rw [heq]
      exact ((StandsIn.refl first).append_right second).trans hfirst
    · rcases mem_cons.mp ha with heq | ha
      · rw [heq]
        exact ((StandsIn.refl second).append_left first).trans hfirst
      · exact ih _ _ (mem_cons_of_mem _ ha)

/-- Each of the texts joined stands in the whole. -/
theorem standsIn_intercalate (separator : String) (texts : List String) :
    ∀ a ∈ texts, StandsIn a (separator.intercalate texts) := by
  induction texts with
  | nil => intro a ha; cases ha
  | cons first rest ih =>
    intro a ha
    cases rest with
    | nil =>
      rw [mem_singleton.mp ha, String.intercalate_singleton]
      exact .refl _
    | cons second rest =>
      rw [String.intercalate_cons_cons]
      rcases mem_cons.mp ha with heq | ha
      · rw [heq]
        exact ((StandsIn.refl first).append_right _).append_right _
      · exact (ih a ha).append_left _

/-- A line without the semicolons that close it. -/
def Line.stem (l : Line) : String :=
  String.ofList (Text.trimRightWhile (· == ';') l.text.toList)

/-- A line without its semicolons stands in itself. -/
theorem Line.stem_standsIn (l : Line) : StandsIn l.stem l.text := by
  unfold StandsIn Line.stem Text.trimRightWhile
  rw [String.toList_ofList]
  have hsuffix := dropWhile_suffix (· == ';') (l := l.text.toList.reverse)
  have hprefix := reverse_prefix.mpr hsuffix
  rw [reverse_reverse] at hprefix
  exact hprefix.isInfix

-- ==== carrying statements

/-- All lines of the statement stand in the texts. -/
def LoweredIn (cx : EmitContext) (texts : List String) (s : Stmt) : Prop :=
  ∃ lines, Emit.stmt cx s = .ok lines ∧ ∀ l ∈ lines, ∃ t ∈ texts, StandsIn l.stem t

/-- All lines of all the statements stand in the texts. -/
def Carries (cx : EmitContext) (texts : List String) (ss : List Stmt) : Prop :=
  ∀ s ∈ ss, LoweredIn cx texts s

variable {cx : EmitContext} {texts texts' : List String} {ss ss' : List Stmt}

theorem Carries.nil : Carries cx texts [] := fun _ hs => nomatch hs

theorem Carries.of_eq_nil (h : ss = []) : Carries cx texts ss := by
  rw [h]
  exact .nil

/-- Texts carry the statements of two lists. -/
theorem Carries.append (h : Carries cx texts ss) (h' : Carries cx texts ss') :
    Carries cx texts (ss ++ ss') := by
  intro s hs
  rcases mem_append.mp hs with hs | hs
  · exact h s hs
  · exact h' s hs

/-- Texts carry one more statement. -/
theorem Carries.cons (h : Carries cx texts ss) (hs : LoweredIn cx texts s) :
    Carries cx texts (s :: ss) := by
  intro s' hs'
  rcases mem_cons.mp hs' with heq | hs'
  · rw [heq]
    exact hs
  · exact h s' hs'

/-- Texts that others stand in carry what those carry. -/
theorem Carries.mono (h : Carries cx texts ss)
    (hstands : ∀ t ∈ texts, ∃ t' ∈ texts', StandsIn t t') : Carries cx texts' ss := by
  intro s hs
  obtain ⟨lines, hlines, hall⟩ := h s hs
  refine ⟨lines, hlines, ?_⟩
  intro l hl
  obtain ⟨t, ht, hstem⟩ := hall l hl
  obtain ⟨t', ht', hin⟩ := hstands t ht
  exact ⟨t', ht', hstem.trans hin⟩

/-- A text that another stands in carries what it carries. -/
theorem Carries.within (h : Carries cx [a] ss) (hb : b ∈ texts) (hin : StandsIn a b) :
    Carries cx texts ss := by
  apply h.mono
  intro t ht
  rw [mem_singleton.mp ht]
  exact ⟨b, hb, hin⟩

/-- A text carries what its pieces carry. -/
theorem Carries.piece {a b : String} {pieces : List String} (h : Carries cx [a] ss)
    (hpieces : ∀ a ∈ pieces, StandsIn a b) (ha : a ∈ pieces) : Carries cx [b] ss :=
  h.within (mem_singleton_self b) (hpieces a ha)

/-- Texts with commas in between carry what they carry apart. -/
theorem Carries.joined (h : Carries cx texts ss) : Carries cx [", ".intercalate texts] ss :=
  h.mono fun t ht => ⟨_, mem_singleton_self _, standsIn_intercalate ", " texts t ht⟩

theorem Carries.subset (h : Carries cx texts ss) (hsub : ∀ t ∈ texts, t ∈ texts') :
    Carries cx texts' ss :=
  h.mono fun t ht => ⟨t, hsub t ht, .refl t⟩

theorem Carries.append_texts_right (h : Carries cx texts ss) (texts' : List String) :
    Carries cx (texts ++ texts') ss :=
  h.subset fun _ => mem_append_left texts'

theorem Carries.append_texts_left (h : Carries cx texts ss) (texts' : List String) :
    Carries cx (texts' ++ texts) ss :=
  h.subset fun _ => mem_append_right texts'

/-- A statement is lowered in its own lines. -/
theorem LoweredIn.of_lines (h : Emit.stmt cx s = .ok lines) :
    LoweredIn cx (lines.map (·.text)) s :=
  ⟨lines, h, fun l hl => ⟨l.text, mem_map_of_mem hl, l.stem_standsIn⟩⟩

-- ==== lines and texts

/-- A block carries what its first line carries. -/
theorem Carries.braced_head (h : Carries cx [head] ss) (span : Span) (body : List Line) :
    Carries cx ((Emit.braced head span body).map (·.text)) ss := by
  apply h.subset
  intro t ht
  rw [mem_singleton.mp ht]
  exact mem_cons_self

/-- A block carries what the lines inside carry. -/
theorem Carries.braced_body (h : Carries cx (body.map (·.text)) ss) (head : String) (span : Span) :
    Carries cx ((Emit.braced head span body).map (·.text)) ss := by
  apply h.mono
  intro t ht
  obtain ⟨l, hl, rfl⟩ := mem_map.mp ht
  refine ⟨l.indent.text, ?_, (StandsIn.refl l.text).append_left "  "⟩
  apply mem_map_of_mem
  unfold Emit.braced
  exact mem_append_left _ (mem_cons_of_mem _ (mem_map_of_mem hl))

/-- Lines put into one text carry what they carry apart. -/
theorem Carries.inline (h : Carries cx (lines.map (·.text)) ss) :
    Carries cx [Emit.inline lines] ss := by
  apply h.mono
  intro t ht
  refine ⟨_, mem_singleton_self _, ?_⟩
  unfold Emit.inline
  cases lines with
  | nil => cases ht
  | cons first rest =>
    rw [isEmpty_cons, if_neg Bool.false_ne_true]
    exact (standsIn_intercalate " " _ t ht).append_right " "

-- ==== the values of a struct

/-- Each element has a result in a successful `mapM`. -/
theorem mapM_ok_mem {ε α β : Type} {f : α → Except ε β} {xs : List α} {ys : List β}
    (h : xs.mapM f = .ok ys) : ∀ x ∈ xs, ∃ y ∈ ys, f x = .ok y := by
  intro x hx
  have hmem := mem_map_of_mem (f := f) hx
  rw [map_eq_of_mapM_ok h] at hmem
  obtain ⟨y, hy, hfx⟩ := mem_map.mp hmem
  exact ⟨y, hy, hfx.symm⟩

/-- Fields are written one by one. -/
theorem fieldValues_append (fields fields' : List FieldInit) :
    Emit.fieldValues cx (fields ++ fields')
      = Emit.fieldValues cx fields ++ Emit.fieldValues cx fields' := by
  induction fields with
  | nil => rfl
  | cons f rest ih =>
    obtain ⟨name, value⟩ := f
    rw [cons_append, Emit.fieldValues, Emit.fieldValues, ih, cons_append]

/-- The value that a field takes is written. -/
theorem taken_mem_orderedValues {fieldOrder : List String} {before rest : List FieldInit}
    {name : String} {value : Expr} {values : List String}
    (hvalues : Emit.orderedValues fieldOrder
      (Emit.fieldValues cx (before ++ .mk name value :: rest)) = .ok values)
    (htakes : takesValue fieldOrder name rest = true) :
    ∃ t ∈ values, Emit.expr cx value = .ok t := by
  unfold Emit.orderedValues at hvalues
  cases fieldOrder with
  | nil =>
    rw [isEmpty_nil, if_pos rfl] at hvalues
    apply mapM_ok_mem hvalues (name, Emit.expr cx value)
    rw [fieldValues_append]
    exact mem_append_right _ mem_cons_self
  | cons first others =>
    rw [isEmpty_cons, if_neg Bool.false_ne_true] at hvalues
    rw [takesValue, isEmpty_cons, Bool.false_or, Bool.and_eq_true, Bool.not_eq_true'] at htakes
    obtain ⟨hname, hlater⟩ := htakes
    -- no later value is for the field, so it finds this one
    have hfound : (Emit.fieldValues cx (before ++ .mk name value :: rest)).reverse.lookup name
        = some (Emit.expr cx value) := by
      rw [← isSome_lookup_fieldValues cx, Option.isSome_eq_false_iff, Option.isNone_iff_eq_none]
        at hlater
      rw [fieldValues_append, reverse_append, lookup_append, Emit.fieldValues,
        lookup_reverse_cons, hlater, Option.none_or, if_pos (beq_self_eq_true name),
          Option.some_or]
    apply mapM_ok_mem hvalues (Emit.expr cx value)
    rw [mem_filterMap]
    exact ⟨name, contains_iff_mem.mp hname, hfound⟩

/-- The values of an initializer carry what is inside those that a field
takes. -/
theorem orderedValues_carries (fields before : List FieldInit)
    (hvalues : Emit.orderedValues fieldOrder (Emit.fieldValues cx (before ++ fields)) = .ok values)
    (h : ∀ f ∈ fields, ∀ t, Emit.expr cx f.value = .ok t →
      Carries cx [t] (f.value.written cx.fieldOrder).inner) :
    Carries cx values (fieldsInner (fieldsWritten cx.fieldOrder fieldOrder fields)) := by
  induction fields generalizing before with
  | nil => exact .nil
  | cons f rest ih =>
    obtain ⟨name, value⟩ := f
    rw [fieldsWritten, fieldsInner]
    apply Carries.append
    · cases htakes : takesValue fieldOrder name rest with
      | false => exact .nil
      | true =>
        obtain ⟨t, ht, hvalue⟩ := taken_mem_orderedValues hvalues htakes
        rw [if_pos rfl]
        exact (h _ mem_cons_self t hvalue).within ht (.refl t)
    · apply ih (before ++ [.mk name value])
      · rw [append_assoc]
        exact hvalues
      · intro f hf
        exact h f (mem_cons_of_mem _ hf)

-- ==== semicolons at the end

/-- One semicolon more makes no difference. -/
theorem trimRightWhile_semicolon (cs : List Char) :
    Text.trimRightWhile (· == ';') (cs ++ [';']) = Text.trimRightWhile (· == ';') cs := by
  unfold Text.trimRightWhile
  rw [reverse_append]
  rfl

/-- The text ends, and not in a semicolon. -/
def Closed (text : String) : Prop :=
  text.toList.getLast?.any (· != ';') = true

instance (text : String) : Decidable (Closed text) :=
  inferInstanceAs (Decidable (text.toList.getLast?.any (· != ';') = true))

/-- A text ends as its last part does. -/
theorem Closed.append_left (h : Closed tail) (front : String) : Closed (front ++ tail) := by
  unfold Closed at h ⊢
  rw [String.toList_append, getLast?_append]
  cases hlast : tail.toList.getLast? with
  | none =>
    rw [hlast] at h
    cases h
  | some c =>
    rw [hlast] at h
    exact h

/-- A closed text has no semicolon to lose. -/
theorem Closed.trimRightWhile (h : Closed text) :
    Text.trimRightWhile (· == ';') text.toList = text.toList := by
  unfold Closed at h
  unfold Text.trimRightWhile
  rw [getLast?_eq_head?_reverse] at h
  cases hrev : text.toList.reverse with
  | nil => rw [← reverse_reverse text.toList, hrev]; rfl
  | cons c rest =>
    have hc : (c == ';') = false := by
      rw [hrev] at h
      simpa using h
    rw [dropWhile_cons_of_neg (by rw [hc]; exact Bool.false_ne_true), ← hrev, reverse_reverse]

/-- A declaration in a header keeps a closed value. -/
theorem standsIn_stem_varDecl (isGlobal : Bool) (name : String) (typeName : Option String)
    (isConst isVolatile : Bool) (h : Closed initializer) :
    StandsIn initializer (String.ofList (Text.trimRightWhile (· == ';')
      (Emit.varDecl isGlobal name typeName isConst isVolatile initializer).toList)) := by
  obtain ⟨front, hfront⟩ : ∃ front : String,
      Emit.varDecl isGlobal name typeName isConst isVolatile initializer
        = front ++ initializer ++ ";" := ⟨_, rfl⟩
  rw [hfront, String.toList_append, show ";".toList = [';'] from rfl, trimRightWhile_semicolon,
    (h.append_left front).trimRightWhile, String.ofList_toList]
  exact (StandsIn.refl initializer).append_left front

/-- A statement without its semicolon stands in its expression. -/
theorem standsIn_stem_semicolon (text : String) (span : Option Span) :
    StandsIn (Line.stem ⟨text ++ ";", span⟩) text := by
  have hstem : Line.stem ⟨text ++ ";", span⟩ = Line.stem ⟨text, span⟩ := by
    unfold Line.stem
    rw [String.toList_append, show ";".toList = [';'] from rfl, trimRightWhile_semicolon]
  rw [hstem]
  exact Line.stem_standsIn ⟨text, span⟩

/-- An assignment ends in a parenthesis, not in a semicolon. -/
theorem assignment_closed (target op value : String) :
    Closed (Emit.assignment target op value) := by
  unfold Emit.assignment
  split
  · exact .append_left (show Closed ")" by decide) _
  · split
    · exact .append_left (show Closed ")" by decide) _
    · exact .append_left (show Closed "))" by decide) _

/-- An expression with a statement inside ends in no semicolon. -/
theorem expr_closed (h : Emit.expr cx e = .ok t) :
    (e.written cx.fieldOrder).inner = [] ∨ Closed t := by
  have hparen : Closed ")" := by decide
  cases e with
  | literal | ident => exact .inl rfl
  | assign =>
    rw [Emit.expr_assign] at h
    obtain ⟨v, -, t, -, rfl⟩ := bind₂_ok h
    exact .inr (assignment_closed _ _ _)
  | ifElse =>
    simp only [Emit.expr, bind_eq_ok] at h
    obtain ⟨c, -, t, -, e, -, h⟩ := h
    split at h
    · rw [pure_eq_ok] at h
      rw [← h]
      exact .inr (.append_left (show Closed "))" by decide) _)
    · obtain ⟨before, -, before', -, rfl⟩ := bind₂_ok h
      exact .inr (.append_left (show Closed "; \x7d \x7d)()" by decide) _)
  | cast =>
    obtain ⟨o, -, rfl⟩ := bind_ok h
    exact .inr (.append_left (show Closed "))" by decide) _)
  | structInit =>
    obtain ⟨values, -, rfl⟩ := bind_ok h
    exact .inr (.append_left (show Closed "\x7d" by decide) _)
  | unary | postfixed | member =>
    obtain ⟨o, -, rfl⟩ := bind_ok h
    exact .inr (hparen.append_left _)
  | binary | bitwise | call =>
    obtain ⟨l, -, r, -, rfl⟩ := bind₂_ok h
    exact .inr (hparen.append_left _)

/-- A value with a statement inside ends in no semicolon. -/
theorem initializer_closed (h : Emit.initializer cx e? = .ok t) :
    exprInner? (exprWritten? cx.fieldOrder e?) = [] ∨ Closed t := by
  cases e? with
  | none => exact .inl rfl
  | some e =>
    cases e with
    | structInit =>
      obtain ⟨values, -, rfl⟩ := bind_ok h
      exact .inr (.append_left (show Closed "\x7d" by decide) _)
    | _ =>
      obtain ⟨o, ho, rfl⟩ := bind_ok h
      rcases expr_closed ho with hnil | hclosed
      · exact .inl hnil
      · exact .inr (hclosed.append_left _)

/-- A declaration holds the value as it is written. -/
theorem standsIn_varDecl (isGlobal : Bool) (name : String) (typeName : Option String)
    (isConst isVolatile : Bool) (initializer : String) :
    StandsIn initializer (Emit.varDecl isGlobal name typeName isConst isVolatile initializer) :=
  ((StandsIn.refl initializer).append_left _).append_right ";"

/-- An assignment holds its two sides. -/
theorem standsIn_assignment (target op value : String) :
    ∀ a ∈ [target, value], StandsIn a (Emit.assignment target op value) := by
  intro a ha
  unfold Emit.assignment
  split
  · exact standsIn_concat [target, " = ", value, ")"] "(" a (by simp at ha ⊢; tauto)
  · split
    · exact standsIn_concat [target, " ", op, " ", value, ")"] "(" a (by simp at ha ⊢; tauto)
    · rename_i op' _
      exact standsIn_concat [target, " = (", target, " ", op', " ", value, "))"] "(" a
        (by simp at ha ⊢; tauto)

/-- An arm of a match carries what its body carries. -/
theorem Carries.arm (h : Carries cx (body.map (·.text)) ss) (head : String) (span : Span) :
    Carries cx ((Emit.braced head span (body ++ [⟨"break;", some span⟩])).map (·.text)) ss := by
  apply Carries.braced_body
  rw [map_append]
  exact h.append_texts_right _

/-- Nothing is inside an empty block. -/
theorem Block.inner_written_of_isEmpty {b : Block} (order : String → List String)
    (h : b.statements.isEmpty = true) : (b.written order).inner = [] := by
  obtain ⟨span, statements⟩ := b
  cases statements with
  | nil => rfl
  | cons s rest => cases h

variable (hb : cx.backend = .esp32)
include hb

-- the backend is looked at in few places of the induction
set_option linter.unusedSectionVars false in
mutual

/-- The text of an expression carries what is inside it. -/
theorem expr_carries :
    ∀ (e : Expr) {t : String}, Emit.expr cx e = .ok t →
      Carries cx [t] (e.written cx.fieldOrder).inner
  | .literal .., _, _ => .nil
  | .ident .., _, _ => .nil
  | .unary _ op operand, _, h => by
    obtain ⟨o, ho, rfl⟩ := bind_ok h
    exact (expr_carries operand ho).piece (standsIn_concat [op, o, ")"] "(") (by simp)
  | .postfixed _ operand op, _, h => by
    obtain ⟨o, ho, rfl⟩ := bind_ok h
    exact (expr_carries operand ho).piece (standsIn_concat [o, op, ")"] "(") (by simp)
  | .binary _ left op right, _, h | .bitwise _ left op right, _, h => by
    obtain ⟨l, hl, r, hr, rfl⟩ := bind₂_ok h
    have hpieces := standsIn_concat [l, " ", op, " ", r, ")"] "("
    exact ((expr_carries left hl).piece hpieces (by simp)).append
      ((expr_carries right hr).piece hpieces (by simp))
  | .assign _ target op value, _, h => by
    rw [Emit.expr_assign] at h
    obtain ⟨v, hv, t, ht, rfl⟩ := bind₂_ok h
    have hpieces := standsIn_assignment t op v
    have htarget : Carries cx [t] (target.written cx.fieldOrder).inner := by
      cases target with
      | member _ object name =>
        obtain ⟨o, ho, rfl⟩ := bind_ok ht
        exact (expr_carries object ho).piece (standsIn_concat [".", name] o) (by simp)
      | _ => exact expr_carries _ ht
    exact (htarget.piece hpieces (by simp)).append
      ((expr_carries value hv).piece hpieces (by simp))
  | .cast _ operand typeName, _, h => by
    obtain ⟨o, ho, rfl⟩ := bind_ok h
    exact (expr_carries operand ho).piece
      (standsIn_concat [TypeName.toGenerated typeName, ")(", o, "))"] "((") (by simp)
  | .call _ callee args, _, h => by
    obtain ⟨f, hf, as, has, rfl⟩ := bind₂_ok h
    have hpieces := standsIn_concat ["(", ", ".intercalate as, ")"] f
    exact ((expr_carries callee hf).piece hpieces (by simp)).append
      ((exprs_carries args has).joined.piece hpieces (by simp))
  | .structInit _ typeName fields, _, h => by
    obtain ⟨values, hvalues, rfl⟩ := bind_ok h
    have hfields := orderedValues_carries fields [] hvalues (fields_carry fields)
    exact hfields.joined.piece
      (standsIn_concat ["\x7b", ", ".intercalate values, "\x7d"] (TypeName.toGenerated typeName))
      (by simp)
  | .member _ object name, _, h => by
    obtain ⟨o, ho, rfl⟩ := bind_ok h
    exact (expr_carries object ho).piece (standsIn_concat [o, ".", name, ")"] "(") (by simp)
  | .ifElse _ condition thenBlock thenValue elseBlock elseValue, _, h => by
    simp only [Emit.expr, bind_eq_ok] at h
    obtain ⟨c, hc, t, ht, e, he, h⟩ := h
    split at h
    · rename_i hempty
      rw [Bool.and_eq_true] at hempty
      rw [pure_eq_ok] at h
      rw [← h, Expr.written, Expr.inner, Block.inner_written_of_isEmpty _ hempty.1,
        Block.inner_written_of_isEmpty _ hempty.2]
      have hpieces := standsIn_concat [c, ") ? (", t, ") : (", e, "))"] "(("
      exact ((expr_carries condition hc).piece hpieces (by simp)).append
        (((expr_carries thenValue ht).piece hpieces (by simp)).append
          ((expr_carries elseValue he).piece hpieces (by simp)))
    · obtain ⟨before, hbefore, before', hbefore', rfl⟩ := bind₂_ok h
      have hpieces := standsIn_concat [c, ") \x7b ", Emit.inline before, "return ", t, "; \x7d ",
        "else \x7b ", Emit.inline before', "return ", e, "; \x7d \x7d)()"] "([&]() \x7b if ("
      exact ((expr_carries condition hc).piece hpieces (by simp)).append
        (((block_carries thenBlock hbefore).inline.piece hpieces (by simp)).append
          (((expr_carries thenValue ht).piece hpieces (by simp)).append
            (((block_carries elseBlock hbefore').inline.piece hpieces (by simp)).append
              ((expr_carries elseValue he).piece hpieces (by simp)))))

theorem exprs_carries :
    ∀ (es : List Expr) {ts : List String}, Emit.exprs cx es = .ok ts →
      Carries cx ts (exprsInner (exprsWritten cx.fieldOrder es))
  | [], _, _ => .nil
  | e :: es, _, h => by
    obtain ⟨t, ht, ts, hts, rfl⟩ := bind₂_ok h
    exact ((expr_carries e ht).within mem_cons_self (.refl t)).append
      ((exprs_carries es hts).subset fun _ => mem_cons_of_mem _)

/-- The text of a value carries what is inside it. -/
theorem fields_carry :
    ∀ (fields : List FieldInit), ∀ f ∈ fields, ∀ t, Emit.expr cx f.value = .ok t →
      Carries cx [t] (f.value.written cx.fieldOrder).inner
  | .mk _ value :: fields, f, hf, t, ht => by
    rcases mem_cons.mp hf with heq | hf
    · rw [heq] at ht ⊢
      exact expr_carries value ht
    · exact fields_carry fields f hf t ht

/-- The lines of a block carry its statements. -/
theorem block_carries :
    ∀ (b : Block) {lines : List Line}, Emit.block cx b = .ok lines →
      Carries cx (lines.map (·.text)) (b.written cx.fieldOrder).inner
  | .mk _ statements, _, h => stmts_carries statements h

/-- The lines of statements carry these and what is inside. -/
theorem stmts_carries :
    ∀ (ss : List Stmt) {lines : List Line}, Emit.stmts cx ss = .ok lines →
      Carries cx (lines.map (·.text)) (stmtsInner (stmtsWritten cx.fieldOrder ss))
  | [], _, _ => .nil
  | s :: rest, _, h => by
    obtain ⟨first, hfirst, others, hothers, rfl⟩ := bind₂_ok h
    have hwritten : Emit.stmt cx (s.written cx.fieldOrder) = .ok first := by
      rw [stmt_written hb, hfirst]
    rw [map_append]
    have hs := ((stmt_carries s hfirst).cons (.of_lines hwritten)).append_texts_right
      (others.map (·.text))
    exact hs.append ((stmts_carries rest hothers).append_texts_left (first.map (·.text)))

/-- The lines of a statement carry what is inside it. -/
theorem stmt_carries :
    ∀ (s : Stmt) {lines : List Line}, Emit.stmt cx s = .ok lines →
      Carries cx (lines.map (·.text)) (s.written cx.fieldOrder).inner
  | .importDecl .., _, _ => .nil
  | .structDecl .., _, _ => .nil
  | .taskDecl .., _, _ => .nil
  | .busDecl .., _, _ => .nil
  | .functionDecl .., _, _ => .nil
  | .loopDecl .., _, _ => .nil
  | .spawn .., _, _ => .nil
  | .raw .., _, _ => .nil
  | .varDecl _ name typeName initializer _ isConst isVolatile, _, h => by
    obtain ⟨i, hi, rfl⟩ := bind_ok h
    exact (initializer_carries initializer hi).within mem_cons_self
      (standsIn_varDecl false name typeName isConst isVolatile i)
  | .block body, _, h => by
    obtain ⟨lines, hlines, rfl⟩ := bind_ok h
    exact (block_carries body hlines).braced_body _ _
  | .ifElse _ condition thenBranch none, _, h => by
    obtain ⟨c, hc, lines, hlines, rfl⟩ := bind₂_ok h
    have hcondition := (expr_carries condition hc).piece
      (standsIn_concat [c, ") \x7b"] "if (") (by simp)
    exact (hcondition.braced_head _ _).append
      (((block_carries thenBranch hlines).braced_body _ _).append .nil)
  | .ifElse _ condition thenBranch (some body), _, h => by
    obtain ⟨c, hc, lines, hlines, lines', hlines', rfl⟩ := bind₃_ok h
    have hcondition := (expr_carries condition hc).piece
      (standsIn_concat [c, ") \x7b"] "if (") (by simp)
    rw [map_append]
    exact ((hcondition.braced_head _ _).append_texts_right _).append
      ((((block_carries thenBranch hlines).braced_body _ _).append_texts_right _).append
        (((block_carries body hlines').braced_body _ _).append_texts_left _))
  | .whileLoop _ condition body, _, h => by
    obtain ⟨c, hc, lines, hlines, rfl⟩ := bind₂_ok h
    have hcondition := (expr_carries condition hc).piece
      (standsIn_concat [c, ") \x7b"] "while (") (by simp)
    exact (hcondition.braced_head _ _).append ((block_carries body hlines).braced_body _ _)
  | .forLoop _ init condition update body, _, h => by
    rw [Emit.stmt_forLoop] at h
    obtain ⟨i, hi, c, hc, u, hu, lines, hlines, rfl⟩ := bind₄_ok h
    have hpieces := standsIn_concat [i, "; ", c, "; ", u, ") \x7b"] "for ("
    exact (((clause_carries init hi).piece hpieces (by simp)).braced_head _ _).append
      ((((exprOr_carries condition hc).piece hpieces (by simp)).braced_head _ _).append
        ((((exprOr_carries update hu).piece hpieces (by simp)).braced_head _ _).append
          ((block_carries body hlines).braced_body _ _)))
  | .returnValue _ none, _, _ => .nil
  | .returnValue _ (some value), _, h => by
    obtain ⟨v, hv, rfl⟩ := bind_ok h
    exact (expr_carries value hv).piece (standsIn_concat [v, ";"] "return ") (by simp)
  | .expr _ e, _, h => by
    obtain ⟨t, ht, rfl⟩ := bind_ok h
    exact (expr_carries e ht).piece (standsIn_concat [";"] t) (by simp)
  | .matchValue _ value arms, _, h => by
    obtain ⟨v, hv, lines, hlines, rfl⟩ := bind₂_ok h
    have hvalue := (expr_carries value hv).piece
      (standsIn_concat [v, ") \x7b"] "switch (") (by simp)
    rw [map_append, map_cons]
    refine (hvalue.subset fun t ht => ?_).append
      (((arms_carry arms hlines).subset fun _ => mem_cons_of_mem _).append_texts_right _)
    rw [mem_singleton.mp ht]
    exact mem_cons_self
  | .gpioMode _ pin mode, _, h => by
    obtain ⟨p, hp, rfl⟩ := bind_ok h
    exact (expr_carries pin hp).piece
      (standsIn_concat [p, ", ", if mode == "out" then "OUTPUT" else "INPUT", ");"] "pinMode(")
      (by simp)
  | .digitalWrite _ pin value, _, h => by
    simp only [Emit.stmt, hb, bind_eq_ok, pure_eq_ok] at h
    obtain ⟨p, hp, v, hv, rfl⟩ := h
    have hpieces := standsIn_concat [p, "), static_cast<bool>(", v, "));"]
      "__dsl_fast_write(static_cast<uint8_t>("
    exact ((expr_carries pin hp).piece hpieces (by simp)).append
      ((expr_carries value hv).piece hpieces (by simp))
  | .pwmWrite _ pin duty _, _, h => by
    rw [Emit.stmt_pwmWrite hb] at h
    obtain ⟨p, hp, d, hd, rfl⟩ := bind₂_ok h
    have hattach := standsIn_concat [p, ", 5000, 8);"] "ledcAttach("
    have hwrite := standsIn_concat [p, ", ", d, ");"] "ledcWrite("
    exact ((expr_carries pin hp).within mem_cons_self (hattach p (by simp))).append
      (((expr_carries duty hd).within (mem_cons_of_mem _ mem_cons_self)
        (hwrite d (by simp))).append .nil)
  | .rgbWrite _ pin red green blue, _, h => by
    rw [Emit.stmt_rgbWrite hb] at h
    obtain ⟨p, hp, r, hr, g, hg, b, hb', rfl⟩ := bind₄_ok h
    have hpieces := standsIn_concat [p, ", ", r, ", ", g, ", ", b, ");"] "neopixelWrite("
    exact ((expr_carries pin hp).piece hpieces (by simp)).append
      (((expr_carries red hr).piece hpieces (by simp)).append
        (((expr_carries green hg).piece hpieces (by simp)).append
          ((expr_carries blue hb').piece hpieces (by simp))))
  | .delay _ time, _, h => by
    cases time with
    | literal => exact .nil
    | _ =>
      obtain ⟨t, ht, rfl⟩ := bind_ok h
      exact (expr_carries _ ht).piece (standsIn_concat [t, ");"] "delay(") (by simp)
  | .wifiConnect _ ssid password, _, h => by
    obtain ⟨s, hs, p, hp, rfl⟩ := bind₂_ok h
    have hpieces := standsIn_concat [s, ", ", p, ");"] "WiFi.begin("
    exact ((expr_carries ssid hs).within mem_cons_self (hpieces s (by simp))).append
      ((expr_carries password hp).within mem_cons_self (hpieces p (by simp)))

/-- The lines of a match carry what is inside its arms. -/
theorem arms_carry :
    ∀ (arms : List MatchArm) {lines : List Line}, Emit.arms cx arms = .ok lines →
      Carries cx (lines.map (·.text)) (armsInner (armsWritten cx.fieldOrder arms))
  | [], _, _ => .nil
  | .mk _ pattern true body :: rest, _, h => by
    simp only [Emit.arms, if_true, pure_bind, bind_eq_ok, pure_eq_ok] at h
    obtain ⟨lines, hlines, others, hothers, rfl⟩ := h
    rw [map_append]
    exact Carries.nil.append (((block_carries body hlines).arm _ _).append_texts_right _ |>.append
      ((arms_carry rest hothers).append_texts_left _))
  | .mk _ none false body :: rest, _, h => by
    simp only [Emit.arms, Bool.false_eq_true, if_false, pure_bind, bind_eq_ok, pure_eq_ok] at h
    obtain ⟨lines, hlines, others, hothers, rfl⟩ := h
    rw [map_append]
    exact Carries.nil.append (((block_carries body hlines).arm _ _).append_texts_right _ |>.append
      ((arms_carry rest hothers).append_texts_left _))
  | .mk _ (some pattern) false body :: rest, _, h => by
    simp only [Emit.arms, Bool.false_eq_true, if_false, pure_bind, bind_eq_ok, pure_eq_ok] at h
    obtain ⟨p, hp, lines, hlines, others, hothers, rfl⟩ := h
    have hpattern := (expr_carries pattern hp).piece
      (standsIn_concat [p, ": \x7b"] "case ") (by simp)
    rw [map_append]
    exact ((hpattern.braced_head _ _).append_texts_right _).append
      ((((block_carries body hlines).arm _ _).append_texts_right _).append
        ((arms_carry rest hothers).append_texts_left _))

/-- The first clause of a header carries what is inside it. -/
theorem clause_carries :
    ∀ (init : Option Stmt) {t : String}, Emit.clause cx init = .ok t →
      Carries cx [t] (clauseInner? (clauseWritten? cx.fieldOrder init))
  | none, _, _ => .nil
  | some init, t, h => by
    cases init with
    | varDecl span name typeName initializer isMutable isConst isVolatile =>
      obtain ⟨i, hi, rfl⟩ := bind_ok h
      refine .cons ?_ ⟨[⟨Emit.varDecl false name typeName isConst isVolatile i, some span⟩],
        ?_, fun l hl => ⟨_, mem_singleton_self _, ?_⟩⟩
      · rcases initializer_closed hi with hnil | hclosed
        · exact .of_eq_nil hnil
        · exact (initializer_carries initializer hi).within (mem_singleton_self _)
            (standsIn_stem_varDecl false name typeName isConst isVolatile hclosed)
      · simp only [Emit.stmt, initializer_written hb, hi]
        rfl
      · rw [mem_singleton.mp hl]
        exact .refl _
    | expr span e =>
      refine (expr_carries e h).cons ⟨[⟨t ++ ";", some span⟩], ?_,
        fun l hl => ⟨_, mem_singleton_self _, ?_⟩⟩
      · rw [Emit.clause] at h
        simp only [Emit.stmt, expr_written hb e, h]
        rfl
      · rw [mem_singleton.mp hl]
        exact standsIn_stem_semicolon _ _
    | _ => exact .nil

/-- A part of a header carries what is inside it. -/
theorem exprOr_carries :
    ∀ (e? : Option Expr) {t : String}, Emit.exprOr cx missing e? = .ok t →
      Carries cx [t] (exprInner? (exprWritten? cx.fieldOrder e?))
  | none, _, _ => .nil
  | some e, _, h => expr_carries e h

/-- The value of a variable carries what is inside it. -/
theorem initializer_carries :
    ∀ (e? : Option Expr) {t : String}, Emit.initializer cx e? = .ok t →
      Carries cx [t] (exprInner? (exprWritten? cx.fieldOrder e?))
  | none, _, _ => .nil
  | some e, _, h => by
    cases e with
    | structInit _ typeName fields =>
      obtain ⟨values, hvalues, rfl⟩ := bind_ok h
      have hfields := orderedValues_carries fields [] hvalues (fields_carry fields)
      exact hfields.joined.piece (standsIn_concat [", ".intercalate values, "\x7d"] " = \x7b")
        (by simp)
    | _ =>
      obtain ⟨t, ht, rfl⟩ := bind_ok h
      exact (expr_carries _ ht).piece (standsIn_concat [t] " = ") (by simp)

end

end SketchCompiler
