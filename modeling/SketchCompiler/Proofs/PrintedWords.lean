/-
Proper trees can be written down.  The words that a proper tree without
fractions is printed as are spelled as their kinds allow, and a raw
block follows its keyword, so the scanner reads them again from the text
(`Program.Proper.writable`).
-/
import SketchCompiler.Proofs.NumeralText
import SketchCompiler.Proofs.Proper

namespace SketchCompiler

open List

variable {ws : List Word}

-- ==== writable words

/-- Words of the kind have one text, and it opens no raw block. -/
def Kind.isSign (k : Kind) : Bool :=
  k.text != "" && k != .kwUnsafe && k != .rawBlock

theorem Writable.of (hk : k.isSign = true) (h : Writable ws) : Writable (Word.of k :: ws) := by
  simp only [Kind.isSign, Bool.and_eq_true, bne_iff_ne] at hk
  exact .word (Kind.spelled_text hk.1.1) hk.1.2 hk.2 h

theorem Writable.name {name : String} (hname : IsName name) (h : Writable ws) :
    Writable (Word.name name :: ws) :=
  .word hname (by decide : Kind.ident ≠ .kwUnsafe) (by decide : Kind.ident ≠ .rawBlock) h

theorem Writable.string (s : String) (h : Writable ws) : Writable (⟨.string, s⟩ :: ws) :=
  .word (.text _) (by decide : Kind.string ≠ .kwUnsafe) (by decide : Kind.string ≠ .rawBlock) h

theorem Writable.inParens (h : Writable ws) : Writable (inParens ws) :=
  .of rfl (h.append (.of rfl .nil))

theorem Writable.inBraces (h : Writable ws) : Writable (inBraces ws) :=
  .of rfl (h.append (.of rfl .nil))

theorem Writable.commas (h : ∀ ws ∈ wss, Writable ws) : Writable (commas wss) := by
  have hcomma : Writable [⟨.comma, ","⟩] := .of (k := .comma) rfl .nil
  induction wss with
  | nil => exact .nil
  | cons ws wss ih =>
    have hws := h ws mem_cons_self
    cases wss with
    | nil =>
      rw [commas_singleton]
      exact hws
    | cons ws' wss =>
      have hrest := ih fun x hx => h x (mem_cons_of_mem _ hx)
      rw [commas_cons_cons]
      exact hws.append (hcomma.append hrest)

theorem Writable.flatMap {α : Type} {xs : List α} {words : α → List Word}
    (h : ∀ x ∈ xs, Writable (words x)) : Writable (xs.flatMap words) := by
  induction xs with
  | nil => exact .nil
  | cons x xs ih =>
    rw [flatMap_cons]
    exact (h x mem_cons_self).append (ih fun y hy => h y (mem_cons_of_mem _ hy))

theorem Writable.getD {ws? : Option (List Word)} (h : ∀ ws ∈ ws?, Writable ws)
    (hws : Writable ws) :
    Writable (ws?.getD ws) := by
  cases ws? with
  | none => exact hws
  | some ws' => exact h ws' rfl

theorem Word.operator_text : ∀ k ∈ operators.map (·.2), Word.operator k.text = Word.of k := by
  decide

theorem Word.ofText_text : ∀ k ∈ keywords.map (·.2), Word.ofText k.text = Word.of k := by
  decide

theorem IsTextOf.operator_kind (h : IsTextOf kinds op)
    (hk : ∀ k ∈ kinds, k ∈ operators.map (·.2)) :
    (Word.operator op).kind ∈ kinds := by
  obtain ⟨k, hmem, rfl⟩ := h
  rw [Word.operator_text k (hk k hmem)]
  exact hmem

/-- An operator of a node can be written. -/
theorem Writable.operator (hop : IsTextOf kinds op) (hk : ∀ k ∈ kinds, k ∈ operators.map (·.2))
    (h : Writable ws) : Writable (Word.operator op :: ws) := by
  obtain ⟨k, hmem, rfl⟩ := hop
  have hwords : ∀ k ∈ operators.map (·.2), k.isSign = true := by decide
  rw [Word.operator_text k (hk k hmem)]
  exact .of (hwords k (hk k hmem)) h

theorem IsName.kindOfWord (h : IsName name) : kindOfWord name = .ident := by
  have hname : name = String.ofList name.toList := String.ofList_toList.symm
  unfold IsName at h
  generalize name.toList = cs at h hname
  subst hname
  cases h with
  | word _ _ hk => exact hk
  | pair h => exact absurd rfl (text_ne_of_pair h)
  | single h => exact absurd rfl (text_ne_of_char h)

theorem IsName.ofText (h : IsName name) : Word.ofText name = Word.name name := by
  unfold Word.ofText Word.name
  rw [h.kindOfWord]

theorem Writable.ofText (htext : IsTextOf kinds text)
    (hk : ∀ k ∈ kinds, k ∈ keywords.map (·.2) ∧ k.isSign = true)
    (h : Writable ws) : Writable (Word.ofText text :: ws) := by
  obtain ⟨k, hmem, rfl⟩ := htext
  rw [Word.ofText_text k (hk k hmem).1]
  exact .of (hk k hmem).2 h

theorem isDigit_of_mem_toDigits (h : c ∈ Nat.toDigits 10 n) : Text.isDigit c = true := by
  obtain ⟨ds, hlt, -, -, htext⟩ := Numeral.exists_digits (by decide : 1 < 10) n
  rw [htext] at h
  obtain ⟨d, hd, rfl⟩ := mem_map.mp h
  have hdigits : ∀ d < 10, Text.isDigit (Nat.digitChar d) = true := by decide
  exact hdigits d (hlt d hd)

theorem isHexDigit_of_mem_toDigits (h : c ∈ Nat.toDigits 16 n) : isHexDigit c = true := by
  obtain ⟨ds, hlt, -, -, htext⟩ := Numeral.exists_digits (by decide : 1 < 16) n
  rw [htext] at h
  obtain ⟨d, hd, rfl⟩ := mem_map.mp h
  have hdigits : ∀ d < 16, isHexDigit (Nat.digitChar d) = true := by decide
  exact hdigits d (hlt d hd)

theorem LiteralValue.Proper.writable {value : LiteralValue} {typeName : String}
    (h : value.Proper False typeName) : Writable [value.word] := by
  cases value with
  | int n =>
    refine .word ?_ (by decide : Kind.int ≠ .kwUnsafe) (by decide : Kind.int ≠ .rawBlock) .nil
    show Spelled .int ("0x" ++ String.ofList (Nat.toDigits 16 n.toNat)).toList
    simp only [String.toList_append, String.toList_ofList]
    exact .hexadecimal (.inl rfl) Nat.toDigits_ne_nil fun d hd => isHexDigit_of_mem_toDigits hd
  | float x => exact h.1.elim
  | bool b =>
    cases b with
    | true => exact .of rfl .nil
    | false => exact .of rfl .nil
  | text s => exact .string s .nil
  | duration n unit =>
    refine .word ?_ (by decide : Kind.duration ≠ .kwUnsafe)
      (by decide : Kind.duration ≠ .rawBlock) .nil
    show Spelled .duration (String.ofList (Nat.toDigits 10 n.toNat) ++ unit).toList
    rw [String.toList_append, String.toList_ofList]
    exact .duration Nat.toDigits_ne_nil (fun d hd => isDigit_of_mem_toDigits hd) h.2.2.1

theorem Writable.property {key : String} (hkey : IsName key) (h : Writable ws) :
    Writable (propertyWords key ws) :=
  .name hkey (.of rfl (h.append (.of rfl .nil)))

theorem Writable.behind (hk : k.isSign = true)
    (h : ∀ ws ∈ ws?, Writable ws) : Writable (behindWords k ws?) := by
  cases ws? with
  | none => exact .nil
  | some ws => exact .of hk (h ws rfl)

/-- A variable declaration can be written. -/
theorem Writable.variable {name : String} {typeName : Option String}
    {initializer : Option (List Word)} {isConst isVolatile : Bool} (hname : IsName name)
    (htype : ∀ t ∈ typeName, IsName t) (hinit : ∀ ws ∈ initializer, Writable ws) :
    Writable (variableWords name typeName initializer isConst isVolatile) := by
  unfold variableWords
  refine .append ?_ (.append ?_ (.of rfl (.name hname (.append ?_ ?_))))
  · cases isConst with
    | false => exact .nil
    | true => exact .of rfl .nil
  · cases isVolatile with
    | false => exact .nil
    | true => exact .of rfl .nil
  · refine .behind (by decide) fun ws hws => ?_
    obtain ⟨t, ht, rfl⟩ := Option.map_eq_some_iff.mp hws
    exact .name (htype t ht) .nil
  · exact .behind (by decide) hinit

theorem Writable.hardware (hk : k.isSign = true)
    (h : ∀ ws ∈ args, Writable ws) : Writable (hardwareWords k args) :=
  .of hk ((Writable.commas h).inParens.append (.of rfl .nil))

theorem Writable.callee {callee : Expr} {core : List Word}
    (h : callee.isAnalogRead = true ∨ Writable core) : Writable (calleeWords callee core) := by
  unfold calleeWords
  split
  · exact .of rfl .nil
  · rename_i hcallee
    rcases h with h | h
    · unfold Expr.isAnalogRead at h
      split at h
      · rename_i s name
        exact absurd (by rw [of_decide_eq_true h]) (hcallee s)
      · cases h
    · exact h.inParens

mutual

theorem Expr.Proper.writable : ∀ {e : Expr}, e.Proper False → Writable e.core
  | .literal _ value _, h => LiteralValue.Proper.writable h
  | .ident _ name, h => .name h .nil
  | .unary _ op e, h => .operator h.1 (by decide) h.2.writable.inParens
  | .postfixed _ e op, h => h.1.writable.inParens.append (.operator h.2 (by decide) .nil)
  | .binary _ _ _ _, h | .bitwise _ _ _ _, h =>
    h.1.writable.inParens.append (.operator h.2.1 (by decide) h.2.2.writable.inParens)
  | .assign _ l op r, h =>
    h.1.writable.inParens.append (.operator h.2.2.1 (by decide) h.2.2.2.writable.inParens)
  | .cast _ _ _, h | .member _ _ _, h =>
    h.1.writable.inParens.append (.of rfl (.name h.2 .nil))
  | .call _ callee args, h =>
    .append (.callee (h.1.imp (·.1) (·.writable)))
      (Writable.commas (exprsProper.writable h.2)).inParens
  | .structInit _ typeName fields, h =>
    .name h.1 (Writable.commas (fieldsProper.writable h.2.2)).inParens
  | .ifElse _ condition thenBlock thenValue elseBlock elseValue, h => by
    obtain ⟨hcond, hthen, -, hthenValue, helse, -, helseValue⟩ := h
    refine .of rfl (.append (.append hcond.writable.inParens.inParens ?_) ?_)
    · exact (hthen.writable.append hthenValue.writable.inParens).inBraces
    · exact .of rfl (helse.writable.append helseValue.writable.inParens).inBraces

theorem exprProper?.writable : ∀ {e? : Option Expr}, exprProper? False e? →
    ∀ ws ∈ exprWords? e?, Writable ws
  | some e, h, ws, hws => by
    cases hws
    exact (Expr.Proper.writable h).inParens
  | none, _, ws, hws => by cases hws

theorem exprsProper.writable : ∀ {es : List Expr}, exprsProper False es →
    ∀ ws ∈ exprsWords es, Writable ws
  | [], _, ws, hws => by cases hws
  | e :: es, h, ws, hws => by
    rcases mem_cons.mp hws with rfl | hws
    · exact h.1.writable.inParens
    · exact exprsProper.writable h.2 ws hws

theorem FieldInit.Proper.writable : ∀ {f : FieldInit}, f.Proper False → Writable f.words
  | .mk _ _, h => .name h.1 (.of rfl h.2.writable.inParens)

theorem fieldsProper.writable : ∀ {fs : List FieldInit}, fieldsProper False fs →
    ∀ ws ∈ fieldsWords fs, Writable ws
  | [], _, ws, hws => by cases hws
  | f :: fs, h, ws, hws => by
    rcases mem_cons.mp hws with rfl | hws
    · exact h.1.writable
    · exact fieldsProper.writable h.2 ws hws

theorem Block.Proper.writable : ∀ {b : Block}, b.Proper False → Writable b.core
  | .mk .., h => stmtsProper.writable h

theorem blockProper?.writable : ∀ {b? : Option Block}, blockProper? False b? →
    ∀ ws ∈ blockWords? b?, Writable ws
  | some b, h, ws, hws => by
    cases hws
    exact (Block.Proper.writable h).inBraces
  | none, _, ws, hws => by cases hws

theorem stmtsProper.writable : ∀ {ss : List Stmt}, stmtsProper False ss → Writable (stmtsWords ss)
  | [], _ => .nil
  | _ :: _, h => h.1.writable.append (stmtsProper.writable h.2)

theorem MatchArm.Proper.writable : ∀ {arm : MatchArm}, arm.Proper False → Writable arm.words
  | .mk _ pattern _ body, h => by
    refine .append ?_ (.of rfl h.2.2.writable.inBraces)
    have hpattern := exprProper?.writable h.1
    cases hws : exprWords? pattern with
    | none => exact .name (isName_of_mem (by decide)) .nil
    | some ws => exact hpattern ws hws

theorem armsProper.writable : ∀ {arms : List MatchArm}, armsProper False arms →
    Writable (armsWords arms)
  | [], _ => .nil
  | _ :: _, h => h.1.writable.append (armsProper.writable h.2)

theorem Decorator.Proper.writable : ∀ {d : Decorator}, d.Proper False → Writable d.words
  | .mk _ _ _, h => .of rfl (.name h.1 h.2.writable.inParens.inParens)

theorem decoratorsProper.writable : ∀ {ds : List Decorator}, decoratorsProper False ds →
    Writable (decoratorsWords ds)
  | [], _ => .nil
  | _ :: _, h => h.1.writable.append (decoratorsProper.writable h.2)

theorem Device.Proper.writable : ∀ {d : Device}, d.Proper False → Writable d.words
  | .mk _ name address, h =>
    .of rfl
      (.name h.1 (Writable.property (isName_of_mem (by decide)) h.2.writable.inParens).inBraces)

theorem devicesProper.writable : ∀ {ds : List Device}, devicesProper False ds →
    Writable (devicesWords ds)
  | [], _ => .nil
  | _ :: _, h => h.1.writable.append (devicesProper.writable h.2)

theorem Stmt.Proper.writable : ∀ {s : Stmt}, s.Proper False → Writable s.words
  | .importDecl _ path, _ => .of rfl (.string path (.of rfl .nil))
  | .structDecl _ name fields, h => by
    refine .of rfl (.name h.1 (.inBraces ?_))
    refine .flatMap fun f hf => ?_
    exact .name (h.2 f hf).1 (.of rfl (.name (h.2 f hf).2 (.of rfl .nil)))
  | .taskDecl _ name decorators body, h => by
    obtain ⟨hname, hdecorators, -, hbody⟩ := h
    refine .append hdecorators.writable (.of rfl (.name hname ?_))
    refine .of rfl (.of rfl (.getD ?_ .nil))
    exact blockProper?.writable hbody
  | .busDecl _ busType name sda scl freq devices, h => by
    obtain ⟨htype, hname, hsda, hscl, hfreq, hdevices⟩ := h
    have hproperty : ∀ key ∈ ["_", "address", "sda", "scl", "freq"], ∀ {e : Expr},
        Writable e.core → Writable (propertyWords key (inParens e.core)) :=
      fun key hkey _ h => .property (isName_of_mem hkey) h.inParens
    have hparts := (hproperty "sda" (by decide) hsda.writable).append
      ((hproperty "scl" (by decide) hscl.writable).append
        ((hproperty "freq" (by decide) hfreq.writable).append hdevices.writable))
    have hrest := Writable.name hname hparts.inBraces
    refine .of rfl ?_
    rcases htype with htype | htype
    · exact .ofText htype (by decide) hrest
    · rw [htype.ofText]
      exact .name htype hrest
  | .functionDecl _ name params returnType body, h => by
    obtain ⟨hname, hparams, htype, hbody⟩ := h
    refine .of rfl (.name hname (.append (Writable.commas ?_).inParens ?_))
    · intro ws hws
      obtain ⟨p, hp, rfl⟩ := mem_map.mp hws
      exact .name (hparams p hp).1 (.of rfl (.name (hparams p hp).2 .nil))
    · exact .of rfl (.name htype hbody.writable.inBraces)
  | .loopDecl _ body, h => .of rfl (Block.Proper.writable h).inBraces
  | .varDecl _ name typeName initializer _ isConst isVolatile, h =>
    (Writable.variable h.1 h.2.1 h.2.2.1.writable).append (.of rfl .nil)
  | .block body, h => (Block.Proper.writable h).inBraces
  | .ifElse _ condition thenBranch elseBranch, h => by
    obtain ⟨hcond, hthen, helse⟩ := h
    refine .of rfl (.append hcond.writable.inParens.inParens (.append hthen.writable.inBraces ?_))
    exact .behind (by decide) (blockProper?.writable helse)
  | .whileLoop _ _ _, h | .matchValue _ _ _, h =>
    .of rfl (h.1.writable.inParens.inParens.append h.2.writable.inBraces)
  | .forLoop _ init condition update body, h => by
    obtain ⟨hinit, hcond, hupdate, hbody⟩ := h
    refine .of rfl (.append (.inParens ?_) hbody.writable.inBraces)
    refine .append (.getD hinit.writable .nil) (.of rfl ?_)
    refine .append (.getD hcond.writable .nil) (.of rfl ?_)
    exact .getD hupdate.writable .nil
  | .returnValue _ value, h =>
    .of rfl (.append (.getD (exprProper?.writable h) .nil) (.of rfl .nil))
  | .expr _ e, h => (Expr.Proper.writable h).inParens.append (.of rfl .nil)
  | .spawn _ taskName, h =>
    .of rfl (.name h (.of rfl (.of rfl (.of rfl .nil))))
  | .gpioMode _ pin mode, h => by
    refine .hardware (by decide) (forall_mem_cons.mpr ⟨h.1.writable.inParens, ?_⟩)
    exact forall_mem_singleton.mpr (.ofText h.2 (by decide) .nil)
  | .digitalWrite _ _ _, h | .wifiConnect _ _ _, h => by
    refine .hardware (by decide) (forall_mem_cons.mpr ⟨h.1.writable.inParens, ?_⟩)
    exact forall_mem_singleton.mpr h.2.writable.inParens
  | .pwmWrite _ pin duty channel, h => by
    refine .hardware (by decide) (forall_mem_cons.mpr ⟨h.1.writable.inParens, ?_⟩)
    refine forall_mem_cons.mpr ⟨h.2.1.writable.inParens, fun ws hws => ?_⟩
    exact h.2.2.writable ws (Option.mem_toList.mp hws)
  | .rgbWrite _ pin red green blue, h => by
    obtain ⟨hpin, hred, hgreen, hblue⟩ := h
    refine .hardware (by decide) (forall_mem_cons.mpr ⟨hpin.writable.inParens, ?_⟩)
    refine forall_mem_cons.mpr ⟨hred.writable.inParens, ?_⟩
    refine forall_mem_cons.mpr ⟨hgreen.writable.inParens, ?_⟩
    exact forall_mem_singleton.mpr hblue.writable.inParens
  | .delay _ time, h =>
    .hardware (by decide) (forall_mem_singleton.mpr (Expr.Proper.writable h).inParens)
  | .raw _ code, h => .rawBlock h .nil

theorem clauseProper?.writable : ∀ {s? : Option Stmt}, clauseProper? False s? →
    ∀ ws ∈ clauseWords? s?, Writable ws
  | some (.varDecl _ name typeName initializer _ isConst isVolatile), h, ws, hws => by
    cases hws
    exact .variable h.1.1 h.1.2.1 h.1.2.2.1.writable
  | some (.expr _ e), h, ws, hws => by
    cases hws
    exact (Expr.Proper.writable h.1).inParens
  | some (.importDecl ..), h, _, _ | some (.structDecl ..), h, _, _ | some (.taskDecl ..), h, _, _
  | some (.busDecl ..), h, _, _ | some (.functionDecl ..), h, _, _ | some (.loopDecl ..), h, _, _
  | some (.block ..), h, _, _ | some (.ifElse ..), h, _, _ | some (.whileLoop ..), h, _, _
  | some (.forLoop ..), h, _, _ | some (.returnValue ..), h, _, _
  | some (.matchValue ..), h, _, _ | some (.spawn ..), h, _, _ | some (.gpioMode ..), h, _, _
  | some (.digitalWrite ..), h, _, _ | some (.pwmWrite ..), h, _, _
  | some (.rgbWrite ..), h, _, _ | some (.delay ..), h, _, _ | some (.wifiConnect ..), h, _, _
  | some (.raw ..), h, _, _ => by cases h.2
  | none, _, ws, hws => by cases hws

end

theorem Program.Proper.writable {p : Program} (h : p.Proper False) : Writable p.words :=
  stmtsProper.writable h

end SketchCompiler
