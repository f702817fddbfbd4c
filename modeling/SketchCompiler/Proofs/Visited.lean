/-
An analysis without errors has looked at everything: every expression and
statement of a program, at any depth, was checked in a state that knows
the declarations in view there, and its own check reported no error
(`Program.visited`).

There is one lemma for each sort of node, which says that its check
covers it if the checks of its parts cover them; the induction on trees
puts them together.  It is for proper trees, since the pattern of a
wildcard arm would not be looked at, and no reading yields one.
-/
import SketchCompiler.Proofs.Covering
import SketchCompiler.Sketch

namespace SketchCompiler

open Check

open List hiding head tail span

variable {view : View}

variable {around : Names}

/-- The check of an expression covers it. -/
def Expr.Covered (e : Expr) : Prop :=
  ∀ ⦃around : Names⦄ view, Covers around view view (e.nodes view) (inferType e)

/-- The visit of a block covers it. -/
def Block.Covered (b : Block) : Prop :=
  ∀ ⦃around : Names⦄ view, Covers around view view (b.nodes view) (visitBlock b)

/-- The visit of a statement covers it. -/
def Stmt.Covered (s : Stmt) : Prop :=
  ∀ ⦃around : Names⦄ view, Covers around view (s.bindings ++ view) (s.nodes view) (visit s)

/-- The value of a field is covered. -/
def FieldInit.Covered : FieldInit → Prop
  | .mk _ value => value.Covered

/-- The parts of an arm are covered, and only the wildcard has no
pattern. -/
def MatchArm.Covered : MatchArm → Prop
  | .mk _ pattern isWildcard body =>
    (∀ e ∈ pattern, e.Covered) ∧ isWildcard = pattern.isNone ∧ body.Covered

/-- The value of a decorator is covered. -/
def Decorator.Covered : Decorator → Prop
  | .mk _ _ value => value.Covered

/-- The address of a device is covered. -/
def Device.Covered : Device → Prop
  | .mk _ _ address => address.Covered

-- ==== lists

theorem inferAll_covers (h : ∀ e ∈ es, e.Covered) :
    Covers around view view (exprsNodes view es) (inferAll es) := by
  induction es with
  | nil => exact .pure ()
  | cons e es ih =>
    rw [forall_mem_cons] at h
    rw [exprsNodes, inferAll]
    exact (h.1 view).bind fun _ => ih h.2

theorem checkArguments_covers (h : ∀ e ∈ args, e.Covered)
    (hlength : args.length = expected.length) :
    Covers around view view (exprsNodes view args) (checkArguments name index expected args) := by
  induction args generalizing index expected with
  | nil =>
    rw [exprsNodes, length_eq_zero_iff.mp hlength.symm, checkArguments]
    · exact .pure ()
    · nofun
  | cons e es ih =>
    cases expected with
    | nil => cases hlength
    | cons type types =>
      rw [forall_mem_cons] at h
      rw [exprsNodes, checkArguments]
      refine (h.1 view).bind fun _ => .behind (.reportIf _ trivial rfl) fun _ => ?_
      exact ih h.2 (Nat.succ.inj hlength)

theorem inferFields_covers (h : ∀ f ∈ fields, f.Covered) :
    Covers around view view (fieldsNodes view fields) (inferFields fields) := by
  induction fields with
  | nil => exact .pure ()
  | cons f fields ih =>
    obtain ⟨name, value⟩ := f
    rw [forall_mem_cons] at h
    rw [fieldsNodes, inferFields]
    exact (h.1 view).bind fun _ => ih h.2

theorem checkFields_covers (h : ∀ f ∈ fields, f.Covered) :
    Covers around view view (fieldsNodes view fields)
      (checkFields span struct layout seen fields) := by
  induction fields generalizing seen with
  | nil => exact .pure seen
  | cons f fields ih =>
    obtain ⟨name, value⟩ := f
    rw [forall_mem_cons] at h
    rw [fieldsNodes, checkFields]
    split
    · exact .behind (.report trivial rfl) fun _ => (h.1 view).bind fun _ => ih h.2
    · dsimp only
      split
      · exact .behind (.report trivial rfl) fun _ => (h.1 view).bind fun _ => ih h.2
      · exact (h.1 view).bind fun _ => .behind (.reportIf _ trivial rfl) fun _ => ih h.2

theorem visitAll_covers (h : ∀ s ∈ ss, s.Covered) :
    Covers around view (bindingsOf ss ++ view) (stmtsNodes view ss) (visitAll ss) := by
  induction ss generalizing view with
  | nil => exact .pure ()
  | cons s ss ih =>
    rw [forall_mem_cons] at h
    rw [stmtsNodes, visitAll, bindingsOf, append_assoc]
    exact (h.1 view).bind fun _ => ih h.2

theorem visitArms_covers (h : ∀ arm ∈ arms, arm.Covered) :
    Covers around view view (armsNodes view arms) (visitArms valueType arms) := by
  induction arms with
  | nil => exact .pure false
  | cons arm arms ih =>
    obtain ⟨span, pattern, isWildcard, body⟩ := arm
    rw [forall_mem_cons] at h
    obtain ⟨⟨hpattern, hwildcard, hbody⟩, harms⟩ := h
    have hrest : Covers around view view (body.nodes view ++ armsNodes view arms) (do
        visitBlock body
        let others ← visitArms valueType arms
        return isWildcard || others) :=
      (hbody view).bind fun _ => (ih harms).andThen fun _ => .pure _
    subst hwildcard
    rw [armsNodes]
    cases pattern with
    | none =>
      rw [visitArms]
      exact hrest
    | some pattern =>
      rw [visitArms]
      exact (hpattern pattern rfl view).bind fun _ =>
        .behind (.reportIf _ trivial rfl) fun _ => hrest

theorem visitDecorators_covers (h : ∀ d ∈ ds, d.Covered) :
    Covers around view view (decoratorsNodes view ds) (visitDecorators ds) := by
  induction ds with
  | nil => exact .pure 0
  | cons d ds ih =>
    obtain ⟨span, name, value⟩ := d
    rw [forall_mem_cons] at h
    have hrest (cores : Nat) : Covers around view view (decoratorsNodes view ds) (do
        return cores + (← visitDecorators ds)) :=
      (ih h.2).andThen fun _ => .pure _
    rw [decoratorsNodes, visitDecorators]
    split
    · refine .constant (fun ns => ?_) ?_
      · exact .failed rfl rfl span (Covers.steps (.after (.pure _) hrest))
      · refine .behind (.constInt? value) fun core => ?_
        cases core with
        | none => exact .behind (.report trivial rfl) fun _ => .after (.pure _) hrest
        | some core => exact .behind (.reportIf _ trivial rfl) fun _ => .after (.pure _) hrest
    · split
      · exact (h.1 view).bind fun _ => .behind (.reportIf _ trivial rfl) fun _ =>
          .after (.pure _) hrest
      · exact (Covers.reported rfl rfl span).bind fun _ => .after (.pure _) hrest

theorem visitDevices_covers (h : ∀ d ∈ ds, d.Covered) :
    Covers around view view (devicesNodes view ds) (visitDevices ds) := by
  induction ds with
  | nil => exact .pure ()
  | cons d ds ih =>
    obtain ⟨span, name, address⟩ := d
    rw [forall_mem_cons] at h
    rw [devicesNodes, visitDevices]
    exact (h.1 view).bind fun _ => .behind (.reportIf _ trivial rfl) fun _ => ih h.2

-- ==== expressions

namespace Expr.Covered

variable {span : Span} {e l r : Expr}

theorem literal (value : LiteralValue) (typeName : String) :
    (Expr.literal span value typeName).Covered := by
  intro around view
  refine .expr ?_
  exact .pure _

theorem ident (name : String) : (Expr.ident span name).Covered := by
  intro around view
  refine .expr ?_
  refine .behind (.resolve name) fun s => ?_
  cases s with
  | none => exact .of_steps (.unknown trivial rfl)
  | some s => exact .pure _

theorem unary (op : String) (h : e.Covered) : (Expr.unary span op e).Covered := by
  intro around view
  refine .expr ?_
  exact (h view).andThen fun _ => .of_steps (.unaryType trivial _ _)

theorem postfixed (op : String) : (Expr.postfixed span e op).Covered := by
  intro around view
  refine .expr ?_
  cases e with
  | ident identSpan name =>
    rw [Expr.nodes]
    exact .resolved identSpan (fun ns => .failed rfl rfl span (.pure _))
      (.of_steps (.postfixType trivial (.ident identSpan name)))
  | _ => exact .failed rfl rfl span (.pure _)

theorem binary (op : String) (hl : l.Covered) (hr : r.Covered) :
    (Expr.binary span l op r).Covered := by
  intro around view
  refine .expr ?_
  exact (hl view).bind fun _ => (hr view).andThen fun _ => .of_steps (.binaryType trivial _ _ _)

theorem bitwise (op : String) (hl : l.Covered) (hr : r.Covered) :
    (Expr.bitwise span l op r).Covered := by
  intro around view
  refine .expr ?_
  exact (hl view).bind fun _ => (hr view).andThen fun _ => .of_steps (.bitwiseType trivial _ _ _)

theorem assign (op : String) (hl : l.Covered) (hr : r.Covered) :
    (Expr.assign span l op r).Covered := by
  intro around view
  refine .expr ?_
  exact .behind (.mutableTarget .anywhere) fun _ => (hl view).bind fun _ =>
    (hr view).andThen fun _ => .behind (.assignmentTypes trivial _ _ _) fun _ => .pure _

theorem cast (typeName : String) (h : e.Covered) : (Expr.cast span e typeName).Covered := by
  intro around view
  refine .expr ?_
  exact (h view).andThen fun _ => .of_steps (.castType trivial _ _)

theorem member (name : String) (h : e.Covered) : (Expr.member span e name).Covered := by
  intro around view
  refine .expr ?_
  exact (h view).andThen fun _ => .of_steps (.memberType trivial _ _)

theorem structInit (typeName : String) (h : ∀ f ∈ fields, f.Covered) :
    (Expr.structInit span typeName fields).Covered := by
  intro around view
  refine .expr ?_
  refine .behind (.layout? _) fun layout => ?_
  cases layout with
  | none =>
    exact .behind (.report trivial rfl) fun _ => (inferFields_covers h).andThen fun _ => .pure _
  | some layout =>
    exact (checkFields_covers h).andThen fun _ =>
      .behind (.reportIf _ trivial rfl) fun _ => .pure _

/-- A call that cannot be made is an error, and the others infer all
arguments. -/
theorem call (h : ∀ e ∈ args, e.Covered) : (Expr.call span callee args).Covered := by
  intro around view
  refine .expr ?_
  cases callee with
  | ident identSpan name =>
    rw [Expr.nodes, inferType]
    refine .resolved identSpan (fun ns => .failed rfl rfl span (.pure _)) ?_
    refine .behind (.resolve name) fun s => ?_
    cases s with
    | none => exact .failed rfl rfl span (.pure _)
    | some s =>
      dsimp only
      split
      · exact .failed rfl rfl span (.pure _)
      · split
        · exact .behind (.report trivial rfl) fun _ =>
            (inferAll_covers h).andThen fun _ => .pure _
        · rename_i hlength
          refine (checkArguments_covers h (by simpa using hlength)).andThen fun _ => ?_
          split
          · cases args with
            | nil => exact .pure _
            | cons arg args => exact .behind (.adcPin trivial) fun _ => .pure _
          · exact .pure _
  | _ =>
    unfold inferType
    exact .failed rfl rfl span (.pure _)

theorem ifElse (hcondition : condition.Covered) (hthen : thenBlock.Covered)
    (hthenValue : thenValue.Covered) (helse : elseBlock.Covered) (helseValue : elseValue.Covered) :
    (Expr.ifElse span condition thenBlock thenValue elseBlock elseValue).Covered := by
  intro around view
  refine .expr ?_
  -- the blocks are closed when their values are looked at
  have hvalues (block : Block) {value : Expr} (h : value.Covered) :
      Covers around view view (value.nodes (block.tailView view)) (inferType value) :=
    (h (block.tailView view)).congr (fun name => (tells_tailView view block name).symm)
      (fun name => (tells_tailView view block name).symm)
  refine (hcondition view).bind fun _ => .behind (.reportIf _ trivial rfl) fun _ => ?_
  refine (hthen view).bind fun _ => (helse view).bind fun _ => ?_
  refine (hvalues thenBlock hthenValue).bind fun _ =>
    (hvalues elseBlock helseValue).andThen fun _ => ?_
  split
  · exact .pure _
  · exact .of_steps (.unknown trivial rfl)

end Expr.Covered

-- ==== statements

theorem Block.Covered.mk {span : Span} {ss : List Stmt} (h : ∀ s ∈ ss, s.Covered) :
    (Block.mk span ss).Covered := by
  intro around view
  rw [Block.nodes, visitBlock]
  exact (visitAll_covers h).scope

theorem defineParams_covers (params : List Param) (view : View) :
    Covers around view (paramBindings params ++ view) [] (params.forM defineParam) := by
  induction params generalizing view with
  | nil => exact .pure ()
  | cons p params ih =>
    have hview : paramBindings (p :: params) ++ view
        = paramBindings params ++ ({ name := p.name, isConst := false } :: view) := by
      simp [paramBindings]
    rw [hview]
    change Covers _ _ _ _ (defineParam p >>= fun _ => params.forM defineParam)
    have hdefine : Covers around view ({ name := p.name, isConst := false } :: view) []
        (defineParam p) :=
      .defined { name := p.name, kind := "param", typeName := TypeName.normalize p.typeName } rfl
        rfl p.span
    exact .after hdefine fun _ => ih _

theorem numeric_covers (what : String) (h : e.Covered) :
    Covers around view view (e.nodes view) (inferType e >>= fun type =>
      expectNumeric e type what) :=
  (h view).andThen fun _ => .of_steps (.reportIf _ trivial rfl)

theorem blockForM_covers (h : ∀ b ∈ b?, b.Covered) :
    Covers around view view (blockNodes? view b?) (b?.forM (visitBlock)) := by
  cases b? with
  | none => exact .pure ()
  | some b => exact h b rfl view

theorem exprForM_covers (h : ∀ e ∈ e?, e.Covered)
    (hf : ∀ e, Covers around view view (e.nodes view) (inferType e) →
      Covers around view view (e.nodes view) (f e)) :
    Covers around view view (exprNodes? view e?) (e?.forM f) := by
  cases e? with
  | none => exact .pure ()
  | some e => exact hf e (h e rfl view)

theorem loopRest_covers (hcondition : ∀ e ∈ condition, e.Covered)
    (hupdate : ∀ e ∈ update, e.Covered) (hbody : body.Covered) :
    Covers around view view (exprNodes? view condition
      ++ (exprNodes? view update ++ body.nodes view)) (loopRest condition update body) :=
  (exprForM_covers hcondition fun _ he =>
    he.andThen fun _ => .of_steps (.reportIf _ trivial rfl)).bind fun _ =>
  (exprForM_covers hupdate fun _ he => he.andThen fun _ => .pure ()).bind fun _ => hbody view

namespace Stmt.Covered

variable {span : Span} {e : Expr} {body : Block}

theorem importDecl (path : String) : (Stmt.importDecl span path).Covered := by
  intro around view
  exact .stmt (c := Pure.pure ()) rfl (.pure ())

theorem structDecl (name : String) (fields : List StructField) :
    (Stmt.structDecl span name fields).Covered := by
  intro around view
  exact .stmt (c := Pure.pure ()) rfl (.pure ())

theorem functionDecl (name : String) (params : List Param) (returnType : String)
    (h : body.Covered) : (Stmt.functionDecl span name params returnType body).Covered := by
  intro around view
  refine .stmt rfl ?_
  have hinside : Covers around view (paramBindings params ++ view)
      (body.nodes (paramBindings params ++ view))
      (params.forM defineParam >>= fun _ => visitBlock body) :=
    .after (defineParams_covers params view) fun _ => h _
  exact .returning _ hinside.scope

theorem taskDecl (name : String) (hdecorators : ∀ d ∈ decorators, d.Covered)
    (hbody : ∀ b ∈ body?, b.Covered) : (Stmt.taskDecl span name decorators body?).Covered := by
  intro around view
  refine .stmt (visit_taskDecl ..) ?_
  exact (visitDecorators_covers hdecorators).bind fun _ =>
    .behind (.reportIf _ trivial rfl) fun _ => blockForM_covers hbody

theorem busDecl (busType name : String) (hfreq : freq.Covered)
    (hdevices : ∀ d ∈ devices, d.Covered) :
    (Stmt.busDecl span busType name sda scl freq devices).Covered := by
  intro around view
  refine .stmt rfl ?_
  have hreport (ns : List Node) : Covers around view view ns (report span .busPinsNotConstant) :=
    .reported rfl rfl span
  have hpins : Covers around view view (sda.nodes view ++ scl.nodes view)
      (busPins span sda scl) := by
    refine .constant (fun ns => .behind (.constInt? scl) fun _ => hreport ns) ?_
    refine .behind (.constInt? sda) fun s => ?_
    rw [← append_nil (scl.nodes view)]
    refine .constant (fun ns => ?_) (.behind (.constInt? scl) fun l => ?_)
    · cases s with
      | none => exact hreport ns
      | some s => exact hreport ns
    · split
      · exact .of_steps (.board (fun _ _ h => by rw [h]) fun _ =>
          .bind (.reportIf _ trivial rfl) fun _ => .reportIf _ trivial rfl)
      · exact hreport []
  rw [← append_assoc]
  exact .behind (.reportIf _ trivial rfl) fun _ =>
    hpins.bind fun _ => (hfreq view).bind fun _ => .behind (.reportIf _ trivial rfl) fun _ =>
      visitDevices_covers hdevices

theorem loopDecl (h : body.Covered) : (Stmt.loopDecl span body).Covered := by
  intro around view
  refine .stmt rfl ?_
  exact h view

theorem varDecl (name : String) (typeName : Option String) (isMutable isConst isVolatile : Bool)
    (h : ∀ e ∈ initializer, e.Covered) :
    (Stmt.varDecl span name typeName initializer isMutable isConst isVolatile).Covered := by
  intro around view
  refine .stmt (visit_varDecl ..) ?_
  have hinit : Covers around view view (exprNodes? view initializer)
      (inferInitializer initializer) := by
    cases initializer with
    | none => exact .pure _
    | some value => exact h value rfl view
  exact hinit.andThen fun inferred =>
    .behind (.variableType trivial _ _ _ _) fun _ =>
      .defined (variableSymbol name typeName isConst isVolatile (initialInt initializer) inferred)
        rfl rfl span

theorem block (h : body.Covered) : (Stmt.block body).Covered := by
  intro around view
  refine .stmt rfl ?_
  exact h view

theorem ifElse (hcondition : e.Covered) (hthen : body.Covered)
    (helse : ∀ b ∈ elseBranch, b.Covered) : (Stmt.ifElse span e body elseBranch).Covered := by
  intro around view
  refine .stmt (visit_ifElse ..) ?_
  exact (hcondition view).bind fun _ =>
    .behind (.reportIf _ trivial rfl) fun _ => (hthen view).bind fun _ =>
      blockForM_covers helse

theorem whileLoop (hcondition : e.Covered) (hbody : body.Covered) :
    (Stmt.whileLoop span e body).Covered := by
  intro around view
  refine .stmt rfl ?_
  exact (hcondition view).bind fun _ =>
    .behind (.reportIf _ trivial rfl) fun _ => hbody view

theorem forLoop (hinit : ∀ s ∈ init, s.Covered) (hcondition : ∀ e ∈ condition, e.Covered)
    (hupdate : ∀ e ∈ update, e.Covered) (hbody : body.Covered) :
    (Stmt.forLoop span init condition update body).Covered := by
  intro around view
  refine .stmt (visit_forLoop ..) ?_
  have hclause : Covers around view ((init.map Stmt.bindings).getD [] ++ view)
      (clauseNodes? view init)
      (init.forM (visit)) := by
    cases init with
    | none => exact .pure ()
    | some init => exact hinit init rfl view
  have htells : View.Tells ((Stmt.forLoop span init condition update body).bindings ++ view)
      ((init.map Stmt.bindings).getD [] ++ view) := by
    cases init with
    | none => exact .refl _
    | some init => exact tells_onlyAnalysed _ _
  -- what follows the first clause is in view of what it declares
  exact hclause.bind fun _ =>
    (loopRest_covers hcondition hupdate hbody).congr (.refl _) htells

theorem returnValue (h : ∀ e ∈ value, e.Covered) : (Stmt.returnValue span value).Covered := by
  intro around view
  cases value with
  | none =>
    exact .stmt rfl (.after (.pure "void") fun _ =>
      .of_steps (.returnedType trivial _))
  | some value =>
    exact .stmt rfl ((h value rfl view).andThen fun _ =>
      .of_steps (.returnedType trivial _))

theorem expr (h : e.Covered) : (Stmt.expr span e).Covered := by
  intro around view
  refine .stmt rfl ?_
  exact (h view).andThen fun _ => .pure _

theorem matchValue (hvalue : e.Covered) (harms : ∀ arm ∈ arms, arm.Covered) :
    (Stmt.matchValue span e arms).Covered := by
  intro around view
  refine .stmt rfl ?_
  exact (hvalue view).bind fun _ =>
    (visitArms_covers harms).andThen fun _ => .of_steps (.reportIf _ trivial rfl)

theorem spawn (taskName : String) : (Stmt.spawn span taskName).Covered := by
  intro around view
  refine .stmt rfl ?_
  exact .of_steps
    (.ask (fun _ _ h => by rw [h.scopes.globals]) fun _ => .reportIf _ trivial rfl)

theorem gpioMode (mode : String) (h : e.Covered) : (Stmt.gpioMode span e mode).Covered := by
  intro around view
  refine .stmt rfl ?_
  exact (h view).andThen fun _ =>
    .of_steps (.bind (.pin trivial _ _) fun _ => .pinMode trivial _ _)

theorem digitalWrite (hpin : e.Covered) (hvalue : value.Covered) :
    (Stmt.digitalWrite span e value).Covered := by
  intro around view
  refine .stmt rfl ?_
  exact (hpin view).bind fun _ =>
    .behind (.pin trivial _ _) fun _ => .behind (.outputPin trivial _) fun _ =>
      numeric_covers _ hvalue

theorem pwmWrite (hpin : e.Covered) (hduty : duty.Covered) (hchannel : ∀ e ∈ channel, e.Covered) :
    (Stmt.pwmWrite span e duty channel).Covered := by
  intro around view
  refine .stmt (visit_pwmWrite ..) ?_
  exact (hpin view).bind fun _ =>
    .behind (.pin trivial _ _) fun _ => .behind (.pwmPin trivial) fun _ =>
      (hduty view).bind fun _ => .behind (.reportIf _ trivial rfl) fun _ =>
        exprForM_covers hchannel fun _ he => he.andThen fun _ =>
          .of_steps (.reportIf _ trivial rfl)

theorem rgbWrite (hpin : e.Covered) (hred : red.Covered) (hgreen : green.Covered)
    (hblue : blue.Covered) : (Stmt.rgbWrite span e red green blue).Covered := by
  intro around view
  refine .stmt rfl ?_
  exact (hpin view).bind fun _ =>
    .behind (.pin trivial _ _) fun _ => .behind (.outputPin trivial _) fun _ =>
      (hred view).bind fun _ => .behind (.reportIf _ trivial rfl) fun _ =>
        (hgreen view).bind fun _ => .behind (.reportIf _ trivial rfl) fun _ =>
          numeric_covers _ hblue

theorem delay (h : e.Covered) : (Stmt.delay span e).Covered := by
  intro around view
  refine .stmt rfl ?_
  exact (h view).andThen fun _ =>
    .of_steps (.reportIf _ trivial rfl)

theorem wifiConnect (hssid : e.Covered) (hpassword : password.Covered) :
    (Stmt.wifiConnect span e password).Covered := by
  intro around view
  refine .stmt rfl ?_
  exact (hssid view).bind fun _ =>
    .behind (.reportIf _ trivial rfl) fun _ => (hpassword view).andThen fun _ =>
      .of_steps (.reportIf _ trivial rfl)

theorem raw (code : String) : (Stmt.raw span code).Covered := by
  intro around view
  exact .stmt (c := Pure.pure ()) rfl (.pure ())

end Stmt.Covered

-- ==== trees

mutual

/-- The check of a proper expression covers it. -/
theorem Expr.Proper.covered : ∀ {e : Expr}, e.Proper True → e.Covered
  | .literal _ value typeName, _ => .literal value typeName
  | .ident _ name, _ => .ident name
  | .unary _ op _, h => .unary op h.2.covered
  | .postfixed _ _ op, _ => .postfixed op
  | .binary _ _ op _, h => .binary op h.1.covered h.2.2.covered
  | .bitwise _ _ op _, h => .bitwise op h.1.covered h.2.2.covered
  | .assign _ _ op _, h => .assign op h.1.covered h.2.2.2.covered
  | .cast _ _ typeName, h => .cast typeName h.1.covered
  | .call _ _ _, h => .call (exprsProper.covered h.2)
  | .structInit _ typeName _, h => .structInit typeName (fieldsProper.covered h.2.2)
  | .member _ _ name, h => .member name h.1.covered
  | .ifElse _ _ _ _ _ _, h =>
    .ifElse h.1.covered h.2.1.covered h.2.2.2.1.covered h.2.2.2.2.1.covered h.2.2.2.2.2.2.covered

theorem exprProper?.covered : ∀ {e? : Option Expr}, exprProper? True e? → ∀ e ∈ e?, e.Covered
  | none, _ => nofun
  | some _, h => fun _ he => Option.some.inj he ▸ Expr.Proper.covered h

theorem exprsProper.covered : ∀ {es : List Expr}, exprsProper True es → ∀ e ∈ es, e.Covered
  | [], _ => forall_mem_nil _
  | _ :: _, h => forall_mem_cons.mpr ⟨h.1.covered, exprsProper.covered h.2⟩

theorem fieldsProper.covered : ∀ {fs : List FieldInit}, fieldsProper True fs → ∀ f ∈ fs, f.Covered
  | [], _ => forall_mem_nil _
  | .mk _ _ :: _, h => forall_mem_cons.mpr ⟨h.1.2.covered, fieldsProper.covered h.2⟩

theorem Block.Proper.covered : ∀ {b : Block}, b.Proper True → b.Covered
  | .mk _ _, h => .mk (stmtsProper.covered h)

theorem blockProper?.covered : ∀ {b? : Option Block}, blockProper? True b? → ∀ b ∈ b?, b.Covered
  | none, _ => nofun
  | some _, h => fun _ hb => Option.some.inj hb ▸ Block.Proper.covered h

theorem clauseProper?.covered : ∀ {s? : Option Stmt}, clauseProper? True s? → ∀ s ∈ s?, s.Covered
  | none, _ => nofun
  | some _, h => fun _ hs => Option.some.inj hs ▸ h.1.covered

theorem stmtsProper.covered : ∀ {ss : List Stmt}, stmtsProper True ss → ∀ s ∈ ss, s.Covered
  | [], _ => forall_mem_nil _
  | _ :: _, h => forall_mem_cons.mpr ⟨h.1.covered, stmtsProper.covered h.2⟩

theorem armsProper.covered : ∀ {arms : List MatchArm}, armsProper True arms →
    ∀ arm ∈ arms, arm.Covered
  | [], _ => forall_mem_nil _
  | .mk _ _ _ _ :: _, h => forall_mem_cons.mpr
    ⟨⟨exprProper?.covered h.1.1, h.1.2.1, h.1.2.2.covered⟩, armsProper.covered h.2⟩

theorem decoratorsProper.covered : ∀ {ds : List Decorator}, decoratorsProper True ds →
    ∀ d ∈ ds, d.Covered
  | [], _ => forall_mem_nil _
  | .mk _ _ _ :: _, h => forall_mem_cons.mpr ⟨h.1.2.covered, decoratorsProper.covered h.2⟩

theorem devicesProper.covered : ∀ {ds : List Device}, devicesProper True ds → ∀ d ∈ ds, d.Covered
  | [], _ => forall_mem_nil _
  | .mk _ _ _ :: _, h => forall_mem_cons.mpr ⟨h.1.2.covered, devicesProper.covered h.2⟩

/-- The visit of a proper statement covers it. -/
theorem Stmt.Proper.covered : ∀ {s : Stmt}, s.Proper True → s.Covered
  | .importDecl _ path, _ => .importDecl path
  | .structDecl _ name fields, _ => .structDecl name fields
  | .taskDecl _ name _ _, h =>
    .taskDecl name (decoratorsProper.covered h.2.1) (blockProper?.covered h.2.2.2)
  | .busDecl _ busType name _ _ _ _, h =>
    .busDecl busType name h.2.2.2.2.1.covered (devicesProper.covered h.2.2.2.2.2)
  | .functionDecl _ name params returnType _, h =>
    .functionDecl name params returnType h.2.2.2.covered
  | .loopDecl _ _, h => .loopDecl (Block.Proper.covered h)
  | .varDecl _ name typeName _ isMutable isConst isVolatile, h =>
    .varDecl name typeName isMutable isConst isVolatile (exprProper?.covered h.2.2.1)
  | .block _, h => .block (Block.Proper.covered h)
  | .ifElse _ _ _ _, h => .ifElse h.1.covered h.2.1.covered (blockProper?.covered h.2.2)
  | .whileLoop _ _ _, h => .whileLoop h.1.covered h.2.covered
  | .forLoop _ _ _ _ _, h =>
    .forLoop (clauseProper?.covered h.1) (exprProper?.covered h.2.1) (exprProper?.covered h.2.2.1)
      h.2.2.2.covered
  | .returnValue _ _, h => .returnValue (exprProper?.covered h)
  | .expr _ _, h => .expr (Expr.Proper.covered h)
  | .matchValue _ _ _, h => .matchValue h.1.covered (armsProper.covered h.2)
  | .spawn _ taskName, _ => .spawn taskName
  | .gpioMode _ _ mode, h => .gpioMode mode h.1.covered
  | .digitalWrite _ _ _, h => .digitalWrite h.1.covered h.2.covered
  | .pwmWrite _ _ _ _, h => .pwmWrite h.1.covered h.2.1.covered (exprProper?.covered h.2.2)
  | .rgbWrite _ _ _ _ _, h =>
    .rgbWrite h.1.covered h.2.1.covered h.2.2.1.covered h.2.2.2.covered
  | .delay _ _, h => .delay (Expr.Proper.covered h)
  | .wifiConnect _ _ _, h => .wifiConnect h.1.covered h.2.covered
  | .raw _ code, _ => .raw code

end

-- ==== whole programs

/-- A check of the node ends without an error, in an analysis for the
board that knows what is in view. -/
def Node.Visited (b : Board) (n : Node) : Prop :=
  ∃ around, n.VisitedIn around b

theorem exists_run_defineGlobal (s : Symbol) (a : Analysis) :
    ∃ globals, ((defineGlobal s).run a).2 = { a with scopes := { a.scopes with globals } } := by
  cases hscopes : a.scopes.defineGlobal s with
  | none =>
    refine ⟨a.scopes.globals, ?_⟩
    simp only [defineGlobal, StateT.run_bind, StateT.run_get, pure_bind, hscopes]
    rfl
  | some scopes =>
    obtain ⟨globals, hglobals, rfl⟩ := Option.map_eq_some_iff.mp hscopes
    refine ⟨globals, ?_⟩
    simp only [defineGlobal, StateT.run_bind, StateT.run_get, pure_bind, hscopes]
    rfl

/-- The check adds findings, opens no scope and expects the same type
behind it: it is one of the passes that declare structs, tasks and
functions. -/
structure Declares {α : Type} (c : Check α) : Prop where
  later : ∀ a : Analysis, a.Later (c.run a).2
  inner : ∀ a : Analysis, (c.run a).2.scopes.inner = a.scopes.inner
  returnType : ∀ a : Analysis, (c.run a).2.returnType = a.returnType

namespace Declares

variable {α β : Type}

theorem of_steps (h : Steps (anywhere true) false c) : Declares c where
  later := h.later
  inner a := by
    obtain ⟨more, hmove⟩ := h.moves a
    exact congrArg ScopeChain.inner hmove.scopes
  returnType a := by
    obtain ⟨more, hmove⟩ := h.moves a
    exact hmove.returnType

theorem ask (hf : ∀ a, Declares (f a)) : Declares (get >>= f) :=
  ⟨fun a => (hf a).later a, fun a => (hf a).inner a, fun a => (hf a).returnType a⟩

theorem bind (hc : Declares c) (hf : ∀ x, Declares (f x)) : Declares (c >>= f) where
  later a := (hc.later a).trans ((hf _).later _)
  inner a := ((hf _).inner _).trans (hc.inner a)
  returnType a := ((hf _).returnType _).trans (hc.returnType a)

theorem forM (h : ∀ x, Declares (f x)) (xs : List α) : Declares (xs.forM f) := by
  induction xs with
  | nil => exact .of_steps (.pure ())
  | cons x xs ih => exact (h x).bind fun _ => ih

theorem updated (hissues : ∀ a, (f a).issues = a.issues) (hboard : ∀ a, (f a).board = a.board)
    (hscopes : ∀ a, (f a).scopes = a.scopes) (hreturn : ∀ a, (f a).returnType = a.returnType) :
    Declares (modify f : Check Unit) where
  later a := ⟨(hissues a).symm ▸ prefix_refl _, hboard a⟩
  inner a := congrArg ScopeChain.inner (hscopes a)
  returnType := hreturn

theorem defineGlobal (s : Symbol) : Declares (defineGlobal s) := by
  constructor
  all_goals
    intro a
    obtain ⟨globals, hglobals⟩ := exists_run_defineGlobal s a
    rw [hglobals]
  exact ⟨prefix_refl _, rfl⟩

end Declares

theorem declareFields_steps (struct : String) (fields : List StructField)
    (layout : StructLayout) :
    Steps (anywhere true) false (declareFields struct fields layout) := by
  induction fields generalizing layout with
  | nil => exact .pure layout
  | cons f fields ih =>
    rw [declareFields]
    split
    · exact .bind (.report trivial rfl) fun _ => ih layout
    · exact ih _

theorem declareType_declares (d : Stmt) : Declares (declareType d) := by
  unfold declareType
  split
  · refine .bind (.of_steps (.layout? _)) fun layout => ?_
    split
    · exact .of_steps (.report trivial rfl)
    · refine .bind (.of_steps (declareFields_steps _ _ _)) fun _ => .bind ?_ fun _ =>
        .bind (.defineGlobal _) fun _ => .of_steps (.reportIf _ trivial rfl)
      exact .updated (fun _ => rfl) (fun _ => rfl) (fun _ => rfl) fun _ => rfl
  · refine .ask fun a => ?_
    split
    · exact .of_steps (.report trivial rfl)
    · refine .bind ?_ fun _ => .bind (.defineGlobal _) fun _ => .of_steps (.reportIf _ trivial rfl)
      exact .updated (fun _ => rfl) (fun _ => rfl) (fun _ => rfl) fun _ => rfl
  · exact .of_steps (.pure ())

theorem declareFunction_declares (d : Stmt) : Declares (declareFunction d) := by
  unfold declareFunction
  split
  · exact .bind (.defineGlobal _) fun _ => .of_steps (.reportIf _ trivial rfl)
  · exact .of_steps (.pure ())

-- by unfolding alone: evaluation would go into the name of the board
theorem start_board (board : String) : (Analysis.start board).board = .ofName board := by
  simp only [Analysis.start]

theorem Program.exists_visitAll (p : Program) (board : String) :
    ∃ a : Analysis, a.board = .ofName board ∧ (a.scopes.inner = [] ∧ a.returnType = "void")
      ∧ ((visitAll p.declarations).run a).2 = p.analyze board := by
  have hpasses := (Declares.forM declareType_declares p.declarations).bind fun _ =>
    Declares.forM declareFunction_declares p.declarations
  refine ⟨_, ?_, ⟨hpasses.inner (.start board), hpasses.returnType (.start board)⟩, rfl⟩
  exact (hpasses.later (.start board)).board.trans (start_board board)

/-- An analysis without errors has visited every expression and statement
of a proper program. -/
theorem Program.visited {p : Program} (hp : p.Proper True) {board : String}
    (h : (p.analyze board).Quiet) : ∀ n ∈ p.nodes, n.Visited (.ofName board) := by
  intro n hn
  obtain ⟨a, hboard, -, hrun⟩ := p.exists_visitAll board
  have hvisit : Covers a.scopes.resolve [] (bindingsOf p.declarations ++ []) p.nodes
      (visitAll p.declarations) := visitAll_covers (stmtsProper.covered hp)
  rw [← hrun] at h
  rw [← hboard]
  exact ⟨a.scopes.resolve, ((hvisit.visited a a.knows_names h).1 n hn).visitedIn⟩

/-- A source is read without findings and analysed without errors. -/
def acceptsCleanly (board source : String) : Bool :=
  match Program.ofSource "sketch" source with
  | .ok src => src.scanErrors.isEmpty && src.parseErrors.isEmpty
    && (src.program.analyze board).issues.all fun i => decide (i.severity ≠ .error)
  | .error _ => false

theorem exists_of_acceptsCleanly (h : acceptsCleanly board source = true) :
    ∃ src, Program.ofSource "sketch" source = .ok src ∧ src.scanErrors = [] ∧ src.parseErrors = []
      ∧ ∀ i ∈ (src.program.analyze board).issues, i.severity ≠ .error := by
  unfold acceptsCleanly at h
  split at h
  · rename_i src hsrc
    simp only [Bool.and_eq_true, List.isEmpty_iff, List.all_eq_true, decide_eq_true_eq] at h
    exact ⟨src, hsrc, h.1.1, h.1.2, h.2⟩
  · cases h

/-- A source is read and accepted, and its code has the line. -/
def writesLine (backend : Backend) (source line : String) : Bool :=
  acceptsCleanly "esp32" source && match Program.ofSource "sketch" source with
    | .ok src => match src.program.sketch backend with
      | .ok sk => sk.lines.any (·.text == line)
      | .error _ => false
    | .error _ => false

end SketchCompiler
