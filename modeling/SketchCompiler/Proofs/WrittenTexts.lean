/-
What all generated code is like.  A property that makes a class of texts
holds of everything that is written for a program, if it holds of the
texts that the nodes of the program hold (`Node.Fits`).  The induction
over what is written is done here once for all classes, for expressions
(`expr_holds`), for statements (`stmt_holds`) and for whole sketches
(`Sketch.sketch_holds`).
-/
import SketchCompiler.Proofs.TextClasses

namespace SketchCompiler

open Text

open List hiding head tail span

variable {text : String}

variable {P : TextClass}
  {α : Type} {p : Program} {span : Span} {name : String} {lines : List Line}
  {params : List Param} {backend : Backend} {sk : Sketch}

-- ==== what a statement writes

section Shapes

variable {cx : EmitContext}

/-- The first line of an arm. -/
def Emit.armHead (cx : EmitContext) (pattern : Option Expr) (isWildcard : Bool) :
    Except EmitFault String :=
  if isWildcard then return "default: \x7b"
  else match pattern with
    | none => return "case 0: \x7b"
    | some pattern => do return "case " ++ (← expr cx pattern) ++ ": \x7b"

/-- An arm is its first line, its body and the others. -/
theorem Emit.arms_cons (span : Span) (pattern : Option Expr) (isWildcard : Bool) (body : Block)
    (rest : List MatchArm) :
    Emit.arms cx (.mk span pattern isWildcard body :: rest) = do
      let head ← Emit.armHead cx pattern isWildcard
      let lines ← block cx body
      let others ← arms cx rest
      return braced head span (lines ++ [⟨"break;", some span⟩]) ++ others := by
  cases isWildcard with
  | true => rfl
  | false =>
    cases pattern with
    | none => rfl
    | some pattern =>
      simp only [Emit.arms, Emit.armHead, Bool.false_eq_true, if_false, bind_assoc, pure_bind]

/-- The channel of a `pwmWrite`, which only plain calls have. -/
def Emit.pwmChannel (cx : EmitContext) (channel : Option Expr) : Except EmitFault String :=
  match cx.backend, channel with
  | .base, some channel => expr cx channel
  | _, _ => return "0"

/-- A channel is written as zero or as its expression. -/
theorem Emit.pwmChannel_cases (h : Emit.pwmChannel cx channel = .ok text) :
    text = "0" ∨ Emit.exprOr cx "0" channel = .ok text := by
  unfold Emit.pwmChannel at h
  split at h
  · exact .inr h
  · exact .inl (by cases h; rfl)

/-- The calls of a `pwmWrite`. -/
def Emit.pwmCalls (backend : Backend) (pin duty channel : String) : List String :=
  match backend with
  | .base =>
    ["ledcAttachPin(" ++ pin ++ ", " ++ channel ++ ");",
     "ledcWrite(" ++ channel ++ ", " ++ duty ++ ");"]
  | .esp32 => ["ledcAttach(" ++ pin ++ ", 5000, 8);", "ledcWrite(" ++ pin ++ ", " ++ duty ++ ");"]
  | .generic => ["analogWrite(" ++ pin ++ ", " ++ duty ++ ");"]

/-- A `pwmWrite` puts a channel, a pin and a duty into calls. -/
theorem Emit.stmt_pwmCalls (span : Span) (pin duty : Expr) (channel : Option Expr) :
    Emit.stmt cx (.pwmWrite span pin duty channel) = do
      let ch ← Emit.pwmChannel cx channel
      let p ← expr cx pin
      let d ← expr cx duty
      return (Emit.pwmCalls cx.backend p d ch).map (⟨·, some span⟩) := by
  obtain ⟨backend, fieldOrder, core⟩ := cx
  cases backend <;> cases channel <;> rfl

/-- A `delay` of a literal duration is written in its unit. -/
def Emit.delayCall (cx : EmitContext) : Expr → Except EmitFault String
  | .literal _ (.duration amount unit) typeName =>
    if Text.lower typeName == "duration" then delayLiteral amount unit
    else do return "delay(" ++ (← literal (.duration amount unit) typeName) ++ ");"
  | time => do return "delay(" ++ (← expr cx time) ++ ");"

/-- A `delay` is the one line of its call. -/
theorem Emit.stmt_delay (span : Span) (time : Expr) :
    Emit.stmt cx (.delay span time) = do
      let text ← Emit.delayCall cx time
      return [⟨text, some span⟩] := by
  cases time with
  | literal _ value typeName =>
    cases value with
    | duration amount unit =>
      simp only [Emit.stmt, Emit.delayCall]
      split <;> simp only [bind_assoc, pure_bind]
    | _ => simp only [Emit.stmt, Emit.delayCall, bind_assoc]
  | _ => simp only [Emit.stmt, Emit.delayCall, bind_assoc]

/-- The body of a task, which may be missing. -/
def Sketch.taskBody (cx : EmitContext) : Option Block → Except EmitFault (List Line)
  | none => return []
  | some body => Emit.block cx body

/-- The function of a task pauses behind its body, for ever. -/
theorem Sketch.taskFunction_eq (span : Span) (name : String) (decorators : List Decorator)
    (body : Option Block) :
    taskFunction cx span name decorators body = do
      let lines ← taskBody cx body
      let rate ← taskRate cx decorators
      return Emit.braced ("void __task_" ++ name ++ "(void* pvParameters) \x7b") span
        (Emit.braced "for (;;) \x7b" span
          (lines ++ [⟨"vTaskDelay(pdMS_TO_TICKS(" ++ rate ++ "));", some span⟩])) := by
  cases body <;> rfl

end Shapes

-- ==== writing

/-- Numbers and truth values belong to every class. -/
theorem value_holds (hv : v.Fits P) (h : Emit.value v = .ok text) : P.Holds text := by
  cases v with
  | int n => exact P.numeral (isNumeral_int h)
  | float x =>
    cases h
    exact P.numeral (isNumeral_decimal x)
  | bool b =>
    cases h
    cases b <;> exact P.text rfl
  | text s =>
    cases h
    exact hv
  | duration amount unit =>
    obtain ⟨n, hn, rfl⟩ := bind_ok h
    have hn : P.Holds n := P.numeral (isNumeral_int hn)
    have hunit : P.Holds (quoted unit) := hv
    rw [P.holds_iff]
    simp [hn, hunit]
    exact .fixed rfl

/-- The type of a literal adds fixed texts only. -/
theorem literal_holds (hv : v.Fits P) (h : Emit.literal v typeName = .ok text) : P.Holds text := by
  unfold Emit.literal at h
  split at h
  · obtain ⟨t, ht, rfl⟩ := bind_ok h
    have ht := value_holds hv ht
    rw [P.holds_iff]
    simp [ht]
    exact .fixed rfl
  · split at h
    · cases h
      split <;> exact P.text rfl
    · split at h
      · split at h
        · exact P.numeral (isNumeral_int h)
        · exact value_holds hv h
      · exact value_holds hv h

/-- A compound operator is taken apart into fixed texts. -/
theorem assignment_holds (ht : P.Holds target) (hop : P.Holds op) (hv : P.Holds value) :
    P.Holds (Emit.assignment target op value) := by
  unfold Emit.assignment
  split
  · rw [P.holds_iff]
    simp [ht, hv]
    exact .fixed rfl
  · split
    · rw [P.holds_iff]
      simp [ht, hop, hv]
      exact .fixed rfl
    · rename_i applied happlied
      have happ : P.Holds applied := by
        unfold Emit.compoundOperator at happlied
        split at happlied <;> cases happlied <;> exact P.text rfl
      rw [P.holds_iff]
      simp [ht, happ, hv]
      exact .fixed rfl

/-- All but the name, the type and the value is fixed. -/
theorem varDecl_holds (hname : P.Holds name) (htype : ∀ t ∈ typeName, P.Holds t)
    (hinit : P.Holds initializer) :
    P.Holds (Emit.varDecl isGlobal name typeName isConst isVolatile initializer) := by
  have hgenerated : P.Holds (TypeName.toGenerated ((typeName.filter (· != "")).getD "int")) := by
    refine P.toGenerated ?_
    cases hfilter : typeName.filter (· != "") with
    | none => exact P.text rfl
    | some t => exact htype t (Option.mem_def.mpr (Option.filter_eq_some_iff.mp hfilter).1)
  have hconst : P.Holds (if isConst then "const " else "") := by
    split <;> exact P.text rfl
  have hvolatile : P.Holds (if isVolatile then "volatile " else "") := by
    split <;> exact P.text rfl
  have hplace : P.Holds (if (isGlobal && isConst) = true then " PROGMEM" else "") := by
    split <;> exact P.text rfl
  have hblank : P.Holds " " := P.text rfl
  have hend : P.Holds ";" := P.text rfl
  unfold Emit.varDecl
  rw [P.holds_iff, P.before_append_holds hend, P.before_append_holds hinit,
    P.before_append_holds hplace, P.before_append_holds hname, P.before_append_holds hblank,
    P.before_append_holds hgenerated, P.before_append_holds hvolatile, P.before_holds hconst]
  exact P.text rfl

theorem digitalWrite_holds (hp : P.Holds pin) (hv : P.Holds value) :
    P.Holds (Emit.digitalWrite backend pin value) := by
  unfold Emit.digitalWrite
  rw [P.holds_iff]
  split
  · simp [hp, hv]
    exact .fixed rfl
  · simp [hp, hv]
    exact .fixed rfl

/-- Each call of a `pwmWrite` belongs to the class. -/
theorem pwmCalls_holds (hp : P.Holds pin) (hd : P.Holds duty) (hc : P.Holds channel) :
    ∀ t ∈ Emit.pwmCalls backend pin duty channel, P.Holds t := by
  cases backend with
  | base =>
    refine forall_mem_cons.mpr ⟨?_, forall_mem_singleton.mpr ?_⟩
    · rw [P.holds_iff]
      simp [hp, hc]
      exact .fixed rfl
    · rw [P.holds_iff]
      simp [hd, hc]
      exact .fixed rfl
  | esp32 =>
    refine forall_mem_cons.mpr ⟨?_, forall_mem_singleton.mpr ?_⟩
    · rw [P.holds_iff]
      simp [hp]
      exact .fixed rfl
    · rw [P.holds_iff]
      simp [hp, hd]
      exact .fixed rfl
  | generic =>
    refine forall_mem_singleton.mpr ?_
    rw [P.holds_iff]
    simp [hp, hd]
    exact .fixed rfl

/-- Connecting and waiting both belong to the class. -/
theorem wifiConnect_holds (hs : P.Holds ssid) (hp : P.Holds password) :
    ∀ t ∈ Emit.wifiConnect backend ssid password, P.Holds t := by
  have hwait {pause : String} (hpause : P.Holds pause) :
      P.Holds ("while (WiFi.status() != WL_CONNECTED) \x7b " ++ pause ++ " \x7d") := by
    rw [P.holds_iff]
    simp [hpause]
    exact .fixed rfl
  refine forall_mem_cons.mpr ⟨?_, forall_mem_singleton.mpr (hwait ?_)⟩
  · rw [P.holds_iff]
    simp [hs, hp]
    exact .fixed rfl
  · cases backend <;> exact P.text rfl

/-- A literal delay is a number in a fixed call. -/
theorem delayCall_holds (he : ∀ t, Emit.expr cx time = .ok t → P.Holds t)
    (h : Emit.delayCall cx time = .ok text) : P.Holds text := by
  unfold Emit.delayCall at h
  split at h
  · rename_i amount unit typeName
    split at h
    · unfold Emit.delayLiteral at h
      repeat' split at h
      all_goals
        obtain ⟨t, ht, rfl⟩ := bind_ok h
        have ht : P.Holds t := P.numeral (isNumeral_int ht)
        rw [P.holds_iff]
        simp [ht]
        exact .fixed rfl
    · obtain ⟨t, ht, rfl⟩ := bind_ok h
      rw [P.holds_iff]
      simp [he t ht]
      exact .fixed rfl
  · obtain ⟨t, ht, rfl⟩ := bind_ok h
    rw [P.holds_iff]
    simp [he t ht]
    exact .fixed rfl

/-- Each result of a successful `mapM` is that of an element. -/
theorem mem_of_mapM_ok {ε β : Type} {f : α → Except ε β} {xs : List α} {ys : List β}
    (h : xs.mapM f = .ok ys) : ∀ y ∈ ys, ∃ x ∈ xs, f x = .ok y := by
  intro y hy
  have hmem : Except.ok y ∈ ys.map (Except.ok : β → Except ε β) := mem_map_of_mem hy
  rw [← map_eq_of_mapM_ok h] at hmem
  exact mem_map.mp hmem

/-- The values of an initializer are those of its fields. -/
theorem mem_of_orderedValues {order : List String}
    {given : List (String × Except EmitFault String)}
    {values : List String} (h : Emit.orderedValues order given = .ok values) :
    ∀ v ∈ values, ∃ name, (name, .ok v) ∈ given := by
  intro v hv
  unfold Emit.orderedValues at h
  split at h
  · obtain ⟨⟨name, x⟩, hx, hok⟩ := mem_of_mapM_ok h v hv
    exact ⟨name, by rw [← show x = .ok v from hok]; exact hx⟩
  · obtain ⟨x, hx, hok⟩ := mem_of_mapM_ok h v hv
    obtain ⟨name, -, hlookup⟩ := mem_filterMap.mp hx
    refine ⟨name, mem_reverse.mp ?_⟩
    rw [← show x = .ok v from hok]
    exact mem_of_lookup hlookup

theorem forall_mem_cons_append {P : α → Prop} {a : α} {as bs : List α}
    (h : ∀ x ∈ a :: (as ++ bs), P x) : P a ∧ (∀ x ∈ as, P x) ∧ ∀ x ∈ bs, P x := by
  obtain ⟨ha, hrest⟩ := forall_mem_cons.mp h
  exact ⟨ha, forall_mem_append.mp hrest⟩

section Emit

variable {cx : EmitContext} (hcore : ∀ name text, cx.core name = .ok text → P.Holds text)
include hcore

/-- A task is started with its name and its core. -/
theorem spawn_holds (hname : P.Holds name) (h : Emit.spawn cx name = .ok text) : P.Holds text := by
  obtain ⟨core, hc, rfl⟩ := bind_ok h
  rw [P.holds_iff]
  simp [hname, hcore name core hc]
  exact .fixed rfl

-- the tasks' cores are looked up in one place of the induction
set_option linter.unusedSectionVars false in
mutual

/-- What is written for an expression belongs to the class. -/
theorem expr_holds : ∀ (e : Expr) {view : View} {text : String}, (∀ n ∈ e.nodes view, n.Fits P) →
    Emit.expr cx e = .ok text → P.Holds text
  | .literal .., _, _, h, htext => literal_holds (h _ mem_cons_self) htext
  | .ident _ name, _, _, h, htext => by
    cases htext
    exact h _ mem_cons_self
  | .unary _ op e, _, _, h, htext | .postfixed _ e op, _, _, h, htext => by
    obtain ⟨t, ht, rfl⟩ := bind_ok htext
    have hop : P.Holds op := h _ mem_cons_self
    have he := expr_holds e (forall_mem_cons.mp h).2 ht
    rw [P.holds_iff]
    simp [hop, he]
    exact .fixed rfl
  | .binary _ l op r, _, _, h, htext | .bitwise _ l op r, _, _, h, htext => by
    obtain ⟨t, ht, t', ht', rfl⟩ := bind₂_ok htext
    obtain ⟨hself, hl, hr⟩ := forall_mem_cons_append h
    have hop : P.Holds op := hself
    have hl := expr_holds l hl ht
    have hr := expr_holds r hr ht'
    rw [P.holds_iff]
    simp [hl, hop, hr]
    exact .fixed rfl
  | .assign _ target op value, _, _, h, htext => by
    rw [Emit.expr_assign] at htext
    obtain ⟨v, hv, t, ht, rfl⟩ := bind₂_ok htext
    obtain ⟨hself, htarget, hvalue⟩ := forall_mem_cons_append h
    have hplace : P.Holds t := by
      cases target with
      | member _ object name =>
        obtain ⟨o, ho, rfl⟩ := bind_ok ht
        have hname : P.Holds name := htarget _ mem_cons_self
        have hobject := expr_holds object (forall_mem_cons.mp htarget).2 ho
        rw [P.holds_iff]
        simp [hname, hobject]
        exact P.text rfl
      | _ => exact expr_holds _ htarget ht
    exact assignment_holds hplace hself (expr_holds value hvalue hv)
  | .cast _ e typeName, _, _, h, htext => by
    obtain ⟨t, ht, rfl⟩ := bind_ok htext
    have htype : P.Holds (TypeName.toGenerated typeName) := P.toGenerated (h _ mem_cons_self)
    have he := expr_holds e (forall_mem_cons.mp h).2 ht
    rw [P.holds_iff]
    simp [htype, he]
    exact .fixed rfl
  | .call _ callee args, _, _, h, htext => by
    obtain ⟨f, hf, as, has, rfl⟩ := bind₂_ok htext
    obtain ⟨-, hcallee, hargs⟩ := forall_mem_cons_append h
    have hf := expr_holds callee hcallee hf
    have has : P.Holds (", ".intercalate as) :=
      TextClass.intercalate (P.text rfl) (exprs_holds args hargs has)
    rw [P.holds_iff]
    simp [hf, has]
    exact P.text rfl
  | .structInit _ typeName fields, _, _, h, htext => by
    obtain ⟨values, hvalues, rfl⟩ := bind_ok htext
    have htype : P.Holds (TypeName.toGenerated typeName) := P.toGenerated (h _ mem_cons_self)
    have hvalues : P.Holds (", ".intercalate values) :=
      TextClass.intercalate (P.text rfl) fun v hv => by
        obtain ⟨name, hmem⟩ := mem_of_orderedValues hvalues v hv
        exact fields_holds fields (forall_mem_cons.mp h).2 hmem
    rw [P.holds_iff]
    simp [htype, hvalues]
    exact P.text rfl
  | .member _ e name, _, _, h, htext => by
    obtain ⟨t, ht, rfl⟩ := bind_ok htext
    have hname : P.Holds name := h _ mem_cons_self
    have he := expr_holds e (forall_mem_cons.mp h).2 ht
    rw [P.holds_iff]
    simp [hname, he]
    exact .fixed rfl
  | .ifElse _ condition thenBlock thenValue elseBlock elseValue, _, _, h, htext => by
    obtain ⟨-, hcondition, hrest⟩ := forall_mem_cons_append h
    obtain ⟨hthen, hrest⟩ := forall_mem_append.mp hrest
    obtain ⟨helse, hrest⟩ := forall_mem_append.mp hrest
    obtain ⟨hthenValue, helseValue⟩ := forall_mem_append.mp hrest
    simp only [Emit.expr, bind_eq_ok] at htext
    obtain ⟨c, hc, t, ht, e, he, htext⟩ := htext
    have hc := expr_holds condition hcondition hc
    have ht := expr_holds thenValue hthenValue ht
    have he := expr_holds elseValue helseValue he
    split at htext
    · cases htext
      rw [P.holds_iff]
      simp [hc, ht, he]
      exact .fixed rfl
    · obtain ⟨before, hbefore, before', hbefore', rfl⟩ := bind₂_ok htext
      have hbefore := (block_holds thenBlock hthen hbefore).inline
      have hbefore' := (block_holds elseBlock helse hbefore').inline
      rw [P.holds_iff]
      simp [hc, ht, he, hbefore, hbefore']
      exact .fixed rfl

theorem exprs_holds : ∀ (es : List Expr) {view : View} {texts : List String},
    (∀ n ∈ exprsNodes view es, n.Fits P) → Emit.exprs cx es = .ok texts → ∀ t ∈ texts, P.Holds t
  | [], _, _, _, htexts => by
    cases htexts
    exact forall_mem_nil _
  | e :: es, _, _, h, htexts => by
    obtain ⟨t, ht, ts, hts, rfl⟩ := bind₂_ok htexts
    obtain ⟨he, hes⟩ := forall_mem_append.mp h
    exact forall_mem_cons.mpr ⟨expr_holds e he ht, exprs_holds es hes hts⟩

/-- Whatever value a field is given belongs to the class. -/
theorem fields_holds : ∀ (fields : List FieldInit) {view : View} {name text : String},
    (∀ n ∈ fieldsNodes view fields, n.Fits P) →
    (name, .ok text) ∈ Emit.fieldValues cx fields → P.Holds text
  | [], _, _, _, _, hmem => by cases hmem
  | .mk _ value :: fields, _, _, _, h, hmem => by
    obtain ⟨hvalue, hfields⟩ := forall_mem_append.mp h
    rcases mem_cons.mp hmem with heq | hmem
    · exact expr_holds value hvalue (Prod.mk.inj heq).2.symm
    · exact fields_holds fields hfields hmem

/-- A struct is written without its name behind a variable. -/
theorem initializer_holds : ∀ (init : Option Expr) {view : View} {text : String},
    (∀ n ∈ exprNodes? view init, n.Fits P) → Emit.initializer cx init = .ok text → P.Holds text
  | none, _, _, _, htext => by
    cases htext
    exact P.text rfl
  | some e, _, _, h, htext => by
    cases e with
    | structInit _ typeName fields =>
      obtain ⟨values, hvalues, rfl⟩ := bind_ok htext
      have hvalues : P.Holds (", ".intercalate values) :=
        TextClass.intercalate (P.text rfl) fun v hv => by
          obtain ⟨name, hmem⟩ := mem_of_orderedValues hvalues v hv
          exact fields_holds fields (forall_mem_cons.mp h).2 hmem
      rw [P.holds_iff]
      simp [hvalues]
      exact .fixed rfl
    | _ =>
      obtain ⟨t, ht, rfl⟩ := bind_ok htext
      have he := expr_holds _ h ht
      rw [P.holds_iff]
      simp [he]
      exact .fixed rfl

theorem block_holds : ∀ (b : Block) {view : View} {lines : List Line},
    (∀ n ∈ b.nodes view, n.Fits P) → Emit.block cx b = .ok lines → HoldsLines P lines
  | .mk _ statements, _, _, h, hlines => stmts_holds statements h hlines

theorem stmts_holds : ∀ (ss : List Stmt) {view : View} {lines : List Line},
    (∀ n ∈ stmtsNodes view ss, n.Fits P) → Emit.stmts cx ss = .ok lines → HoldsLines P lines
  | [], _, _, _, hlines => by
    cases hlines
    exact .nil
  | s :: ss, _, _, h, hlines => by
    obtain ⟨first, hfirst, rest, hrest, rfl⟩ := bind₂_ok hlines
    obtain ⟨hs, hss⟩ := forall_mem_append.mp h
    exact (stmt_holds s hs hfirst).append (stmts_holds ss hss hrest)

/-- The first line of an arm opens a brace that its last line closes. -/
theorem arms_holds : ∀ (arms : List MatchArm) {view : View} {lines : List Line},
    (∀ n ∈ armsNodes view arms, n.Fits P) → Emit.arms cx arms = .ok lines → HoldsLines P lines
  | [], _, _, _, hlines => by
    cases hlines
    exact .nil
  | .mk span pattern isWildcard body :: arms, _, _, h, hok => by
    rw [Emit.arms_cons] at hok
    obtain ⟨head, hhead, lines, hlines, others, hothers, rfl⟩ := bind₃_ok hok
    obtain ⟨hpattern, hrest⟩ := forall_mem_append.mp h
    obtain ⟨hbody, harms⟩ := forall_mem_append.mp hrest
    have hhead : P.Holds (head ++ "\x7d") := by
      unfold Emit.armHead at hhead
      split at hhead
      · cases hhead
        exact TextClass.fixed_append rfl
      · cases pattern with
        | none =>
          cases hhead
          exact TextClass.fixed_append rfl
        | some e =>
          obtain ⟨t, ht, rfl⟩ := bind_ok hhead
          have he := expr_holds e hpattern ht
          rw [P.holds_iff]
          simp [he]
          exact .fixed rfl
    have hlines := block_holds body hbody hlines
    have hbreak : HoldsLines P [⟨"break;", some span⟩] := .singleton (P.text rfl)
    exact (HoldsLines.braced hhead (hlines.append hbreak)).append (arms_holds arms harms hothers)

/-- What is written for a statement belongs to the class, all lines
together. -/
theorem stmt_holds : ∀ (s : Stmt) {view : View} {lines : List Line},
    (∀ n ∈ s.nodes view, n.Fits P) → Emit.stmt cx s = .ok lines → HoldsLines P lines
  | .structDecl .., _, _, _, hlines | .taskDecl .., _, _, _, hlines
  | .busDecl .., _, _, _, hlines => by
    cases hlines
    exact .nil
  | .importDecl .., _, _, _, hlines | .functionDecl .., _, _, _, hlines
  | .loopDecl .., _, _, _, hlines | .returnValue _ none, _, _, _, hlines => by
    cases hlines
    exact .singleton (P.text rfl)
  | .spawn _ name, _, _, h, hlines => by
    obtain ⟨t, ht, rfl⟩ := bind_ok hlines
    exact .singleton (spawn_holds hcore (h _ mem_cons_self) ht)
  | .varDecl _ name typeName init _ _ _, _, _, h, hlines => by
    obtain ⟨t, ht, rfl⟩ := bind_ok hlines
    obtain ⟨hself, hinit⟩ := forall_mem_cons.mp h
    exact .singleton (varDecl_holds hself.1 hself.2 (initializer_holds init hinit ht))
  | .expr _ e, _, _, h, hlines => by
    obtain ⟨t, ht, rfl⟩ := bind_ok hlines
    have he := expr_holds e (forall_mem_cons.mp h).2 ht
    refine .singleton ?_
    rw [P.holds_iff]
    simp [he]
    exact P.text rfl
  | .returnValue _ (some value), _, _, h, hlines => by
    obtain ⟨t, ht, rfl⟩ := bind_ok hlines
    have he := expr_holds value (forall_mem_cons.mp h).2 ht
    refine .singleton ?_
    rw [P.holds_iff]
    simp [he]
    exact .fixed rfl
  | .ifElse _ condition thenBranch elseBranch, _, _, h, hlines => by
    obtain ⟨-, hcondition, hrest⟩ := forall_mem_cons_append h
    obtain ⟨hthen, helse⟩ := forall_mem_append.mp hrest
    have hhead {c : String} (hc : P.Holds c) : P.Holds ("if (" ++ c ++ ") \x7b" ++ "\x7d") := by
      rw [P.holds_iff]
      simp [hc]
      exact .fixed rfl
    cases elseBranch with
    | none =>
      obtain ⟨c, hc, body, hbody, rfl⟩ := bind₂_ok hlines
      exact .braced (hhead (expr_holds condition hcondition hc))
        (block_holds thenBranch hthen hbody)
    | some other =>
      obtain ⟨c, hc, body, hbody, body', hbody', rfl⟩ := bind₃_ok hlines
      exact (HoldsLines.braced (hhead (expr_holds condition hcondition hc))
        (block_holds thenBranch hthen hbody)).append
          (.braced (TextClass.fixed_append rfl) (block_holds other helse hbody'))
  | .matchValue _ value arms, _, _, h, hlines => by
    obtain ⟨v, hv, body, hbody, rfl⟩ := bind₂_ok hlines
    obtain ⟨-, hvalue, harms⟩ := forall_mem_cons_append h
    have hv := expr_holds value hvalue hv
    have hhead : P.Holds ("switch (" ++ v ++ ") \x7b" ++ "\x7d") := by
      rw [P.holds_iff]
      simp [hv]
      exact .fixed rfl
    exact .enclosed hhead (arms_holds arms harms hbody)
  | .whileLoop _ condition body, _, _, h, hok => by
    obtain ⟨c, hc, lines, hlines, rfl⟩ := bind₂_ok hok
    obtain ⟨-, hcondition, hbody⟩ := forall_mem_cons_append h
    have hc := expr_holds condition hcondition hc
    have hhead : P.Holds ("while (" ++ c ++ ") \x7b" ++ "\x7d") := by
      rw [P.holds_iff]
      simp [hc]
      exact .fixed rfl
    exact .braced hhead (block_holds body hbody hlines)
  | .forLoop _ init condition update body, _, _, h, hok => by
    rw [Emit.stmt_forLoop] at hok
    obtain ⟨i, hi, c, hc, u, hu, lines, hlines, rfl⟩ := bind₄_ok hok
    obtain ⟨-, hinit, hrest⟩ := forall_mem_cons_append h
    obtain ⟨hcondition, hrest⟩ := forall_mem_append.mp hrest
    obtain ⟨hupdate, hbody⟩ := forall_mem_append.mp hrest
    have hi := clause_holds init hinit hi
    have hc := exprOr_holds condition (P.text rfl) hcondition hc
    have hu := exprOr_holds update (P.text rfl) hupdate hu
    have hhead : P.Holds ("for (" ++ i ++ "; " ++ c ++ "; " ++ u ++ ") \x7b" ++ "\x7d") := by
      rw [P.holds_iff]
      simp [hi, hc, hu]
      exact .fixed rfl
    exact .braced hhead (block_holds body hbody hlines)
  | .gpioMode _ pin mode, _, _, h, hlines => by
    obtain ⟨p, hp, rfl⟩ := bind_ok hlines
    have hp := expr_holds pin (forall_mem_cons.mp h).2 hp
    refine .singleton ?_
    have hmode : P.Holds (if (mode == "out") = true then "OUTPUT" else "INPUT") := by
      split <;> exact P.text rfl
    generalize (if (mode == "out") = true then "OUTPUT" else "INPUT") = word at hmode ⊢
    rw [P.holds_iff]
    simp [hp, hmode]
    exact .fixed rfl
  | .digitalWrite _ pin value, _, _, h, hlines => by
    obtain ⟨p, hp, v, hv, rfl⟩ := bind₂_ok hlines
    obtain ⟨-, hpin, hvalue⟩ := forall_mem_cons_append h
    have hp := expr_holds pin hpin hp
    have hv := expr_holds value hvalue hv
    exact .singleton (digitalWrite_holds hp hv)
  | .pwmWrite _ pin duty channel, _, _, h, hlines => by
    rw [Emit.stmt_pwmCalls] at hlines
    obtain ⟨ch, hch, p, hp, d, hd, rfl⟩ := bind₃_ok hlines
    obtain ⟨-, hpin, hrest⟩ := forall_mem_cons_append h
    obtain ⟨hduty, hchannel⟩ := forall_mem_append.mp hrest
    have hp := expr_holds pin hpin hp
    have hd := expr_holds duty hduty hd
    have hch : P.Holds ch := by
      rcases Emit.pwmChannel_cases hch with rfl | hch
      · exact P.text rfl
      · exact exprOr_holds channel (P.text rfl) hchannel hch
    exact .map (pwmCalls_holds hp hd hch)
  | .rgbWrite _ pin red green blue, _, _, h, hlines => by
    obtain ⟨-, hpin, hrest⟩ := forall_mem_cons_append h
    obtain ⟨hred, hrest⟩ := forall_mem_append.mp hrest
    obtain ⟨hgreen, hblue⟩ := forall_mem_append.mp hrest
    simp only [Emit.stmt] at hlines
    split at hlines
    · obtain ⟨p, hp, r, hr, g, hg, b, hb, rfl⟩ := bind₄_ok hlines
      have hp := expr_holds pin hpin hp
      have hr := expr_holds red hred hr
      have hg := expr_holds green hgreen hg
      have hb := expr_holds blue hblue hb
      refine .singleton ?_
      rw [P.holds_iff]
      simp [hp, hr, hg, hb]
      exact .fixed rfl
    · cases hlines
  | .wifiConnect _ ssid password, _, _, h, hlines => by
    obtain ⟨s, hs, p, hp, rfl⟩ := bind₂_ok hlines
    obtain ⟨-, hssid, hpassword⟩ := forall_mem_cons_append h
    have hs := expr_holds ssid hssid hs
    have hp := expr_holds password hpassword hp
    exact .map (wifiConnect_holds hs hp)
  | .delay _ time, _, _, h, hlines => by
    rw [Emit.stmt_delay] at hlines
    obtain ⟨text, htext, rfl⟩ := bind_ok hlines
    refine .singleton (delayCall_holds (fun t ht => ?_) htext)
    exact expr_holds time (forall_mem_cons.mp h).2 ht
  | .raw _ code, _, _, h, hlines => by
    cases hlines
    refine .braced (TextClass.fixed_append rfl) (.map fun t ht => ?_)
    split at ht
    · rw [mem_singleton.mp ht]
      exact P.text rfl
    · exact h _ mem_cons_self t ht
  | .block body, _, _, h, hok => by
    obtain ⟨lines, hlines, rfl⟩ := bind_ok hok
    exact .braced (TextClass.fixed_append rfl) (block_holds body (forall_mem_cons.mp h).2 hlines)

/-- The first clause of a header loses nothing but semicolons. -/
theorem clause_holds : ∀ (s? : Option Stmt) {view : View} {text : String},
    (∀ n ∈ clauseNodes? view s?, n.Fits P) → Emit.clause cx s? = .ok text → P.Holds text
  | none, _, _, _, htext => by
    cases htext
    exact P.text rfl
  | some s, _, _, h, htext => by
    cases s with
    | varDecl _ name typeName init =>
      obtain ⟨t, ht, rfl⟩ := bind_ok htext
      obtain ⟨hself, hinit⟩ := forall_mem_cons.mp h
      refine TextClass.trimRightWhile (fun c hc => ?_)
        (varDecl_holds hself.1 hself.2 (initializer_holds init hinit ht))
      rw [eq_of_beq hc]
      decide
    | expr _ e => exact expr_holds e (forall_mem_cons.mp h).2 htext
    | _ =>
      cases htext
      exact P.text rfl

/-- A part of a header may be missing. -/
theorem exprOr_holds : ∀ (e? : Option Expr) {view : View} {missing text : String},
    P.Holds missing →
    (∀ n ∈ exprNodes? view e?, n.Fits P) → Emit.exprOr cx missing e? = .ok text → P.Holds text
  | none, _, _, _, hmissing, _, htext => by
    cases htext
    exact hmissing
  | some e, _, _, _, _, h, htext => expr_holds e h htext

end

end Emit

-- ==== whole sketches

namespace Sketch

theorem mem_decoratorsNodes :
    ∀ {ds : List Decorator}, decorator? name ds = some value →
      ∀ n ∈ value.nodes view, n ∈ decoratorsNodes view ds
  | .mk _ declared other :: ds, h, n, hn => by
    rw [decorator?] at h
    split at h
    · cases h
      exact mem_append_left _ hn
    · exact mem_append_right _ (mem_decoratorsNodes h n hn)

theorem exists_view_of_mem {Q : Node → Prop} (hp : ∀ n ∈ p.nodes, Q n) {d : Stmt}
    (hd : d ∈ p.declarations) : ∃ view, ∀ n ∈ d.nodes view, Q n := by
  suffices hall : ∀ (ds : List Stmt) (view : View), (∀ n ∈ stmtsNodes view ds, Q n) →
      d ∈ ds → ∃ view, ∀ n ∈ d.nodes view, Q n from hall _ _ hp hd
  intro ds
  induction ds with
  | nil => exact fun _ _ hd => absurd hd not_mem_nil
  | cons s rest ih =>
    intro view h hd
    obtain ⟨hs, hrest⟩ := forall_mem_append.mp h
    rcases mem_cons.mp hd with rfl | hd
    · exact ⟨view, hs⟩
    · exact ih _ hrest hd

/-- The core of a task is an expression of the program. -/
theorem core_holds (hp : ∀ n ∈ p.nodes, n.Fits P) (backend : Backend) :
    ∀ (bound : Nat) (name text : String),
      (context backend p bound).core name = .ok text → P.Holds text
  | 0, _, _, h => by cases h
  | bound + 1, name, text, h => by
    unfold context at h
    simp only at h
    split at h
    · cases h
      exact P.text rfl
    · rename_i value hvalue
      rw [taskDecorators_eq] at hvalue
      cases hfind : p.declarations.reverse.findSome? (Stmt.decoratorsOf? name) with
      | none =>
        rw [hfind] at hvalue
        cases hvalue
      | some decorators =>
        rw [hfind] at hvalue
        obtain ⟨d, hd, hdecorators⟩ := exists_of_findSome?_eq_some hfind
        obtain ⟨view, hnodes⟩ := exists_view_of_mem hp (mem_reverse.mp hd)
        have hvalueNodes : ∀ n ∈ value.nodes view, n.Fits P := by
          intro n hn
          cases d with
          | taskDecl span declared ds body =>
            rw [Stmt.decoratorsOf?, Option.ite_none_right_eq_some] at hdecorators
            obtain ⟨-, hds⟩ := hdecorators
            rw [← Option.some.inj hds] at hvalue
            exact hnodes n
              (mem_cons_of_mem _ (mem_append_left _ (mem_decoratorsNodes hvalue n hn)))
          | _ => cases hdecorators
        exact expr_holds (core_holds hp backend bound) value hvalueNodes h

section Declarations

variable {cx : EmitContext} (hcore : ∀ name text, cx.core name = .ok text → P.Holds text)
  {view : View}
include hcore

/-- A rate is a number, or written like any other expression. -/
theorem taskRate_holds (hnodes : ∀ n ∈ decoratorsNodes view ds, n.Fits P)
    (h : taskRate cx ds = .ok rate) : P.Holds rate := by
  have he {value : Expr} {text : String} (hvalue : decorator? "rate" ds = some value)
      (htext : Emit.expr cx value = .ok text) : P.Holds text :=
    expr_holds hcore value (fun n hn => hnodes n (mem_decoratorsNodes hvalue n hn)) htext
  unfold taskRate at h
  split at h
  · cases h
    exact P.text rfl
  · rename_i span value typeName hvalue
    split at h
    · split at h
      · exact P.numeral (isNumeral_int h)
      · refine value_holds (hnodes (.expr view (.literal span value typeName)) ?_) h
        exact mem_decoratorsNodes hvalue _ mem_cons_self
    · split at h
      · repeat' split at h
        · exact P.numeral (isNumeral_int h)
        · exact P.numeral (isNumeral_int h)
        · exact P.numeral (isNumeral_int h)
        · exact he hvalue h
      · exact he hvalue h
  · rename_i hvalue
    exact he hvalue h

/-- The function of a task opens two blocks and closes both. -/
theorem taskFunction_holds {ds : List Decorator} {body : Option Block} (hname : P.Holds name)
    (hds : ∀ n ∈ decoratorsNodes view ds, n.Fits P) (hbody : ∀ n ∈ blockNodes? view body, n.Fits P)
    (h : taskFunction cx span name ds body = .ok lines) : HoldsLines P lines := by
  rw [taskFunction_eq] at h
  obtain ⟨inner, hinner, rate, hrate, rfl⟩ := bind₂_ok h
  have hinner : HoldsLines P inner := by
    cases body with
    | none =>
      cases hinner
      exact .nil
    | some body => exact block_holds hcore body hbody hinner
  have hrate := taskRate_holds hcore hds hrate
  have hpause : P.Holds ("vTaskDelay(pdMS_TO_TICKS(" ++ rate ++ "));") := by
    rw [P.holds_iff]
    simp [hrate]
    exact .fixed rfl
  have hhead : P.Holds ("void __task_" ++ name ++ "(void* pvParameters) \x7b" ++ "\x7d") := by
    rw [P.holds_iff]
    simp [hname]
    exact .fixed rfl
  exact .braced hhead (.braced (TextClass.fixed_append rfl) (hinner.append (.singleton hpause)))

omit hcore in
/-- Parameters are types and names with commas in between. -/
theorem params_holds (h : ∀ q ∈ params, P.Holds q.name ∧ P.Holds q.typeName) :
    P.Holds (", ".intercalate
      (params.map fun q => TypeName.toGenerated q.typeName ++ " " ++ q.name)) := by
  refine TextClass.intercalate (P.text rfl) fun t ht => ?_
  obtain ⟨q, hq, rfl⟩ := mem_map.mp ht
  exact TextClass.append (TextClass.append (P.toGenerated (h q hq).2) (P.text rfl)) (h q hq).1

/-- An empty function without a result returns at once. -/
theorem function_holds {returnType : String} {body : Block}
    (hself : (Stmt.functionDecl span name params returnType body).Fits P)
    (hbody : ∀ n ∈ body.nodes view, n.Fits P)
    (h : function cx span name params returnType body = .ok lines) : HoldsLines P lines := by
  obtain ⟨inner, hinner, rfl⟩ := bind_ok h
  have hinner := block_holds hcore body hbody hinner
  obtain ⟨hname, hreturn, hparams⟩ := hself
  have hreturn := P.toGenerated hreturn
  have hparams := params_holds hparams
  refine .braced ?_ ?_
  · rw [P.holds_iff]
    simp [hreturn, hname, hparams]
    exact P.text rfl
  · split
    · exact .singleton (P.text rfl)
    · exact hinner

/-- The parts of the code that belong to the class. -/
structure Sections.Fit (P : TextClass) (s : Sections) : Prop where
  globals : HoldsLines P s.globals
  functions : ∀ f ∈ s.functions, HoldsLines P f
  setup : HoldsLines P s.setup
  loop : HoldsLines P s.loop

omit hcore in
theorem Sections.Fit.empty : ({} : Sections).Fit P := ⟨.nil, forall_mem_nil _, .nil, .nil⟩

omit hcore in
/-- Parts one behind the other. -/
theorem Sections.Fit.append {a b : Sections} (ha : a.Fit P) (hb : b.Fit P) : (a ++ b).Fit P where
  globals := ha.globals.append hb.globals
  functions := forall_mem_append.mpr ⟨ha.functions, hb.functions⟩
  setup := ha.setup.append hb.setup
  loop := ha.loop.append hb.loop

/-- What a declaration adds to the code belongs to the class. -/
theorem ofDecl_fit (hnodes : ∀ n ∈ d.nodes view, n.Fits P) (h : ofDecl cx d = .ok s) :
    s.Fit P := by
  have hother {lines : List Line} (hlines : Emit.stmt cx d = .ok lines) :
      ({ setup := lines } : Sections).Fit P :=
    { Sections.Fit.empty with setup := stmt_holds hcore d hnodes hlines }
  cases d with
  | structDecl =>
    cases h
    exact .empty
  | taskDecl span name ds body =>
    obtain ⟨lines, hlines, start, hstart, rfl⟩ := bind₂_ok h
    obtain ⟨hname, hds, hbody⟩ := forall_mem_cons_append hnodes
    exact { Sections.Fit.empty with
      functions := forall_mem_singleton.mpr
        (taskFunction_holds hcore hname hds hbody hlines)
      setup := .singleton (spawn_holds hcore hname hstart) }
  | busDecl span busType name sda scl freq devices =>
    obtain ⟨-, hsda, hrest⟩ := forall_mem_cons_append hnodes
    obtain ⟨hscl, hrest⟩ := forall_mem_append.mp hrest
    obtain ⟨hfreq, -⟩ := forall_mem_append.mp hrest
    simp only [ofDecl] at h
    split at h
    · obtain ⟨a, ha, b, hb, c, hc, rfl⟩ := bind₃_ok h
      have ha := expr_holds hcore sda hsda ha
      have hb := expr_holds hcore scl hscl hb
      have hc := expr_holds hcore freq hfreq hc
      refine { Sections.Fit.empty with setup := .singleton ?_ }
      rw [P.holds_iff]
      simp [ha, hb, hc]
      exact .fixed rfl
    · cases h
      exact .empty
  | functionDecl span name params returnType body =>
    obtain ⟨lines, hlines, rfl⟩ := bind_ok h
    obtain ⟨hself, hbody⟩ := forall_mem_cons.mp hnodes
    exact { Sections.Fit.empty with
      functions := forall_mem_singleton.mpr (function_holds hcore hself hbody hlines) }
  | loopDecl span body =>
    obtain ⟨lines, hlines, rfl⟩ := bind_ok h
    exact { Sections.Fit.empty with
      loop := block_holds hcore body (forall_mem_cons.mp hnodes).2 hlines }
  | varDecl span name typeName init =>
    obtain ⟨t, ht, rfl⟩ := bind_ok h
    obtain ⟨hself, hinit⟩ := forall_mem_cons.mp hnodes
    exact { Sections.Fit.empty with
      globals := .singleton
        (varDecl_holds hself.1 hself.2 (initializer_holds hcore init hinit ht)) }
  | _ =>
    obtain ⟨lines, hlines, rfl⟩ := bind_ok h
    exact hother hlines

/-- What the declarations add belongs to the class. -/
theorem ofDecls_fit : ∀ {ds : List Stmt} {s : Sections},
    (∀ d ∈ ds, ∃ view, ∀ n ∈ d.nodes view, n.Fits P) → ofDecls cx ds = .ok s → s.Fit P
  | [], _, _, h => by
    cases h
    exact .empty
  | d :: ds, _, hall, h => by
    obtain ⟨first, hfirst, rest, hrest, rfl⟩ := bind₂_ok h
    obtain ⟨⟨view, hd⟩, hds⟩ := forall_mem_cons.mp hall
    exact (ofDecl_fit hcore hd hfirst).append (ofDecls_fit hds hrest)

end Declarations

/-- The first lines of a sketch are fixed. -/
theorem opening_holds (backend : Backend) (headers : Headers) :
    HoldsLines P (opening backend headers) := by
  have hincludes : ∀ t ∈ includes headers, P.Holds t := by
    unfold includes
    simp only [forall_mem_append]
    refine ⟨⟨⟨⟨⟨?_, ?_⟩, ?_⟩, ?_⟩, ?_⟩, ?_⟩
    case refine_1 | refine_6 => exact forall_mem_singleton.mpr (P.text rfl)
    all_goals
      split
      · exact forall_mem_singleton.mpr (P.text rfl)
      · exact forall_mem_nil _
  have hfast : HoldsLines P (fastWrite.map (⟨·, none⟩)) := by
    -- the braces of the function close on later lines, so its lines are joined first
    suffices h : P.Holds (String.ofList [] ++ glue "" (fastWrite.map (⟨·, none⟩))) by
      rwa [String.ofList_nil, String.empty_append] at h
    iterate 13 refine HoldsLines.fixed_cons ?_
    rw [map_nil, glue, String.append_empty]
    exact P.fixed (by decide +kernel)
  unfold opening
  rw [map_append]
  refine .append (.map hincludes) ?_
  split
  · exact hfast
  · exact .nil

/-- A struct type holds the names and types of its fields. -/
theorem structType_holds (hnodes : ∀ n ∈ d.nodes view, n.Fits P) :
    HoldsLines P (structType d) := by
  cases d with
  | structDecl span name fields =>
    obtain ⟨hname, hfields⟩ : (Stmt.structDecl span name fields).Fits P := hnodes _ mem_cons_self
    have hlines : HoldsLines P (fields.map fun f =>
        ⟨"  " ++ TypeName.toGenerated f.typeName ++ " " ++ f.name ++ ";", some f.span⟩) := by
      refine .of_forall fun l hl => ?_
      obtain ⟨f, hf, rfl⟩ := mem_map.mp hl
      have htype := P.toGenerated (hfields f hf).2
      have hfname := (hfields f hf).1
      rw [P.holds_iff]
      simp [htype, hfname]
      exact .fixed rfl
    have hends : P.Holds ("struct " ++ name ++ " \x7b" ++ "\x7d;") := by
      rw [P.holds_iff]
      simp [hname]
      exact .fixed rfl
    have hblank : HoldsLines P [⟨"", none⟩] := .singleton P.empty
    have hblock : HoldsLines P (⟨"struct " ++ name ++ " \x7b", some span⟩ :: _
        ++ [⟨"\x7d;", some span⟩]) := .enclosed hends hlines
    simpa [structType] using hblock.append hblank
  | _ => exact .nil

/-- A task is announced by its name. -/
theorem taskPrototype_holds (hnodes : ∀ n ∈ d.nodes view, n.Fits P) :
    HoldsLines P (taskPrototype d) := by
  cases d with
  | taskDecl span name =>
    have hname : P.Holds name := hnodes _ mem_cons_self
    refine .singleton ?_
    rw [P.holds_iff]
    simp [hname]
    exact .fixed rfl
  | _ => exact .nil

def declared (s : Sections) : List Line :=
  s.globals ++ (if s.globals.isEmpty then [] else [⟨"", none⟩])
    ++ s.functions.flatMap (· ++ [⟨"", none⟩])

/-- A function that the board calls. -/
def boardFunction (head comment : String) (body : List Line) : List Line :=
  ⟨head, none⟩ :: bodyOr comment body ++ [⟨"\x7d", none⟩]

/-- The code is put together from four parts. -/
theorem compose_eq (s : Sections) :
    compose s = declared s ++ boardFunction "void setup() \x7b" "// setup" s.setup ++ [⟨"", none⟩]
      ++ boardFunction "void loop() \x7b" "// loop" s.loop := by
  simp [compose, declared, boardFunction]

/-- The lines in front of the functions that the board calls. -/
theorem declared_holds (h : s.Fit P) : HoldsLines P (declared s) := by
  have hblank : HoldsLines P [⟨"", none⟩] := .singleton P.empty
  refine .append (.append h.globals ?_) (.flatMap fun f hf => (h.functions f hf).append hblank)
  split
  · exact .nil
  · exact hblank

/-- An empty function holds a comment instead. -/
theorem boardFunction_holds (hhead : P.Holds (head ++ "\x7d")) (hcomment : P.Holds comment)
    (h : HoldsLines P body) : HoldsLines P (boardFunction head comment body) := by
  refine .enclosed hhead ?_
  unfold bodyOr
  split
  · exact .indent (.singleton hcomment)
  · exact h.indent

/-- The code belongs to the class at each place between two parts. -/
theorem compose_holds (h : s.Fit P) :
    HoldsLines P (declared s)
      ∧ HoldsLines P (declared s ++ boardFunction "void setup() \x7b" "// setup" s.setup
        ++ [⟨"", none⟩])
      ∧ HoldsLines P (compose s) := by
  have hsetup : HoldsLines P (boardFunction "void setup() \x7b" "// setup" s.setup) :=
    boardFunction_holds (TextClass.fixed_append rfl) (P.text rfl) h.setup
  have hloop : HoldsLines P (boardFunction "void loop() \x7b" "// loop" s.loop) :=
    boardFunction_holds (TextClass.fixed_append rfl) (P.text rfl) h.loop
  have hfront := ((declared_holds h).append hsetup).append (.singleton (l := ⟨"", none⟩) P.empty)
  refine ⟨declared_holds h, hfront, ?_⟩
  rw [compose_eq]
  exact hfront.append hloop

/-- A sketch is composed of parts that belong to the class. -/
theorem exists_fit_sections (hp : ∀ n ∈ p.nodes, n.Fits P) (h : p.sketch backend = .ok sk) :
    ∃ s : Sections, s.Fit P ∧ sk.lines = compose s := by
  rw [sketch_eq, bind_eq_ok] at h
  obtain ⟨sections, hsections, hsk⟩ := h
  rw [← pure_eq_ok.mp hsk]
  refine ⟨_, ?_, rfl⟩
  have hgap : HoldsLines P (if (p.declarations.flatMap taskPrototype).isEmpty then []
      else [⟨"", none⟩]) := by
    split
    · exact .nil
    · exact .singleton P.empty
  have htypes : HoldsLines P (p.declarations.flatMap structType) :=
    .flatMap fun d hd => (exists_view_of_mem hp hd).elim fun _ hnodes => structType_holds hnodes
  have hprototypes : HoldsLines P (p.declarations.flatMap taskPrototype) :=
    .flatMap fun d hd => (exists_view_of_mem hp hd).elim fun _ hnodes => taskPrototype_holds hnodes
  have hglobals : ({ globals := opening backend (Headers.ofProgram p) ++ p.preamble }
      : Sections).Fit P :=
    { Sections.Fit.empty with
      globals := (opening_holds _ _).append (htypes.append (hprototypes.append hgap)) }
  exact hglobals.append (ofDecls_fit (core_holds hp backend _)
    (fun d hd => exists_view_of_mem hp hd) hsections)

/-- A sketch belongs to the class if the texts of its nodes do. -/
theorem sketch_holds (hp : ∀ n ∈ p.nodes, n.Fits P) (h : p.sketch backend = .ok sk) :
    HoldsLines P sk.lines := by
  obtain ⟨s, hs, hlines⟩ := exists_fit_sections hp h
  rw [hlines]
  exact (compose_holds hs).2.2

end Sketch

end SketchCompiler
