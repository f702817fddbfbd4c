/-
The written part of a whole program, and the code that it gives.

At the top level a declaration has a part of its own in the code, so what
is inside it is written: the body of a function or of the loop, the body
of a task with the decorators that say its rate and its core, the lines
and the frequency of an I2C bus.  The core of a task is looked up by the
task's name; of several tasks of one name the last one tells it.

The main result is `Program.sketch_written`: a program and its written
part give the same code behind the lines that open it.  The
libraries that those include are those of the whole program.
-/
import SketchCompiler.Proofs.Written

namespace SketchCompiler

open List

-- ==== steps that may fail

variable {ε α β γ δ ζ : Type} {x : Except ε α} {y : α → Except ε β}

theorem bind_eq_ok {f : α → Except ε β} :
    (x >>= f) = .ok b ↔ ∃ a, x = .ok a ∧ f a = .ok b := by
  cases x with
  | error e =>
    constructor
    · intro h
      cases h
    · rintro ⟨a, ha, -⟩
      cases ha
  | ok a =>
    constructor
    · intro h
      exact ⟨a, rfl, h⟩
    · rintro ⟨a', ha, hb⟩
      rw [Except.ok.inj ha]
      exact hb

theorem pure_eq_ok : (pure a : Except ε α) = .ok b ↔ a = b :=
  ⟨fun h => Except.ok.inj h, fun h => congrArg Except.ok h⟩

theorem bind_ok {f : α → β} (h : (do let a ← x; return f a) = .ok r) :
    ∃ a, x = .ok a ∧ f a = r := by
  simpa only [bind_eq_ok, pure_eq_ok] using h

theorem bind₂_ok {f : α → β → γ} (h : (do let a ← x; let b ← y a; return f a b) = .ok r) :
    ∃ a, x = .ok a ∧ ∃ b, y a = .ok b ∧ f a b = r := by
  simpa only [bind_eq_ok, pure_eq_ok] using h

theorem bind₃_ok {z : α → β → Except ε γ} {f : α → β → γ → δ}
    (h : (do let a ← x; let b ← y a; let c ← z a b; return f a b c) = .ok r) :
    ∃ a, x = .ok a ∧ ∃ b, y a = .ok b ∧ ∃ c, z a b = .ok c ∧ f a b c = r := by
  simpa only [bind_eq_ok, pure_eq_ok] using h

theorem bind₄_ok {z : α → β → Except ε γ} {z' : α → β → γ → Except ε δ}
    {f : α → β → γ → δ → ζ}
    (h : (do let a ← x; let b ← y a; let c ← z a b; let d ← z' a b c; return f a b c d)
      = .ok r) :
    ∃ a, x = .ok a ∧ ∃ b, y a = .ok b ∧ ∃ c, z a b = .ok c ∧ ∃ d, z' a b c = .ok d
      ∧ f a b c d = r := by
  simpa only [bind_eq_ok, pure_eq_ok] using h

theorem map_eq_of_mapM_ok {f : α → Except ε β} {as : List α} {bs : List β}
    (h : as.mapM f = .ok bs) : as.map f = bs.map .ok := by
  induction as generalizing bs with
  | nil =>
    cases h
    rfl
  | cons a as ih =>
    simp only [mapM_cons, bind_eq_ok, pure_eq_ok] at h
    obtain ⟨b, hb, bs, hbs, rfl⟩ := h
    rw [map_cons, map_cons, hb, ih hbs]

-- ==== declarations of the top level

/-- The written part of decorators: the first one of each wanted name. -/
def decoratorsWritten (order : String → List String) (wanted : List String) :
    List Decorator → List Decorator
  | [] => []
  | .mk span name value :: rest =>
    if wanted.contains name then
      .mk span name (value.written order) :: decoratorsWritten order (wanted.erase name) rest
    else .mk span name value.blank :: decoratorsWritten order wanted rest

/-- The statement declares a task of the name. -/
def Stmt.isTaskNamed (name : String) : Stmt → Bool
  | .taskDecl _ declared _ _ => declared == name
  | _ => false

/-- The decorators that are asked for of a task in front of others. -/
def wantedDecorators (name : String) (later : List Stmt) : List String :=
  if later.any (·.isTaskNamed name) then ["rate"] else ["core", "rate"]

/-- The written part of an expression of a bus; only an I2C bus is
started. -/
def Expr.writtenFor (order : String → List String) (busType : String) (e : Expr) : Expr :=
  if Text.upper busType == "I2C" then e.written order else e.blank

/-- The written part of a declaration of the top level in front of
others. -/
def declWritten (order : String → List String) (later : List Stmt) : Stmt → Stmt
  | .taskDecl span name decorators body =>
    .taskDecl span name (decoratorsWritten order (wantedDecorators name later) decorators)
      (blockWritten? order body)
  | .busDecl span busType name sda scl freq _ =>
    .busDecl span busType name (sda.writtenFor order busType) (scl.writtenFor order busType)
      (freq.writtenFor order busType) []
  | .functionDecl span name params returnType body =>
    .functionDecl span name params returnType (body.written order)
  | .loopDecl span body => .loopDecl span (body.written order)
  | s => s.written order

/-- The written part of the declarations of the top level. -/
def declsWritten (order : String → List String) : List Stmt → List Stmt
  | [] => []
  | d :: later => declWritten order later d :: declsWritten order later

/-- The written part of a program. -/
def Program.written (p : Program) : Program :=
  { p with declarations := declsWritten (Sketch.fieldOrder p) p.declarations }

-- ==== what a program is asked for

theorem findSome?_reverse_cons (f : Stmt → Option α) (d : Stmt) (later : List Stmt) :
    (d :: later).reverse.findSome? f = (later.reverse.findSome? f).or (f d) := by
  rw [reverse_cons, findSome?_append, findSome?_singleton]

theorem findSome?_declsWritten (f : Stmt → Option α) (order : String → List String)
    (h : ∀ later d, f (declWritten order later d) = f d) (ds : List Stmt) :
    (declsWritten order ds).reverse.findSome? f = ds.reverse.findSome? f := by
  induction ds with
  | nil => rfl
  | cons d later ih => rw [declsWritten, findSome?_reverse_cons, findSome?_reverse_cons, ih, h]

theorem fieldOrder_written (p : Program) : Sketch.fieldOrder p.written = Sketch.fieldOrder p := by
  funext name
  unfold Sketch.fieldOrder
  rw [Program.written]
  congr 1
  apply findSome?_declsWritten
  intro later d
  cases d <;> rfl

variable (order : String → List String)

theorem decorator?_written (name : String) (ds : List Decorator) :
    ∀ wanted : List String, name ∈ wanted →
      Sketch.decorator? name (decoratorsWritten order wanted ds)
        = (Sketch.decorator? name ds).map (Expr.written order) := by
  induction ds with
  | nil => intro wanted hname; rfl
  | cons d rest ih =>
    intro wanted hname
    obtain ⟨span, declared, value⟩ := d
    rw [decoratorsWritten, Sketch.decorator?]
    cases hwanted : wanted.contains declared with
    | false =>
      have hne : (declared == name) = false := by
        rw [beq_eq_false_iff_ne]
        intro heq
        rw [heq, contains_iff_mem.mpr hname] at hwanted
        cases hwanted
      rw [if_neg Bool.false_ne_true, Sketch.decorator?, hne, if_neg Bool.false_ne_true,
        if_neg Bool.false_ne_true]
      exact ih wanted hname
    | true =>
      rw [if_pos rfl, Sketch.decorator?]
      cases hdeclared : declared == name with
      | true => rfl
      | false =>
        rw [if_neg Bool.false_ne_true, if_neg Bool.false_ne_true]
        have hne : name ≠ declared := fun heq => beq_eq_false_iff_ne.mp hdeclared heq.symm
        exact ih _ ((mem_erase_of_ne hne).mpr hname)

/-- The decorators of a declaration of the task of a name. -/
def Stmt.decoratorsOf? (name : String) : Stmt → Option (List Decorator)
  | .taskDecl _ declared decorators _ => if declared == name then some decorators else none
  | _ => none

theorem taskDecorators_eq (p : Program) (name : String) :
    Sketch.taskDecorators p name
      = (p.declarations.reverse.findSome? (Stmt.decoratorsOf? name)).getD [] := by
  unfold Sketch.taskDecorators
  congr 2

theorem any_isTaskNamed_eq_false (name : String) (ds : List Stmt)
    (h : ds.reverse.findSome? (Stmt.decoratorsOf? name) = none) :
    ds.any (·.isTaskNamed name) = false := by
  rw [findSome?_eq_none_iff] at h
  rw [any_eq_false]
  intro d hd hnamed
  have hnone := h d (mem_reverse.mpr hd)
  cases d with
  | taskDecl _ declared _ _ =>
    have hdeclared : (declared == name) = true := hnamed
    rw [Stmt.decoratorsOf?, if_pos hdeclared] at hnone
    cases hnone
  | _ => cases hnamed

theorem decoratorsOf?_declsWritten (name : String)
    (ds : List Stmt) :
    (declsWritten order ds).reverse.findSome? (Stmt.decoratorsOf? name)
      = (ds.reverse.findSome? (Stmt.decoratorsOf? name)).map
        (decoratorsWritten order ["core", "rate"]) := by
  induction ds with
  | nil => rfl
  | cons d later ih =>
    rw [declsWritten, findSome?_reverse_cons, findSome?_reverse_cons, ih]
    cases hlater : later.reverse.findSome? (Stmt.decoratorsOf? name) with
    | some decorators => rfl
    | none =>
      rw [Option.map_none, Option.none_or, Option.none_or]
      cases d with
      | taskDecl span declared decorators body =>
        rw [declWritten, Stmt.decoratorsOf?, Stmt.decoratorsOf?]
        cases hdeclared : declared == name with
        | false => rfl
        | true =>
          -- no later task has the name, so the core is this one's too
          rw [beq_iff_eq.mp hdeclared, wantedDecorators,
            any_isTaskNamed_eq_false name later hlater]
          rfl
      | _ => rfl

theorem core_written (p : Program) (name : String) :
    Sketch.decorator? "core" (Sketch.taskDecorators p.written name)
      = (Sketch.decorator? "core" (Sketch.taskDecorators p name)).map
        (Expr.written (Sketch.fieldOrder p)) := by
  rw [taskDecorators_eq, taskDecorators_eq, Program.written, decoratorsOf?_declsWritten]
  cases p.declarations.reverse.findSome? (Stmt.decoratorsOf? name) with
  | none => rfl
  | some decorators => exact decorator?_written _ _ _ _ (by simp)

-- ==== the code of both programs

@[simp] theorem context_fieldOrder (backend : Backend) (p : Program) (bound : Nat) :
    (Sketch.context backend p bound).fieldOrder = Sketch.fieldOrder p := by
  cases bound <;> rfl

@[simp] theorem context_backend (backend : Backend) (p : Program) (bound : Nat) :
    (Sketch.context backend p bound).backend = backend := by
  cases bound <;> rfl

theorem context_written (p : Program) (bound : Nat) :
    Sketch.context .esp32 p.written bound = Sketch.context .esp32 p bound := by
  induction bound with
  | zero => rw [Sketch.context, Sketch.context, fieldOrder_written]
  | succ bound ih =>
    rw [Sketch.context, Sketch.context, fieldOrder_written, ih]
    congr 1
    funext name
    rw [core_written]
    cases Sketch.decorator? "core" (Sketch.taskDecorators p name) with
    | none => rfl
    | some value =>
      have hvalue := expr_written (context_backend .esp32 p bound) value
      rw [context_fieldOrder] at hvalue
      exact hvalue

variable {cx : EmitContext}

theorem taskRate_written (hb : cx.backend = .esp32) (name : String) (later : List Stmt)
    (decorators : List Decorator) :
    Sketch.taskRate cx (decoratorsWritten cx.fieldOrder (wantedDecorators name later) decorators)
      = Sketch.taskRate cx decorators := by
  have hwanted : "rate" ∈ wantedDecorators name later := by
    unfold wantedDecorators
    split <;> simp
  rw [Sketch.taskRate.eq_def, Sketch.taskRate.eq_def,
    decorator?_written cx.fieldOrder "rate" decorators _ hwanted]
  cases Sketch.decorator? "rate" decorators with
  | none => rfl
  | some value =>
    have hvalue := expr_written hb value
    cases value with
    | literal => rfl
    | _ => exact hvalue

theorem isDefinition_written (d : Stmt) :
    (d.written order).isDefinition = d.isDefinition := by
  cases d <;> rfl

theorem declWritten_statement (later : List Stmt) (d : Stmt)
    (h : d.isDefinition = false) : declWritten order later d = d.written order := by
  cases d with
  | structDecl | taskDecl | busDecl | functionDecl | loopDecl | varDecl => cases h
  | _ => rfl

theorem ofDecl_statement (d : Stmt) (h : d.isDefinition = false) :
    Sketch.ofDecl cx d = do return { setup := ← Emit.stmt cx d } := by
  cases d with
  | structDecl | taskDecl | busDecl | functionDecl | loopDecl | varDecl => cases h
  | _ => rfl

theorem ofDecl_written (hb : cx.backend = .esp32) (later : List Stmt) (d : Stmt) :
    Sketch.ofDecl cx (declWritten cx.fieldOrder later d) = Sketch.ofDecl cx d := by
  cases hd : d.isDefinition with
  | false =>
    rw [declWritten_statement _ _ _ hd, ofDecl_statement _ (by rw [isDefinition_written, hd]),
      ofDecl_statement _ hd, stmt_written hb]
  | true =>
    cases d with
    | structDecl => rfl
    | taskDecl span name decorators body =>
      cases body with
      | none =>
        simp only [declWritten, blockWritten?, Sketch.ofDecl, Sketch.taskFunction,
          taskRate_written hb]
      | some body =>
        simp only [declWritten, blockWritten?, Sketch.ofDecl, Sketch.taskFunction,
          taskRate_written hb, block_written hb body]
    | busDecl span busType name sda scl freq devices =>
      cases hbus : Text.upper busType == "I2C" with
      | true =>
        simp only [declWritten, Expr.writtenFor, Sketch.ofDecl, hbus, expr_written hb sda,
          expr_written hb scl, expr_written hb freq, if_true]
      | false => simp only [declWritten, Sketch.ofDecl, hbus, Bool.false_eq_true, if_false]
    | functionDecl span name params returnType body =>
      simp only [declWritten, Sketch.ofDecl, Sketch.function, block_written hb body]
    | loopDecl span body => simp only [declWritten, Sketch.ofDecl, block_written hb body]
    | varDecl span name typeName initializer =>
      simp only [declWritten, Stmt.written, Sketch.ofDecl, initializer_written hb initializer]
    | _ => cases hd

theorem ofDecls_written (hb : cx.backend = .esp32) (ds : List Stmt) :
    Sketch.ofDecls cx (declsWritten cx.fieldOrder ds) = Sketch.ofDecls cx ds := by
  induction ds with
  | nil => rfl
  | cons d later ih =>
    rw [declsWritten, Sketch.ofDecls, Sketch.ofDecls, ofDecl_written hb, ih]

theorem flatMap_declsWritten (f : Stmt → List Line) (order : String → List String)
    (h : ∀ later d, f (declWritten order later d) = f d) (ds : List Stmt) :
    (declsWritten order ds).flatMap f = ds.flatMap f := by
  induction ds with
  | nil => rfl
  | cons d later ih => rw [declsWritten, flatMap_cons, flatMap_cons, ih, h]

theorem structTypes_written (ds : List Stmt) :
    (declsWritten order ds).flatMap Sketch.structType = ds.flatMap Sketch.structType := by
  apply flatMap_declsWritten
  intro later d
  cases d <;> rfl

theorem taskPrototypes_written (ds : List Stmt) :
    (declsWritten order ds).flatMap Sketch.taskPrototype = ds.flatMap Sketch.taskPrototype := by
  apply flatMap_declsWritten
  intro later d
  cases d <;> rfl

theorem length_declsWritten (ds : List Stmt) :
    (declsWritten order ds).length = ds.length := by
  induction ds with
  | nil => rfl
  | cons d later ih => rw [declsWritten, length_cons, length_cons, ih]

theorem exists_compose_opening (globals : List Line) (sections : Sketch.Sections) :
    ∃ rest : List Line, ∀ opening : List Line, opening ≠ [] →
      Sketch.compose ({ globals := opening ++ globals } ++ sections) = opening ++ rest := by
  refine ⟨globals ++ sections.globals
    ++ (⟨"", none⟩ :: sections.functions.flatMap (· ++ [⟨"", none⟩])
    ++ [⟨"void setup() \x7b", none⟩] ++ Sketch.bodyOr "// setup" sections.setup
    ++ [⟨"\x7d", none⟩, ⟨"", none⟩] ++ [⟨"void loop() \x7b", none⟩]
    ++ Sketch.bodyOr "// loop" sections.loop ++ [⟨"\x7d", none⟩]), ?_⟩
  intro opening hopening
  have hsections : ({ globals := opening ++ globals } ++ sections : Sketch.Sections)
      = { globals := opening ++ globals ++ sections.globals, functions := sections.functions
          setup := sections.setup, loop := sections.loop } := rfl
  have hempty : (opening ++ globals ++ sections.globals).isEmpty = false := by
    rw [isEmpty_eq_false_iff]
    intro hnil
    exact hopening (append_eq_nil_iff.mp (append_eq_nil_iff.mp hnil).1).1
  rw [hsections, Sketch.compose, hempty]
  simp only [append_assoc, Bool.false_eq_true, if_false, cons_append, nil_append]

theorem opening_ne_nil (backend : Backend) (h : Headers) : Sketch.opening backend h ≠ [] := by
  rw [Sketch.opening, Sketch.includes]
  simp

/-- The types of a program's structs and the prototypes of its tasks. -/
def Program.preamble (p : Program) : List Line :=
  p.declarations.flatMap Sketch.structType ++ (p.declarations.flatMap Sketch.taskPrototype
    ++ if (p.declarations.flatMap Sketch.taskPrototype).isEmpty then [] else [⟨"", none⟩])

theorem preamble_written (p : Program) : p.written.preamble = p.preamble := by
  unfold Program.preamble
  rw [Program.written, structTypes_written, taskPrototypes_written]

theorem sketch_eq (backend : Backend) (p : Program) :
    p.sketch backend = do
      let sections ← Sketch.ofDecls (Sketch.context backend p (p.declarations.length + 1))
        p.declarations
      let opening := Sketch.opening backend (Headers.ofProgram p)
      return ⟨Sketch.compose ({ globals := opening ++ p.preamble } ++ sections),
        .ofProgram p⟩ := by
  rw [Program.sketch, Program.preamble]
  simp only [append_assoc]

theorem ofDecls_program_written (p : Program) :
    Sketch.ofDecls (Sketch.context .esp32 p.written (p.written.declarations.length + 1))
        p.written.declarations
      = Sketch.ofDecls (Sketch.context .esp32 p (p.declarations.length + 1)) p.declarations := by
  have heq := ofDecls_written (context_backend .esp32 p (p.declarations.length + 1)) p.declarations
  rw [context_fieldOrder] at heq
  rw [context_written, Program.written, length_declsWritten, heq]

/-- A program and its written form have one sketch behind the opening. -/
theorem Program.sketch_written {p : Program} {sk : Sketch} (h : p.sketch .esp32 = .ok sk) :
    ∃ rest sk', sk.lines = Sketch.opening .esp32 sk.headers ++ rest
      ∧ p.written.sketch .esp32 = .ok sk'
      ∧ sk'.lines = Sketch.opening .esp32 sk'.headers ++ rest := by
  rw [sketch_eq, bind_eq_ok] at h
  obtain ⟨sections, hsections, hsk⟩ := h
  obtain ⟨rest, hrest⟩ := exists_compose_opening p.preamble sections
  have hwritten : p.written.sketch .esp32 = .ok
      ⟨Sketch.compose
        ({ globals := Sketch.opening .esp32 (Headers.ofProgram p.written) ++ p.preamble }
          ++ sections),
        .ofProgram p.written⟩ := by
    rw [sketch_eq, ofDecls_program_written, preamble_written, hsections]
    rfl
  refine ⟨rest, _, ?_, hwritten, hrest _ (opening_ne_nil _ _)⟩
  rw [← pure_eq_ok.mp hsk]
  exact hrest _ (opening_ne_nil _ _)

end SketchCompiler
