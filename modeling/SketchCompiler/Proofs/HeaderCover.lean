/-
Libraries that the generated code needs are included.

`reached` lists the statements that generation can come to inside a
definition of the top level.  A declaration that stands in a block has no
code of its own, so nothing inside it is reached.  This is as much for
every family of code; some families skip a little of it.

Every statement that is reached has its libraries among the headers of
the program (`Program.headers_cover`).  The headers are collected from
definitions alone.  Statements of the top level, which the code runs in
`setup`, and the decorators of a task are not asked, so what they need is
missing unless a definition needs it too (`Program.headers_missed`).
-/
import SketchCompiler.Proofs.WrittenProgram
import SketchCompiler.Analysis
import SketchCompiler.Program.OfTokens

namespace SketchCompiler

open List Sketch

-- ==== what generation looks at

mutual

/-- The statements that generation can come to inside an expression. -/
def Expr.reached : Expr → List Stmt
  | .literal .. | .ident .. => []
  | .unary _ _ operand => operand.reached
  | .postfixed _ operand _ => operand.reached
  | .binary _ left _ right => left.reached ++ right.reached
  | .bitwise _ left _ right => left.reached ++ right.reached
  | .assign _ target _ value => target.reached ++ value.reached
  | .cast _ operand _ => operand.reached
  | .call _ callee args => callee.reached ++ exprsReached args
  | .structInit _ _ fields => fieldsReached fields
  | .member _ object _ => object.reached
  | .ifElse _ condition thenBlock thenValue elseBlock elseValue =>
    condition.reached ++ thenBlock.reached ++ thenValue.reached ++ elseBlock.reached
      ++ elseValue.reached

def exprReached? : Option Expr → List Stmt
  | none => []
  | some e => e.reached

def exprsReached : List Expr → List Stmt
  | [] => []
  | e :: es => e.reached ++ exprsReached es

def fieldsReached : List FieldInit → List Stmt
  | [] => []
  | .mk _ value :: fields => value.reached ++ fieldsReached fields

def Block.reached : Block → List Stmt
  | .mk _ statements => stmtsReached statements

def blockReached? : Option Block → List Stmt
  | none => []
  | some body => body.reached

def stmtsReached : List Stmt → List Stmt
  | [] => []
  | s :: rest => s :: (s.reached ++ stmtsReached rest)

def clauseReached? : Option Stmt → List Stmt
  | none => []
  | some s => s :: s.reached

def armsReached : List MatchArm → List Stmt
  | [] => []
  | .mk _ pattern _ body :: arms => exprReached? pattern ++ body.reached ++ armsReached arms

/-- The statements that generation can come to inside one in a block; it
does not look into declarations there. -/
def Stmt.reached : Stmt → List Stmt
  | .importDecl .. | .structDecl .. | .taskDecl .. | .busDecl .. | .functionDecl ..
  | .loopDecl .. =>
    []
  | .spawn .. | .raw .. => []
  | .varDecl _ _ _ initializer _ _ _ => exprReached? initializer
  | .block body => body.reached
  | .ifElse _ condition thenBranch elseBranch =>
    condition.reached ++ thenBranch.reached ++ blockReached? elseBranch
  | .whileLoop _ condition body => condition.reached ++ body.reached
  | .forLoop _ init condition update body =>
    clauseReached? init ++ exprReached? condition ++ exprReached? update ++ body.reached
  | .returnValue _ value => exprReached? value
  | .expr _ e => e.reached
  | .matchValue _ value arms => value.reached ++ armsReached arms
  | .gpioMode _ pin _ => pin.reached
  | .digitalWrite _ pin value => pin.reached ++ value.reached
  | .pwmWrite _ pin duty channel => pin.reached ++ duty.reached ++ exprReached? channel
  | .rgbWrite _ pin red green blue =>
    pin.reached ++ red.reached ++ green.reached ++ blue.reached
  | .delay _ time => time.reached
  | .wifiConnect _ ssid password => ssid.reached ++ password.reached

end

/-- The statements that generation can come to inside a definition of the
top level, the decorators of a task apart. -/
def declReached : Stmt → List Stmt
  | .taskDecl _ _ _ body => blockReached? body
  | .busDecl _ _ _ sda scl freq _ => sda.reached ++ scl.reached ++ freq.reached
  | .functionDecl _ _ _ _ body => body.reached
  | .loopDecl _ body => body.reached
  | .varDecl _ _ _ initializer _ _ _ => exprReached? initializer
  | _ => []

-- ==== what it includes

/-- The libraries that a statement needs by itself. -/
def Stmt.libraries : Stmt → List String
  | .wifiConnect .. => ["WiFi.h"]
  | .raw _ code => (Headers.ofRaw code).names
  | _ => []

/-- A library is included by the lines that open the code. -/
def Sketch.Includes (sk : Sketch) (backend : Backend) (library : String) : Prop :=
  ⟨"#include <" ++ library ++ ">", none⟩ ∈ opening backend sk.headers

theorem Headers.mem_names {h : Headers} {name : String} :
    name ∈ h.names ↔ (h.webServer = true ∧ name = "WebServer.h")
      ∨ (h.wifi = true ∧ name = "WiFi.h")
      ∨ (h.wire = true ∧ name = "Wire.h") ∨ (h.digest = true ∧ name = "mbedtls/md.h") := by
  unfold Headers.names
  cases h.webServer <;> cases h.wifi <;> cases h.wire <;> cases h.digest <;> simp

theorem includes_of_mem_names {h : Headers} {name : String} (hname : name ∈ h.names) :
    "#include <" ++ name ++ ">" ∈ includes h := by
  unfold includes
  rcases Headers.mem_names.mp hname with ⟨hh, rfl⟩ | ⟨hh, rfl⟩ | ⟨hh, rfl⟩ | ⟨hh, rfl⟩ <;>
    simp [hh]

theorem Headers.mem_names_append {a b : Headers} {name : String} :
    name ∈ (a ++ b).names ↔ name ∈ a.names ∨ name ∈ b.names := by
  have happend : (a ++ b).names = (a.union b).names := rfl
  rw [happend, mem_names, mem_names, mem_names]
  simp only [union, Bool.or_eq_true]
  grind

/-- All headers of the one are among those of the other. -/
def Headers.Within (a b : Headers) : Prop :=
  ∀ name ∈ a.names, name ∈ b.names

namespace Headers.Within

variable {a b c : Headers}

theorem refl (a : Headers) : a.Within a := fun _ hname => hname

theorem left (h : a.Within b) : a.Within (b ++ c) :=
  fun name hname => mem_names_append.mpr (.inl (h name hname))

theorem right (h : a.Within c) : a.Within (b ++ c) :=
  fun name hname => mem_names_append.mpr (.inr (h name hname))

end Headers.Within

/-- What each of the statements needs is among the headers. -/
def Headers.Cover (h : Headers) (ss : List Stmt) : Prop :=
  ∀ s ∈ ss, (ofStmt s).Within h

namespace Headers.Cover

variable {a b : Headers} {ss ts : List Stmt}

theorem nil : a.Cover [] := forall_mem_nil _

theorem append (ha : a.Cover ss) (hb : b.Cover ts) : (a ++ b).Cover (ss ++ ts) := by
  intro s hs
  rcases mem_append.mp hs with hs | hs
  · exact (ha s hs).left
  · exact (hb s hs).right

/-- Headers of a statement, if they cover what is inside it, cover the
statement too. -/
theorem cons (h : (ofStmt s).Cover ss) : (ofStmt s).Cover (s :: ss) :=
  forall_mem_cons.mpr ⟨.refl _, h⟩

theorem right (h : b.Cover ss) (a : Headers) : (a ++ b).Cover ss := fun s hs => (h s hs).right

end Headers.Cover

-- ==== headers of what is reached

open Headers in
mutual

theorem ofExpr_cover : ∀ e : Expr, (ofExpr e).Cover e.reached
  | .literal .. => .nil
  | .ident .. => .nil
  | .unary _ _ operand => ofExpr_cover operand
  | .postfixed _ operand _ => ofExpr_cover operand
  | .binary _ left _ right | .bitwise _ left _ right
  | .assign _ left _ right => (ofExpr_cover left).append (ofExpr_cover right)
  | .cast _ operand _ => ofExpr_cover operand
  | .call _ callee args => (ofExpr_cover callee).append (ofExprs_cover args)
  | .structInit _ _ fields => ofFields_cover fields
  | .member _ object _ => ofExpr_cover object
  | .ifElse _ condition thenBlock thenValue elseBlock elseValue =>
    ((((ofExpr_cover condition).append (ofBlock_cover thenBlock)).append
      (ofExpr_cover thenValue)).append (ofBlock_cover elseBlock)).append (ofExpr_cover elseValue)

theorem ofExpr?_cover : ∀ e? : Option Expr, (ofExpr? e?).Cover (exprReached? e?)
  | none => .nil
  | some e => ofExpr_cover e

theorem ofExprs_cover : ∀ es : List Expr, (ofExprs es).Cover (exprsReached es)
  | [] => .nil
  | e :: es => (ofExpr_cover e).append (ofExprs_cover es)

theorem ofFields_cover : ∀ fields : List FieldInit, (ofFields fields).Cover (fieldsReached fields)
  | [] => .nil
  | .mk _ value :: fields => (ofExpr_cover value).append (ofFields_cover fields)

theorem ofBlock_cover : ∀ b : Block, (ofBlock b).Cover b.reached
  | .mk _ statements => ofStmts_cover statements

theorem ofStmts_cover : ∀ ss : List Stmt, (ofStmts ss).Cover (stmtsReached ss)
  | [] => .nil
  | s :: rest => (ofStmt_cover s).cons.append (ofStmts_cover rest)

theorem ofArms_cover : ∀ arms : List MatchArm, (ofArms arms).Cover (armsReached arms)
  | [] => .nil
  | .mk _ pattern _ body :: arms =>
    ((ofExpr?_cover pattern).append (ofBlock_cover body)).append (ofArms_cover arms)

theorem ofStmt_cover : ∀ s : Stmt, (ofStmt s).Cover s.reached
  | .importDecl .. | .structDecl .. | .taskDecl .. | .busDecl .. | .functionDecl ..
  | .loopDecl .. =>
    .nil
  | .spawn .. | .raw .. => .nil
  | .varDecl _ _ _ initializer _ _ _ => ofExpr?_cover initializer
  | .block body => ofBlock_cover body
  | .ifElse _ condition thenBranch none =>
    ((ofExpr_cover condition).append (ofBlock_cover thenBranch)).append .nil
  | .ifElse _ condition thenBranch (some body) =>
    ((ofExpr_cover condition).append (ofBlock_cover thenBranch)).append (ofBlock_cover body)
  | .whileLoop _ condition body => (ofExpr_cover condition).append (ofBlock_cover body)
  | .forLoop _ none condition update body =>
    ((Cover.nil.append (ofExpr?_cover condition)).append (ofExpr?_cover update)).append
      (ofBlock_cover body)
  | .forLoop _ (some init) condition update body =>
    (((ofStmt_cover init).cons.append (ofExpr?_cover condition)).append
      (ofExpr?_cover update)).append (ofBlock_cover body)
  | .returnValue _ value => ofExpr?_cover value
  | .expr _ e => ofExpr_cover e
  | .matchValue _ value arms => (ofExpr_cover value).append (ofArms_cover arms)
  | .gpioMode _ pin _ => ofExpr_cover pin
  | .digitalWrite _ pin value => (ofExpr_cover pin).append (ofExpr_cover value)
  | .pwmWrite _ pin duty channel =>
    ((ofExpr_cover pin).append (ofExpr_cover duty)).append (ofExpr?_cover channel)
  | .rgbWrite _ pin red green blue =>
    (((ofExpr_cover pin).append (ofExpr_cover red)).append (ofExpr_cover green)).append
      (ofExpr_cover blue)
  | .delay _ time => ofExpr_cover time
  | .wifiConnect _ ssid password =>
    -- the library of the statement itself stands in front
    ((Cover.nil.append (ofExpr_cover ssid)).append (ofExpr_cover password))

end

theorem ofDecl_cover (d : Stmt) : (Headers.ofDecl d).Cover (declReached d) := by
  cases d with
  | taskDecl _ _ _ body =>
    cases body with
    | none => exact .nil
    | some body => exact (ofBlock_cover body).right _
  | busDecl _ _ _ sda scl freq _ =>
    exact ((Headers.Cover.nil.append (ofExpr_cover sda)).append (ofExpr_cover scl)).append
      (ofExpr_cover freq)
  | functionDecl _ _ _ _ body => exact (ofBlock_cover body).right _
  | loopDecl _ body => exact ofBlock_cover body
  | varDecl _ _ _ initializer _ _ _ => exact ofExpr?_cover initializer
  | _ => exact .nil

theorem libraries_mem_ofStmt (h : name ∈ s.libraries) : name ∈ (Headers.ofStmt s).names := by
  cases s with
  | wifiConnect _ ssid password =>
    have hwifi : ({ wifi := true } : Headers).Within
        ({ wifi := true } ++ .ofExpr ssid ++ .ofExpr password) :=
      .left (.left (.refl _))
    exact hwifi name h
  | raw => exact h
  | _ => cases h

-- ==== whole programs

theorem ofDecl_within (hd : d ∈ p.declarations) :
    (Headers.ofDecl d).Within (Headers.ofProgram p) := by
  obtain ⟨span, ds⟩ := p
  induction ds with
  | nil => cases hd
  | cons first rest ih =>
    rcases mem_cons.mp hd with rfl | hd
    · exact .left (.refl _)
    · exact (ih hd).right

/-- A task without its decorators; every other declaration as it is. -/
def Stmt.undecorated : Stmt → Stmt
  | .taskDecl span name _ body => .taskDecl span name [] body
  | d => d

/-- The definitions of a program, without the decorators of tasks. -/
def Program.definitions (p : Program) : Program :=
  { p with declarations := (p.declarations.filter (·.isDefinition)).map Stmt.undecorated }

theorem ofProgram_definitions (p : Program) : .ofProgram p.definitions = Headers.ofProgram p := by
  unfold Headers.ofProgram Program.definitions
  induction p.declarations with
  | nil => rfl
  | cons d rest ih =>
    cases hd : d.isDefinition with
    | true =>
      have hsame : Headers.ofDecl d.undecorated = Headers.ofDecl d := by
        cases d <;> rfl
      rw [filter_cons_of_pos hd, map_cons, foldr_cons, foldr_cons, hsame, ih]
    | false =>
      have hnone : Headers.ofDecl d = {} := by
        cases d with
        | structDecl | taskDecl | busDecl | functionDecl | loopDecl | varDecl => cases hd
        | _ => rfl
      have hempty (h : Headers) : ({} : Headers) ++ h = h := by
        change .union {} h = h
        unfold Headers.union
        simp
      rw [filter_cons_of_neg (by rw [hd]; exact Bool.false_ne_true), foldr_cons, hnone, hempty, ih]

/-- A bus of the top level that the code starts. -/
def Stmt.isWireBus : Stmt → Bool
  | .busDecl _ busType .. => Text.upper busType == "I2C"
  | _ => false

/-- The generated code opens with the libraries of all that is reached in
the definitions of the program, and of its I2C buses.  It is these
definitions alone, without decorators, that the headers depend on. -/
theorem Program.headers_cover {p : Program} {backend : Backend} {sk : Sketch}
    (h : p.sketch backend = .ok sk) :
    (∃ rest, sk.lines = opening backend sk.headers ++ rest)
      ∧ (∀ d ∈ p.declarations, ∀ s ∈ declReached d, ∀ library ∈ s.libraries,
        sk.Includes backend library)
      ∧ (∀ d ∈ p.declarations, d.isWireBus = true → sk.Includes backend "Wire.h")
      ∧ sk.headers = Headers.ofProgram p.definitions := by
  rw [sketch_eq, bind_eq_ok] at h
  obtain ⟨sections, -, hsk⟩ := h
  obtain rfl := pure_eq_ok.mp hsk
  have hincludes {d : Stmt} (hd : d ∈ p.declarations) {library : String}
      (hlibrary : library ∈ (Headers.ofDecl d).names) :
      ⟨"#include <" ++ library ++ ">", none⟩ ∈ opening backend (Headers.ofProgram p) := by
    have hmem := includes_of_mem_names (ofDecl_within hd library hlibrary)
    exact List.mem_map_of_mem (List.mem_append_left _ hmem)
  refine ⟨?_, ?_, ?_, (ofProgram_definitions p).symm⟩
  · obtain ⟨rest, hrest⟩ := exists_compose_opening p.preamble sections
    exact ⟨rest, hrest _ (opening_ne_nil _ _)⟩
  · intro d hd s hs library hlibrary
    exact hincludes hd (ofDecl_cover d s hs library (libraries_mem_ofStmt hlibrary))
  · intro d hd hbus
    cases d with
    | busDecl span busType name sda scl freq devices =>
      have hwithin : ({ wire := Text.upper busType == "I2C" } : Headers).Within
          (.ofDecl (.busDecl span busType name sda scl freq devices)) :=
        .left (.left (.left (.refl _)))
      exact hincludes hd (hwithin _ (Headers.mem_names.mpr (.inr (.inr (.inl ⟨hbus, rfl⟩)))))
    | _ => cases hbus

/-- Raw code and a connection in the branches of a value. -/
def connectsInValue : String :=
  "let online = if (true) \x7b wifiConnect(\"a\", \"b\"); 1 \x7d"
    ++ " else \x7b unsafe \x7b Wire.end(); \x7d 0 \x7d;"

/-- A source has code for any board, and both libraries are needed in the
definitions of its program. -/
def needsBoth (source first second : String) : Bool :=
  match Program.ofSource "sketch" source with
  | .error _ => false
  | .ok src =>
    (src.program.sketch .generic).isOk && src.program.declarations.any fun d =>
      (declReached d).any (·.libraries.contains first)
        && (declReached d).any (·.libraries.contains second)

/-- The libraries of both branches are included. -/
theorem Program.headers_cover_branches :
    ∃ src sk, Program.ofSource "sketch" connectsInValue = .ok src
      ∧ src.program.sketch .generic = .ok sk ∧ sk.Includes .generic "WiFi.h"
      ∧ sk.Includes .generic "Wire.h" := by
  have hneeds : needsBoth connectsInValue "WiFi.h" "Wire.h" = true := by
    decide +kernel
  unfold needsBoth at hneeds
  split at hneeds
  · cases hneeds
  · rename_i src hsrc
    simp only [Bool.and_eq_true, List.any_eq_true, List.contains_iff_mem] at hneeds
    obtain ⟨hok, d, hd, ⟨s, hs, hwifi⟩, s', hs', hwire⟩ := hneeds
    cases hsk : src.program.sketch .generic with
    | error fault =>
      rw [hsk] at hok
      cases hok
    | ok sk =>
      obtain ⟨-, hcover, -⟩ := Program.headers_cover hsk
      exact ⟨src, sk, hsrc, hsk, hcover d hd s hs _ hwifi, hcover d hd s' hs' _ hwire⟩

/-- A source is read and analysed without a finding, its code for the
ESP32 has the line, and the library is not included. -/
def missesLibrary (source line library : String) : Bool :=
  match Program.ofSource "sketch" source with
  | .error _ => false
  | .ok src =>
    src.scanErrors.isEmpty && src.parseErrors.isEmpty
      && (src.program.analyze "esp32").issues.isEmpty
      && match src.program.sketch .esp32 with
        | .error _ => false
        | .ok sk => sk.lines.any (·.text == line)
          && !(sk.lines.any (·.text == "#include <" ++ library ++ ">"))

/-- A connection that the board makes when it starts comes without its
library, and so does one in the rate of a task. -/
theorem Program.headers_missed :
    missesLibrary "wifiConnect(\"a\", \"b\");" "  WiFi.begin(\"a\", \"b\");" "WiFi.h" = true
      ∧ missesLibrary
        ("@rate(if (true) \x7b wifiConnect(\"a\", \"b\"); 5ms \x7d else \x7b 6ms \x7d)"
          ++ " task t() \x7b \x7d")
        ("    vTaskDelay(pdMS_TO_TICKS(([&]() \x7b if (true) \x7b WiFi.begin(\"a\", \"b\"); "
          ++ "while (WiFi.status() != WL_CONNECTED) \x7b vTaskDelay(pdMS_TO_TICKS(100)); \x7d "
          ++ "return 5; \x7d else \x7b return 6; \x7d \x7d)()));") "WiFi.h" = true := by
  constructor
  · decide +kernel
  · decide +kernel

end SketchCompiler
