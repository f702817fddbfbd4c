/-
Headers: which libraries the generated code has to include.  They are
inferred from the statements of a program, from the names it uses, and
from words in its raw code.  Names and raw code are looked at without
regard to letter case.
-/
import SketchCompiler.Program
import SketchCompiler.Text.Case
import SketchCompiler.Text.Search

namespace SketchCompiler

/-- The library headers that a program needs. -/
structure Headers where
  webServer : Bool := false
  wifi : Bool := false
  wire : Bool := false
  digest : Bool := false
  deriving DecidableEq, Repr

namespace Headers

/-- The headers of both. -/
def union (a b : Headers) : Headers :=
  { webServer := a.webServer || b.webServer, wifi := a.wifi || b.wifi,
    wire := a.wire || b.wire, digest := a.digest || b.digest }

instance : Append Headers := ⟨union⟩

/-- The file names of the headers, in alphabetical order. -/
def names (h : Headers) : List String :=
  (if h.webServer then ["WebServer.h"] else []) ++ (if h.wifi then ["WiFi.h"] else [])
    ++ (if h.wire then ["Wire.h"] else []) ++ if h.digest then ["mbedtls/md.h"] else []

/-- The name belongs to the digest library. -/
def isDigestName (name : String) : Bool :=
  Text.anyOccurs ["crypto", "sha256", "mbedtls"] (Text.lower name)

/-- The name belongs to the web server library. -/
def isWebName (name : String) : Bool :=
  Text.anyOccurs ["http", "web", "server"] (Text.lower name)

/-- The headers that a name suggests. -/
def ofName (name : String) : Headers :=
  { webServer := isWebName name, digest := isDigestName name }

/-- The headers that raw code suggests. -/
def ofRaw (code : String) : Headers :=
  let code := Text.lower code
  { webServer := Text.anyOccurs ["webserver", "handleclient", "server->on("] code
    wifi := Text.anyOccurs ["wifi", "wl_connected"] code
    wire := Text.anyOccurs ["wire"] code
    digest := Text.anyOccurs ["mbedtls"] code }

mutual

/-- The headers that an expression needs. -/
def ofExpr : Expr → Headers
  | .ident _ name => ofName name
  | .ifElse _ condition thenBlock thenValue elseBlock elseValue =>
    ofExpr condition ++ ofBlock thenBlock ++ ofExpr thenValue ++ ofBlock elseBlock
      ++ ofExpr elseValue
  | .member _ object _ => ofExpr object
  | .unary _ _ operand => ofExpr operand
  | .postfixed _ operand _ => ofExpr operand
  | .cast _ operand _ => ofExpr operand
  | .assign _ target _ value => ofExpr target ++ ofExpr value
  | .binary _ left _ right => ofExpr left ++ ofExpr right
  | .bitwise _ left _ right => ofExpr left ++ ofExpr right
  | .call _ callee args => ofExpr callee ++ ofExprs args
  | .structInit _ _ fields => ofFields fields
  | .literal .. => {}

/-- The headers that expressions need. -/
def ofExprs : List Expr → Headers
  | [] => {}
  | e :: es => ofExpr e ++ ofExprs es

/-- The headers that initializers need. -/
def ofFields : List FieldInit → Headers
  | [] => {}
  | .mk _ value :: fields => ofExpr value ++ ofFields fields

/-- The headers that an optional expression needs. -/
def ofExpr? : Option Expr → Headers
  | none => {}
  | some e => ofExpr e

/-- The headers that a block needs. -/
def ofBlock : Block → Headers
  | .mk _ statements => ofStmts statements

/-- The headers that statements need. -/
def ofStmts : List Stmt → Headers
  | [] => {}
  | s :: rest => ofStmt s ++ ofStmts rest

/-- The headers that the arms of a match need. -/
def ofArms : List MatchArm → Headers
  | [] => {}
  | .mk _ pattern _ body :: arms => ofExpr? pattern ++ ofBlock body ++ ofArms arms

/-- The headers that a statement inside a block needs. -/
def ofStmt : Stmt → Headers
  | .varDecl _ _ _ initializer _ _ _ => ofExpr? initializer
  | .expr _ expression => ofExpr expression
  | .returnValue _ value => ofExpr? value
  | .ifElse _ condition thenBranch elseBranch =>
    ofExpr condition ++ ofBlock thenBranch ++ match elseBranch with
      | none => {}
      | some body => ofBlock body
  | .matchValue _ value arms => ofExpr value ++ ofArms arms
  | .whileLoop _ condition body => ofExpr condition ++ ofBlock body
  | .forLoop _ init condition update body =>
    (match init with
      | none => {}
      | some init => ofStmt init)
      ++ ofExpr? condition ++ ofExpr? update ++ ofBlock body
  | .gpioMode _ pin _ => ofExpr pin
  | .digitalWrite _ pin value => ofExpr pin ++ ofExpr value
  | .pwmWrite _ pin duty channel => ofExpr pin ++ ofExpr duty ++ ofExpr? channel
  | .rgbWrite _ pin red green blue => ofExpr pin ++ ofExpr red ++ ofExpr green ++ ofExpr blue
  | .delay _ time => ofExpr time
  | .wifiConnect _ ssid password => { wifi := true } ++ ofExpr ssid ++ ofExpr password
  | .raw _ code => ofRaw code
  | .block body => ofBlock body
  | _ => {}

end

/-- The headers that a declaration of the program needs. -/
def ofDecl : Stmt → Headers
  | .taskDecl _ name _ body => ofName name ++ (body.map ofBlock).getD {}
  | .functionDecl _ name _ _ body => ofName name ++ ofBlock body
  | .loopDecl _ body => ofBlock body
  | .varDecl _ _ _ initializer _ _ _ => ofExpr? initializer
  | .busDecl _ busType _ sda scl freq _ =>
    { wire := Text.upper busType == "I2C" } ++ ofExpr sda ++ ofExpr scl ++ ofExpr freq
  | _ => {}

/-- The headers that a program needs. -/
def ofProgram (p : Program) : Headers :=
  p.declarations.foldr (fun d h => ofDecl d ++ h) {}

end Headers

end SketchCompiler
