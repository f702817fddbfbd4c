/-
Printing programs.  A tree is printed as words: every expression stands
in parentheses, an integer is written in base sixteen, a duration as its
amount and its unit, a variable with `let` behind its qualifiers and a
struct field without.  `Program.print` puts one blank between the words.
`bare` forgets the spans of a tree, which printing does not keep.

The words of an expression inside its parentheses are `Expr.core`; they
are what the recursion computes, and `Expr.words` puts the parentheses
around.  In the same way `Block.core` are the words between the braces,
since a value block holds its value in front of the closing one.
-/
import SketchCompiler.Proofs.Rescan
import SketchCompiler.Program.OfTokens

namespace SketchCompiler

-- ==== fixed words

/-- The operators and separators, and the kinds they stand for. -/
def operators : List (String × Kind) :=
  [("->", .arrow), ("=>", .fatArrow), ("==", .equal), ("!=", .notEqual), ("<=", .lessEqual),
   (">=", .greaterEqual), ("&&", .andAnd), ("||", .orOr), ("<<", .shiftLeft),
   (">>", .shiftRight), ("+=", .plusAssign), ("-=", .minusAssign), ("*=", .starAssign),
   ("/=", .slashAssign), ("++", .increment), ("--", .decrement), ("(", .lparen), (")", .rparen),
   ("\x7b", .lbrace), ("\x7d", .rbrace), (",", .comma), (".", .dot), (";", .semicolon),
   (":", .colon), ("@", .atSign), ("+", .plus), ("-", .minus), ("*", .star), ("/", .slash),
   ("%", .percent), ("&", .amp), ("|", .pipe), ("^", .caret), ("~", .tilde), ("!", .bang),
   ("=", .assign), ("<", .less), (">", .greater)]

/-- How a kind with one spelling only is spelled; the other kinds have no
text. -/
def Kind.text (k : Kind) : String :=
  (((keywords ++ operators).find? (·.2 = k)).map (·.1)).getD ""

/-- The word of a kind with one spelling only. -/
def Word.of (k : Kind) : Word :=
  ⟨k, k.text⟩

/-- The word of a name. -/
def Word.name (name : String) : Word :=
  ⟨.ident, name⟩

/-- A name or a reserved word, by its spelling. -/
def Word.ofText (text : String) : Word :=
  ⟨kindOfWord text, text⟩

/-- An operator, by its spelling. -/
def Word.operator (op : String) : Word :=
  ⟨((operators.find? (·.1 = op)).map (·.2)).getD .ident, op⟩

/-- Words in parentheses. -/
def inParens (ws : List Word) : List Word :=
  Word.of .lparen :: (ws ++ [Word.of .rparen])

/-- Words in braces. -/
def inBraces (ws : List Word) : List Word :=
  Word.of .lbrace :: (ws ++ [Word.of .rbrace])

/-- Words behind one of a kind that stands there only with them. -/
def behindWords (k : Kind) : Option (List Word) → List Word
  | some ws => Word.of k :: ws
  | none => []

/-- Lists of words with commas between them. -/
def commas (wss : List (List Word)) : List Word :=
  [⟨.comma, ","⟩].intercalate wss

theorem commas_singleton (ws : List Word) : commas [ws] = ws := by
  simp [commas]

theorem commas_cons_cons (ws ws' : List Word) (wss : List (List Word)) :
    commas (ws :: ws' :: wss) = ws ++ ⟨.comma, ","⟩ :: commas (ws' :: wss) := by
  simp [commas, List.intercalate]

-- ==== literals

/-- The word of a literal value. -/
def LiteralValue.word : LiteralValue → Word
  | int n => ⟨.int, "0x" ++ String.ofList (Nat.toDigits 16 n.toNat)⟩
  | float x => ⟨.float, toString x⟩
  | bool true => Word.of .kwTrue
  | bool false => Word.of .kwFalse
  | text s => ⟨.string, s⟩
  | duration n unit => ⟨.duration, String.ofList (Nat.toDigits 10 n.toNat) ++ unit⟩

-- ==== statements

/-- A property of a bus or a device. -/
def propertyWords (key : String) (value : List Word) : List Word :=
  Word.name key :: Word.of .colon :: (value ++ [Word.of .semicolon])

/-- A parameter of a function. -/
def Param.words (p : Param) : List Word :=
  [Word.name p.name, Word.of .colon, Word.name p.typeName]

/-- A field of a struct. -/
def StructField.words (f : StructField) : List Word :=
  [Word.name f.name, Word.of .colon, Word.name f.typeName, Word.of .semicolon]

/-- A variable declaration without its semicolon; the initializer is
given by its words. -/
def variableWords (name : String) (typeName : Option String) (initializer : Option (List Word))
    (isConst isVolatile : Bool) : List Word :=
  (if isConst then [Word.of .kwConst] else [])
    ++ ((if isVolatile then [Word.of .kwVolatile] else [])
    ++ Word.of .kwLet :: Word.name name
    :: (behindWords .colon (typeName.map fun t => [Word.name t])
      ++ behindWords .assign initializer))

/-- A hardware statement: its keyword and its arguments. -/
def hardwareWords (k : Kind) (args : List (List Word)) : List Word :=
  Word.of k :: (inParens (commas args) ++ [Word.of .semicolon])

/-- What is called: the keyword `analogRead`, or an expression given by
the words inside its parentheses. -/
def calleeWords (callee : Expr) (core : List Word) : List Word :=
  match callee with
  | .ident _ "analogRead" => [Word.of .kwAnalogRead]
  | _ => inParens core

mutual

/-- The words of an expression inside its parentheses. -/
@[simp] def Expr.core : Expr → List Word
  | .literal _ value _ => [value.word]
  | .ident _ name => [Word.name name]
  | .unary _ op e => Word.operator op :: inParens e.core
  | .postfixed _ e op => inParens e.core ++ [Word.operator op]
  | .binary _ l op r | .bitwise _ l op r | .assign _ l op r =>
    inParens l.core ++ Word.operator op :: inParens r.core
  | .cast _ e typeName => inParens e.core ++ [Word.of .kwAs, Word.name typeName]
  | .call _ callee args => calleeWords callee callee.core ++ inParens (commas (exprsWords args))
  | .structInit _ typeName fields => Word.name typeName :: inParens (commas (fieldsWords fields))
  | .member _ e name => inParens e.core ++ [Word.of .dot, Word.name name]
  | .ifElse _ condition thenBlock thenValue elseBlock elseValue =>
    Word.of .kwIf :: (inParens (inParens condition.core)
      ++ inBraces (thenBlock.core ++ inParens thenValue.core)
      ++ Word.of .kwElse :: inBraces (elseBlock.core ++ inParens elseValue.core))

def exprWords? : Option Expr → Option (List Word)
  | some e => some (inParens e.core)
  | none => none

def exprsWords : List Expr → List (List Word)
  | [] => []
  | e :: es => inParens e.core :: exprsWords es

/-- The words of a field of a struct initializer. -/
def FieldInit.words : FieldInit → List Word
  | .mk name value => Word.name name :: Word.of .colon :: inParens value.core

def fieldsWords : List FieldInit → List (List Word)
  | [] => []
  | f :: fs => f.words :: fieldsWords fs

def Block.core : Block → List Word
  | .mk _ statements => stmtsWords statements

def blockWords? : Option Block → Option (List Word)
  | some b => some (inBraces b.core)
  | none => none

def stmtsWords : List Stmt → List Word
  | [] => []
  | s :: ss => s.words ++ stmtsWords ss

/-- The words of an arm of a match statement. -/
def MatchArm.words : MatchArm → List Word
  | .mk _ pattern _ body =>
    (exprWords? pattern).getD [Word.name "_"] ++ Word.of .fatArrow :: inBraces body.core

def armsWords : List MatchArm → List Word
  | [] => []
  | arm :: arms => arm.words ++ armsWords arms

/-- The words of a decorator. -/
def Decorator.words : Decorator → List Word
  | .mk _ name value => Word.of .atSign :: Word.name name :: inParens (inParens value.core)

def decoratorsWords : List Decorator → List Word
  | [] => []
  | d :: ds => d.words ++ decoratorsWords ds

/-- The words of a device. -/
def Device.words : Device → List Word
  | .mk _ name address =>
    Word.of .kwDevice :: Word.name name
      :: inBraces (propertyWords "address" (inParens address.core))

def devicesWords : List Device → List Word
  | [] => []
  | d :: ds => d.words ++ devicesWords ds

/-- The words of a statement or declaration. -/
@[simp] def Stmt.words : Stmt → List Word
  | .importDecl _ path => [Word.of .kwImport, ⟨.string, path⟩, Word.of .semicolon]
  | .structDecl _ name fields =>
    Word.of .kwStruct :: Word.name name :: inBraces (fields.flatMap StructField.words)
  | .taskDecl _ name decorators body =>
    decoratorsWords decorators ++ Word.of .kwTask :: Word.name name :: Word.of .lparen
      :: Word.of .rparen :: (blockWords? body).getD []
  | .busDecl _ busType name sda scl freq devices =>
    Word.of .kwBus :: Word.ofText busType :: Word.name name
      :: inBraces (propertyWords "sda" (inParens sda.core)
        ++ (propertyWords "scl" (inParens scl.core)
        ++ (propertyWords "freq" (inParens freq.core) ++ devicesWords devices)))
  | .functionDecl _ name params returnType body =>
    Word.of .kwFn :: Word.name name :: (inParens (commas (params.map Param.words))
      ++ Word.of .arrow :: Word.name returnType :: inBraces body.core)
  | .loopDecl _ body => Word.of .kwLoop :: inBraces body.core
  | .varDecl _ name typeName initializer _ isConst isVolatile =>
    variableWords name typeName (exprWords? initializer) isConst isVolatile ++ [Word.of .semicolon]
  | .block body => inBraces body.core
  | .ifElse _ condition thenBranch elseBranch =>
    Word.of .kwIf :: (inParens (inParens condition.core) ++ (inBraces thenBranch.core
      ++ behindWords .kwElse (blockWords? elseBranch)))
  | .whileLoop _ condition body =>
    Word.of .kwWhile :: (inParens (inParens condition.core) ++ inBraces body.core)
  | .forLoop _ init condition update body =>
    Word.of .kwFor :: (inParens ((clauseWords? init).getD []
      ++ Word.of .semicolon :: ((exprWords? condition).getD []
      ++ Word.of .semicolon :: (exprWords? update).getD [])) ++ inBraces body.core)
  | .returnValue _ value =>
    Word.of .kwReturn :: ((exprWords? value).getD [] ++ [Word.of .semicolon])
  | .expr _ e => inParens e.core ++ [Word.of .semicolon]
  | .matchValue _ value arms =>
    Word.of .kwMatch :: (inParens (inParens value.core) ++ inBraces (armsWords arms))
  | .spawn _ taskName =>
    [Word.of .kwSpawn, Word.name taskName, Word.of .lparen, Word.of .rparen, Word.of .semicolon]
  | .gpioMode _ pin mode => hardwareWords .kwGpioMode [inParens pin.core, [Word.ofText mode]]
  | .digitalWrite _ pin value =>
    hardwareWords .kwDigitalWrite [inParens pin.core, inParens value.core]
  | .pwmWrite _ pin duty channel =>
    hardwareWords .kwPwmWrite
      (inParens pin.core :: inParens duty.core :: (exprWords? channel).toList)
  | .rgbWrite _ pin red green blue =>
    hardwareWords .kwRgbWrite
      [inParens pin.core, inParens red.core, inParens green.core, inParens blue.core]
  | .delay _ time => hardwareWords .kwDelay [inParens time.core]
  | .wifiConnect _ ssid password =>
    hardwareWords .kwWifiConnect [inParens ssid.core, inParens password.core]
  | .raw _ code => [unsafeWord, ⟨.rawBlock, code⟩]

/-- The words of a statement as the first clause of a `for` header. -/
def Stmt.clause : Stmt → List Word
  | .varDecl _ name typeName initializer _ isConst isVolatile =>
    variableWords name typeName (exprWords? initializer) isConst isVolatile
  | .expr _ e => inParens e.core
  | _ => []

def clauseWords? : Option Stmt → Option (List Word)
  | some s => some s.clause
  | none => none

end

/-- The words of an expression. -/
def Expr.words (e : Expr) : List Word :=
  inParens e.core

/-- The words of a program. -/
def Program.words (p : Program) : List Word :=
  stmtsWords p.declarations

/-- The text of a program. -/
def Program.print (p : Program) : String :=
  String.ofList (spellWords p.words)

-- ==== lists of trees and missing trees

theorem exprWords?_eq (e? : Option Expr) : exprWords? e? = e?.map Expr.words := by
  cases e? <;> rfl

theorem blockWords?_eq (b? : Option Block) : blockWords? b? = b?.map fun b => inBraces b.core := by
  cases b? <;> rfl

theorem exprsWords_eq (es : List Expr) : exprsWords es = es.map Expr.words := by
  induction es with
  | nil => rfl
  | cons e es ih => rw [exprsWords, ih]; rfl

theorem fieldsWords_eq (fs : List FieldInit) : fieldsWords fs = fs.map FieldInit.words := by
  induction fs with
  | nil => rfl
  | cons f fs ih => rw [fieldsWords, ih]; rfl

theorem stmtsWords_eq (ss : List Stmt) : stmtsWords ss = ss.flatMap Stmt.words := by
  induction ss with
  | nil => rfl
  | cons s ss ih => rw [stmtsWords, ih]; rfl

theorem armsWords_eq (arms : List MatchArm) : armsWords arms = arms.flatMap MatchArm.words := by
  induction arms with
  | nil => rfl
  | cons arm arms ih => rw [armsWords, ih]; rfl

-- ==== spans

/-- The span that stands for none. -/
def noSpan : Span :=
  { file := "" }

/-- A parameter without its span. -/
def Param.bare (p : Param) : Param :=
  { p with span := noSpan }

/-- A field without its span. -/
def StructField.bare (f : StructField) : StructField :=
  { f with span := noSpan }

mutual

/-- An expression without its spans. -/
@[simp] def Expr.bare : Expr → Expr
  | .literal _ value typeName => .literal noSpan value typeName
  | .ident _ name => .ident noSpan name
  | .unary _ op e => .unary noSpan op e.bare
  | .postfixed _ e op => .postfixed noSpan e.bare op
  | .binary _ l op r => .binary noSpan l.bare op r.bare
  | .bitwise _ l op r => .bitwise noSpan l.bare op r.bare
  | .assign _ l op r => .assign noSpan l.bare op r.bare
  | .cast _ e typeName => .cast noSpan e.bare typeName
  | .call _ callee args => .call noSpan callee.bare (exprsBare args)
  | .structInit _ typeName fields => .structInit noSpan typeName (fieldsBare fields)
  | .member _ e name => .member noSpan e.bare name
  | .ifElse _ condition thenBlock thenValue elseBlock elseValue =>
    .ifElse noSpan condition.bare thenBlock.bare thenValue.bare elseBlock.bare elseValue.bare

def exprBare? : Option Expr → Option Expr
  | some e => some e.bare
  | none => none

def exprsBare : List Expr → List Expr
  | [] => []
  | e :: es => e.bare :: exprsBare es

/-- A field of a struct initializer without its spans. -/
def FieldInit.bare : FieldInit → FieldInit
  | .mk name value => .mk name value.bare

def fieldsBare : List FieldInit → List FieldInit
  | [] => []
  | f :: fs => f.bare :: fieldsBare fs

def Block.bare : Block → Block
  | .mk _ statements => .mk noSpan (stmtsBare statements)

def blockBare? : Option Block → Option Block
  | some b => some b.bare
  | none => none

def stmtBare? : Option Stmt → Option Stmt
  | some s => some s.bare
  | none => none

def stmtsBare : List Stmt → List Stmt
  | [] => []
  | s :: ss => s.bare :: stmtsBare ss

/-- An arm of a match statement without its spans. -/
def MatchArm.bare : MatchArm → MatchArm
  | .mk _ pattern isWildcard body =>
    .mk noSpan (exprBare? pattern) isWildcard body.bare

def armsBare : List MatchArm → List MatchArm
  | [] => []
  | arm :: arms => arm.bare :: armsBare arms

/-- A decorator without its spans. -/
def Decorator.bare : Decorator → Decorator
  | .mk _ name value => .mk noSpan name value.bare

def decoratorsBare : List Decorator → List Decorator
  | [] => []
  | d :: ds => d.bare :: decoratorsBare ds

/-- A device without its spans. -/
def Device.bare : Device → Device
  | .mk _ name address => .mk noSpan name address.bare

def devicesBare : List Device → List Device
  | [] => []
  | d :: ds => d.bare :: devicesBare ds

/-- A statement without its spans. -/
@[simp] def Stmt.bare : Stmt → Stmt
  | .importDecl _ path => .importDecl noSpan path
  | .structDecl _ name fields => .structDecl noSpan name (fields.map StructField.bare)
  | .taskDecl _ name decorators body =>
    .taskDecl noSpan name (decoratorsBare decorators) (blockBare? body)
  | .busDecl _ busType name sda scl freq devices =>
    .busDecl noSpan busType name sda.bare scl.bare freq.bare (devicesBare devices)
  | .functionDecl _ name params returnType body =>
    .functionDecl noSpan name (params.map Param.bare) returnType body.bare
  | .loopDecl _ body => .loopDecl noSpan body.bare
  | .varDecl _ name typeName initializer isMutable isConst isVolatile =>
    .varDecl noSpan name typeName (exprBare? initializer) isMutable isConst isVolatile
  | .block body => .block body.bare
  | .ifElse _ condition thenBranch elseBranch =>
    .ifElse noSpan condition.bare thenBranch.bare (blockBare? elseBranch)
  | .whileLoop _ condition body => .whileLoop noSpan condition.bare body.bare
  | .forLoop _ init condition update body =>
    .forLoop noSpan (stmtBare? init) (exprBare? condition) (exprBare? update) body.bare
  | .returnValue _ value => .returnValue noSpan (exprBare? value)
  | .expr _ e => .expr noSpan e.bare
  | .matchValue _ value arms => .matchValue noSpan value.bare (armsBare arms)
  | .spawn _ taskName => .spawn noSpan taskName
  | .gpioMode _ pin mode => .gpioMode noSpan pin.bare mode
  | .digitalWrite _ pin value => .digitalWrite noSpan pin.bare value.bare
  | .pwmWrite _ pin duty channel =>
    .pwmWrite noSpan pin.bare duty.bare (exprBare? channel)
  | .rgbWrite _ pin red green blue =>
    .rgbWrite noSpan pin.bare red.bare green.bare blue.bare
  | .delay _ time => .delay noSpan time.bare
  | .wifiConnect _ ssid password => .wifiConnect noSpan ssid.bare password.bare
  | .raw _ code => .raw noSpan code

end

theorem exprBare?_eq (e? : Option Expr) : exprBare? e? = e?.map Expr.bare := by
  cases e? <;> rfl

theorem blockBare?_eq (b? : Option Block) : blockBare? b? = b?.map Block.bare := by
  cases b? <;> rfl

theorem stmtBare?_eq (s? : Option Stmt) : stmtBare? s? = s?.map Stmt.bare := by
  cases s? <;> rfl

theorem exprsBare_eq (es : List Expr) : exprsBare es = es.map Expr.bare := by
  induction es with
  | nil => rfl
  | cons e es ih => rw [exprsBare, ih]; rfl

theorem fieldsBare_eq (fs : List FieldInit) : fieldsBare fs = fs.map FieldInit.bare := by
  induction fs with
  | nil => rfl
  | cons f fs ih => rw [fieldsBare, ih]; rfl

theorem stmtsBare_eq (ss : List Stmt) : stmtsBare ss = ss.map Stmt.bare := by
  induction ss with
  | nil => rfl
  | cons s ss ih => rw [stmtsBare, ih]; rfl

theorem armsBare_eq (arms : List MatchArm) : armsBare arms = arms.map MatchArm.bare := by
  induction arms with
  | nil => rfl
  | cons arm arms ih => rw [armsBare, ih]; rfl

theorem decoratorsBare_eq (ds : List Decorator) : decoratorsBare ds = ds.map Decorator.bare := by
  induction ds with
  | nil => rfl
  | cons d ds ih => rw [decoratorsBare, ih]; rfl

theorem devicesBare_eq (ds : List Device) : devicesBare ds = ds.map Device.bare := by
  induction ds with
  | nil => rfl
  | cons d ds ih => rw [devicesBare, ih]; rfl

/-- A program without its spans. -/
def Program.bare (p : Program) : Program :=
  { span := noSpan, declarations := stmtsBare p.declarations }

end SketchCompiler
