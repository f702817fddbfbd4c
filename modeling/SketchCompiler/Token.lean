/-
Tokens: the words of the language with the place where each starts.  A
token keeps its kind and its lexeme; for a string literal the lexeme is
the text it denotes, for a raw block the text between the braces, and
for every other kind the characters of the source.
-/

namespace SketchCompiler

-- ==== positions

/-- A place in a source text; lines and columns count from one. -/
structure Pos where
  line : Nat := 1
  column : Nat := 1
  deriving DecidableEq, Repr

/-- The place `n` columns further on the same line. -/
def Pos.right (p : Pos) (n : Nat) : Pos :=
  { p with column := p.column + n }

/-- The start of the line below. -/
def Pos.nextLine (p : Pos) : Pos :=
  { line := p.line + 1, column := 1 }

/-- A finding and the place it is reported at. -/
structure Located (α : Type) where
  cause : α
  pos : Pos
  deriving Repr

-- ==== kinds

/-- The kinds of tokens. -/
inductive Kind where
  | eof | ident | int | float | string | duration | rawBlock
  | kwTrue | kwFalse | kwLet | kwConst | kwVolatile | kwFn | kwReturn
  | kwIf | kwElse | kwWhile | kwFor | kwLoop | kwStruct | kwMatch | kwAs
  | kwTask | kwSpawn | kwBus | kwDevice | kwI2C | kwSPI | kwImport | kwUnsafe
  | kwGpioMode | kwDigitalWrite | kwPwmWrite | kwRgbWrite | kwAnalogRead
  | kwWifiConnect | kwDelay | kwOut | kwIn
  | lparen | rparen | lbrace | rbrace | comma | dot | semicolon | colon
  | arrow | fatArrow | atSign
  | plus | minus | star | slash | percent | amp | pipe | caret
  | shiftLeft | shiftRight | tilde | bang
  | assign | plusAssign | minusAssign | starAssign | slashAssign
  | increment | decrement
  | equal | notEqual | less | lessEqual | greater | greaterEqual
  | andAnd | orOr
  deriving DecidableEq, Repr

/-- One word of the source. -/
structure Token where
  kind : Kind
  lexeme : String
  pos : Pos
  deriving DecidableEq, Repr

/-- The reserved words and the kinds they stand for. -/
def keywords : List (String × Kind) :=
  [("let", .kwLet), ("const", .kwConst), ("volatile", .kwVolatile), ("fn", .kwFn),
   ("return", .kwReturn), ("if", .kwIf), ("else", .kwElse), ("while", .kwWhile),
   ("for", .kwFor), ("loop", .kwLoop), ("struct", .kwStruct), ("match", .kwMatch),
   ("as", .kwAs), ("task", .kwTask), ("spawn", .kwSpawn), ("bus", .kwBus),
   ("device", .kwDevice), ("I2C", .kwI2C), ("SPI", .kwSPI), ("import", .kwImport),
   ("unsafe", .kwUnsafe), ("true", .kwTrue), ("false", .kwFalse),
   ("gpioMode", .kwGpioMode), ("digitalWrite", .kwDigitalWrite), ("pwmWrite", .kwPwmWrite),
   ("rgbWrite", .kwRgbWrite), ("analogRead", .kwAnalogRead),
   ("wifiConnect", .kwWifiConnect), ("delay", .kwDelay), ("out", .kwOut), ("in", .kwIn)]

/-- The operators of two characters. -/
def operatorOfPair : Char → Char → Option Kind
  | '-', '>' => some .arrow
  | '=', '>' => some .fatArrow
  | '=', '=' => some .equal
  | '!', '=' => some .notEqual
  | '<', '=' => some .lessEqual
  | '>', '=' => some .greaterEqual
  | '&', '&' => some .andAnd
  | '|', '|' => some .orOr
  | '<', '<' => some .shiftLeft
  | '>', '>' => some .shiftRight
  | '+', '=' => some .plusAssign
  | '-', '=' => some .minusAssign
  | '*', '=' => some .starAssign
  | '/', '=' => some .slashAssign
  | '+', '+' => some .increment
  | '-', '-' => some .decrement
  | _, _ => none

/-- The operators and separators of one character. -/
def operatorOfChar : Char → Option Kind
  | '(' => some .lparen
  | ')' => some .rparen
  | '{' => some .lbrace
  | '}' => some .rbrace
  | ',' => some .comma
  | '.' => some .dot
  | ';' => some .semicolon
  | ':' => some .colon
  | '@' => some .atSign
  | '+' => some .plus
  | '-' => some .minus
  | '*' => some .star
  | '/' => some .slash
  | '%' => some .percent
  | '&' => some .amp
  | '|' => some .pipe
  | '^' => some .caret
  | '~' => some .tilde
  | '!' => some .bang
  | '=' => some .assign
  | '<' => some .less
  | '>' => some .greater
  | _ => none

end SketchCompiler
