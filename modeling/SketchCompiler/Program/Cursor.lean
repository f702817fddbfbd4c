/-
Reading a token list.  A cursor stands before the tokens that are left;
a parser moves it and yields a value.  A parser that cannot go on
reports where and what it expected and gives up; the nearest declaration
around it then looks for a place to go on from, so one mistake does not
hide the rest of the program.

Two things end a parse otherwise: a numeral that denotes no number
stops it altogether, and a bound on the nesting of rules, chosen from
the number of tokens, stands in for a termination argument.
-/
import SketchCompiler.Token
import SketchCompiler.Numeral
import SketchCompiler.Program

namespace SketchCompiler

/-- What a parse reports. -/
inductive ParseIssue where
  | expected (what : String)
  | invalidAssignmentTarget
  | unknownBusProperty (name : String)
  | incompleteBus
  | unsupportedDeviceProperty
  | misplacedDeclaration
  deriving DecidableEq, Repr

/-- The wording of a report. -/
def ParseIssue.message : ParseIssue → String
  | expected what => "Expected " ++ what
  | invalidAssignmentTarget => "Invalid assignment target"
  | unknownBusProperty name => "Unknown bus property '" ++ name ++ "'"
  | incompleteBus => "Bus declaration requires sda, scl, and freq properties"
  | unsupportedDeviceProperty => "Only 'address' is supported in device declaration"
  | misplacedDeclaration =>
    "Top-level declaration is not allowed inside if expression block"

abbrev ParseError := Located ParseIssue

/-- A place in a token list: what is left to read, the token read last,
and the reports so far. -/
structure Cursor where
  file : String
  rest : List Token
  last : Token
  errors : List ParseError := []

/-- The outcome of a parser: a value, a report after which it gave up, a
numeral that denotes no number, or rules nested too deeply. -/
inductive Parsed (α : Type) where
  | ok (value : α) (cursor : Cursor)
  | failed (cursor : Cursor)
  | abort (reason : NumeralError)
  | exhausted

/-- A parser moves a cursor. -/
def Parser (α : Type) : Type :=
  Cursor → Parsed α

namespace Parser

/-- Yields a value without reading. -/
protected def pure {α : Type} (a : α) : Parser α :=
  fun c => .ok a c

/-- Goes on behind a parser that yielded a value. -/
protected def bind {α β : Type} (p : Parser α) (f : α → Parser β) : Parser β :=
  fun c => match p c with
    | .ok a c => f a c
    | .failed c => .failed c
    | .abort e => .abort e
    | .exhausted => .exhausted

instance : Monad Parser where
  pure := Parser.pure
  bind := Parser.bind

-- ==== single tokens

/-- The marker that stands behind every token list. -/
def endMarker : Token :=
  ⟨.eof, "", {}⟩

end Parser

/-- The token to be read next. -/
def Cursor.peek (c : Cursor) : Token :=
  c.rest.headD Parser.endMarker

/-- The kind of the token to be read next. -/
def Cursor.kind (c : Cursor) : Kind :=
  c.peek.kind

/-- The kind of the token behind the next one. -/
def Cursor.kindBehind (c : Cursor) : Option Kind :=
  c.rest.tail.head?.map (·.kind)

/-- Every token has been read. -/
def Cursor.atEnd (c : Cursor) : Bool :=
  c.kind = .eof

/-- The cursor behind the next token; at the end it stays. -/
def Cursor.advance (c : Cursor) : Cursor :=
  if c.atEnd then c else { c with rest := c.rest.tail, last := c.peek }

/-- The cursor with one more report, at a token. -/
def Cursor.report (c : Cursor) (token : Token) (issue : ParseIssue) : Cursor :=
  { c with errors := c.errors ++ [⟨issue, token.pos⟩] }

namespace Parser

/-- The cursor itself. -/
def get : Parser Cursor :=
  fun c => .ok c c

/-- The kind of the next token. -/
def kind : Parser Kind :=
  fun c => .ok c.kind c

/-- The token read last. -/
def last : Parser Token :=
  fun c => .ok c.last c

/-- Reads the next token, whatever it is. -/
def next : Parser Token :=
  fun c => let c := c.advance; .ok c.last c

/-- Reports at a token and goes on. -/
def reportAt (token : Token) (issue : ParseIssue) : Parser Unit :=
  fun c => .ok () (c.report token issue)

/-- Reports at a token and gives up. -/
def failAt {α : Type} (token : Token) (issue : ParseIssue) : Parser α :=
  fun c => .failed (c.report token issue)

/-- Reports at the next token and gives up. -/
def failHere {α : Type} (issue : ParseIssue) : Parser α :=
  fun c => .failed (c.report c.peek issue)

/-- Reads the next token if it is of one of the kinds. -/
def acceptAny (kinds : List Kind) : Parser (Option Token) :=
  fun c => if kinds.contains c.kind then
      let c := c.advance
      .ok (some c.last) c
    else .ok none c

/-- Reads the next token if it is of the kind. -/
def accept (k : Kind) : Parser (Option Token) :=
  acceptAny [k]

/-- Reads the next token if it is of the kind, and tells whether it
was. -/
def accepts (k : Kind) : Parser Bool := do
  return (← accept k).isSome

/-- Reads the next token, which has to be of one of the kinds. -/
def expectAny (kinds : List Kind) (what : String) : Parser Token := do
  match ← acceptAny kinds with
  | some token => return token
  | none => failHere (.expected what)

/-- Reads the next token, which has to be of the kind. -/
def expect (k : Kind) (what : String) : Parser Token :=
  expectAny [k] what

/-- What stands behind a token of the kind, if one comes next. -/
def behind {α : Type} (k : Kind) (p : Parser α) : Parser (Option α) := do
  if ← accepts k then return some (← p) else return none

/-- What comes next, if it does not start with a token of the kind. -/
def unlessNext {α : Type} (k : Kind) (p : Parser α) : Parser (Option α) := do
  if (← kind) = k then return none else return some (← p)

/-- The number that a numeral denotes; one that denotes none stops the
parse. -/
def number {α : Type} (read : Except NumeralError α) : Parser α :=
  fun c => match read with
    | .ok a => .ok a c
    | .error e => .abort e

-- ==== loops

/-- What a round of a loop decides: another round or the result. -/
inductive Round (α β : Type) where
  | again (state : α)
  | done (result : β)

/-- Runs one round more than the bound has tokens, at most. -/
def rounds {α β : Type} (step : α → Parser (Round α β)) : List Token → α → Parser β
  | [], a => do
    match ← step a with
    | .again _ => fun _ => .exhausted
    | .done b => return b
  | _ :: bound, a => do
    match ← step a with
    | .again a => rounds step bound a
    | .done b => return b

/-- Runs a loop.  Every round but the last reads a token, so there is one
round more than there are tokens at most. -/
def loop {α β : Type} (step : α → Parser (Round α β)) (a : α) : Parser β :=
  fun c => rounds step c.rest a c

/-- The next item, the items so far in reverse, unless the next token is
of the closing kind or the end. -/
def itemStep {α : Type} (closing : Kind) (item : Parser α) (items : List α) :
    Parser (Round (List α) (List α)) := do
  let c ← get
  if c.kind = closing ∨ c.atEnd then return .done items.reverse
  else return .again ((← item) :: items)

/-- Items as long as the next token is neither of the closing kind nor
the end. -/
def itemsUntil {α : Type} (closing : Kind) (item : Parser α) : Parser (List α) :=
  loop (itemStep closing item) []

/-- The next item, the items so far in reverse; a comma behind it asks
for another. -/
def separatedStep {α : Type} (item : Parser α) (items : List α) :
    Parser (Round (List α) (List α)) := do
  let items := (← item) :: items
  if ← accepts .comma then return .again items else return .done items.reverse

/-- One item or more, separated by commas. -/
def separated {α : Type} (item : Parser α) : Parser (List α) :=
  loop (separatedStep item) []

/-- Items separated by commas, none if the closing kind comes next. -/
def separatedUntil {α : Type} (closing : Kind) (item : Parser α) : Parser (List α) := do
  return (← unlessNext closing (separated item)).getD []

end Parser

-- ==== spans

/-- The span of one token. -/
def Token.span (file : String) (t : Token) : Span :=
  { file, startLine := t.pos.line, startCol := t.pos.column, endLine := t.pos.line,
    endCol := t.pos.column + max 1 t.lexeme.length - 1 }

/-- From the start of one span to the end of another. -/
def Span.upTo (a b : Span) : Span :=
  { a with endLine := b.endLine, endCol := b.endCol }

/-- From the start of one token to the start of another. -/
def Span.between (file : String) (a b : Token) : Span :=
  { file, startLine := a.pos.line, startCol := a.pos.column,
    endLine := b.pos.line, endCol := b.pos.column }

namespace Parser

/-- The file that is read. -/
def file : Parser String :=
  fun c => .ok c.file c

/-- The span of a token of the file that is read. -/
def spanOf (t : Token) : Parser Span := do
  return t.span (← file)

/-- From the start of one token to the start of another. -/
def between (a b : Token) : Parser Span := do
  return Span.between (← file) a b

end Parser

end SketchCompiler
