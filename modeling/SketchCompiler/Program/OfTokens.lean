/-
From tokens to a program: the rules tied together.  Each of the four
rules that others refer to is indexed by how deeply rules may still
nest.  Between two tokens at most four rules nest, so four levels for
each token, and four more, are never used up.
-/
import SketchCompiler.Program.StmtGrammar
import SketchCompiler.Token.Scan

namespace SketchCompiler

namespace Grammar

open SketchCompiler.Parser

mutual

/-- Expressions of bounded nesting. -/
def expressionAt : Nat → Cursor → Parsed Expr
  | 0, _ => .exhausted
  | n + 1, c => assignment (unaryAt n) (expressionAt n) c

/-- Operands of bounded nesting, their operators included. -/
def unaryAt : Nat → Cursor → Parsed Expr
  | 0, _ => .exhausted
  | n + 1, c =>
    unary (unaryAt n)
      (postfixed (calls (expressionAt n) (primary (expressionAt n)
        (conditional (declarationAt n) (statementAt n) (expressionAt n))))) c

/-- Statements of bounded nesting. -/
def statementAt : Nat → Cursor → Parsed Stmt
  | 0, _ => .exhausted
  | n + 1, c => statement (declarationAt n) (expressionAt n) c

/-- Declarations and statements of bounded nesting, with recovery. -/
def declarationAt : Nat → Cursor → Parsed Item
  | 0, _ => .exhausted
  | n + 1, c =>
    declaration (declarationBody (declarationAt n) (statementAt n) (expressionAt n)) c

end

/-- The nesting allowed for a number of tokens. -/
def nesting (tokens : Nat) : Nat :=
  4 * (tokens + 1)

/-- The items of a whole source. -/
def items : Parser (List Item) :=
  fun c => itemsUntil .eof (declarationAt (nesting c.rest.length)) c

end Grammar

/-- A program read from its source, with everything that was reported. -/
structure Source where
  program : Program
  scanErrors : List ScanError
  parseErrors : List ParseError

/-- Why a source has no program at all. -/
inductive SourceFault where
  | scan (fault : ScanFault)
  | numeral (reason : NumeralError)
  | nestedTooDeep

/-- The program of a token list. -/
def Program.ofTokens (file : String) (tokens : List Token) :
    Except SourceFault (Program × List ParseError) :=
  let start : Cursor := { file, rest := tokens, last := tokens.getLastD Parser.endMarker }
  match Grammar.items start with
  | .ok items c =>
    let stop := c.peek.pos
    .ok ({ span := { file, endLine := stop.line, endCol := stop.column },
           declarations := items.filterMap id }, c.errors)
  | .failed c => .ok ({ span := { file }, declarations := [] }, c.errors)
  | .abort e => .error (.numeral e)
  | .exhausted => .error .nestedTooDeep

/-- The program of a source text. -/
def Program.ofSource (file source : String) : Except SourceFault Source := do
  let scanned ← (Token.scan source).mapError .scan
  let (program, parseErrors) ← Program.ofTokens file scanned.tokens
  return { program, scanErrors := scanned.errors, parseErrors }

end SketchCompiler
