/-
Scanning: from the characters of a source to its tokens.  The text is
cut into pieces, each a run of trivia (blanks and comments), a word, a
number, a string literal or an operator; a piece tells how many
characters it covers and where the next one starts.  Findings do not
stop the scan: a malformed piece is reported and scanning goes on behind
it.  The one fault that does stop it is a string literal whose last
character is an escaping backslash at the end of the source.
-/
import SketchCompiler.Token
import SketchCompiler.Text.Digit

namespace SketchCompiler

open Text

/-- What a scan reports. -/
inductive ScanIssue where
  | unexpectedCharacter (c : Char)
  | expectedRawBlock
  | unterminatedRawBlock
  | unterminatedString
  | unterminatedComment
  | emptyHexadecimal
  | emptyBinary
  | trailingDurationSuffix
  deriving DecidableEq, Repr

/-- The wording of a report. -/
def ScanIssue.message : ScanIssue → String
  | unexpectedCharacter c => "Unexpected character '" ++ c.toString ++ "'"
  | expectedRawBlock => "Expected '\x7b' after unsafe"
  | unterminatedRawBlock => "Unterminated unsafe block"
  | unterminatedString => "Unterminated string literal"
  | unterminatedComment => "Unterminated block comment"
  | emptyHexadecimal => "Invalid hexadecimal literal"
  | emptyBinary => "Invalid binary literal"
  | trailingDurationSuffix => "Invalid duration literal suffix"

/-- What stops a scan: the source ends right after the backslash of an
escape. -/
inductive ScanFault where
  | danglingEscape
  deriving DecidableEq, Repr

abbrev ScanError := Located ScanIssue

/-- The tokens of a source, the end marker last, with what was reported
on the way. -/
structure Scanned where
  tokens : List Token
  errors : List ScanError

/-- What one step of the scan finds: its tokens and reports, the number
of characters it covers, and where the next step starts. -/
structure Piece where
  tokens : List Token := []
  errors : List ScanError := []
  width : Nat
  next : Pos

/-- The piece with `n` more characters in front. -/
def Piece.widen (p : Piece) (n : Nat) : Piece :=
  { p with width := p.width + n }

-- ==== trivia

/-- The states of reading trivia: between comments, in a line comment,
in a block comment. -/
inductive TriviaMode where
  | gap | line | block
  deriving DecidableEq, Repr

/-- The longest run of blanks and comments.  A block comment that the
source ends in is reported at the end. -/
def scanTrivia : TriviaMode → Pos → List Char → Piece
  | .gap, p, ' ' :: rest => (scanTrivia .gap (p.right 1) rest).widen 1
  | .gap, p, '\t' :: rest => (scanTrivia .gap (p.right 1) rest).widen 1
  | .gap, p, '\r' :: rest => (scanTrivia .gap (p.right 1) rest).widen 1
  | .gap, p, '\n' :: rest => (scanTrivia .gap p.nextLine rest).widen 1
  | .gap, p, '/' :: '/' :: rest => (scanTrivia .line (p.right 2) rest).widen 2
  | .gap, p, '/' :: '*' :: rest => (scanTrivia .block (p.right 2) rest).widen 2
  | .gap, p, _ => { width := 0, next := p }
  | .line, p, [] => { width := 0, next := p }
  | .line, p, '\n' :: rest => (scanTrivia .gap p.nextLine rest).widen 1
  | .line, p, _ :: rest => (scanTrivia .line (p.right 1) rest).widen 1
  | .block, p, [] => { errors := [⟨.unterminatedComment, p⟩], width := 0, next := p }
  | .block, p, '*' :: '/' :: rest => (scanTrivia .gap (p.right 2) rest).widen 2
  | .block, p, '\n' :: rest => (scanTrivia .block p.nextLine rest).widen 1
  | .block, p, _ :: rest => (scanTrivia .block (p.right 1) rest).widen 1

/-- The text starts with a blank or a comment. -/
def startsTrivia : List Char → Bool
  | ' ' :: _ | '\t' :: _ | '\r' :: _ | '\n' :: _ => true
  | '/' :: '/' :: _ | '/' :: '*' :: _ => true
  | _ => false

-- ==== raw blocks

/-- The states of reading raw code: plain code, a literal in the given
quotes, a line comment, a block comment. -/
inductive RawMode where
  | code
  | literal (quote : Char)
  | line
  | block
  deriving DecidableEq, Repr

/-- Raw code read up to the brace that closes it, or to the end of the
source. -/
structure RawText where
  payload : List Char := []
  closed : Bool
  width : Nat
  next : Pos

/-- The raw text with `cs` in front. -/
def RawText.prepend (cs : List Char) (r : RawText) : RawText :=
  { r with payload := cs ++ r.payload, width := r.width + cs.length }

/-- Reads raw code inside an open brace; `depth` counts the braces opened
in the code itself.  Braces in literals and comments do not count.  A
line break moves to the next line in plain code only. -/
def scanRawText : RawMode → Nat → Pos → List Char → RawText
  | _, _, p, [] => { closed := false, width := 0, next := p }
  | .code, depth, p, '"' :: rest =>
    (scanRawText (.literal '"') depth (p.right 1) rest).prepend ['"']
  | .code, depth, p, '\'' :: rest =>
    (scanRawText (.literal '\'') depth (p.right 1) rest).prepend ['\'']
  | .code, depth, p, '/' :: '/' :: rest =>
    (scanRawText .line depth (p.right 2) rest).prepend ['/', '/']
  | .code, depth, p, '/' :: '*' :: rest =>
    (scanRawText .block depth (p.right 2) rest).prepend ['/', '*']
  | .code, depth, p, '{' :: rest =>
    (scanRawText .code (depth + 1) (p.right 1) rest).prepend ['{']
  | .code, 0, p, '}' :: _ => { closed := true, width := 1, next := p.right 1 }
  | .code, depth + 1, p, '}' :: rest =>
    (scanRawText .code depth (p.right 1) rest).prepend ['}']
  | .code, depth, p, '\n' :: rest =>
    (scanRawText .code depth p.nextLine rest).prepend ['\n']
  | .code, depth, p, c :: rest =>
    (scanRawText .code depth (p.right 1) rest).prepend [c]
  | .literal quote, depth, p, '\\' :: c :: rest =>
    (scanRawText (.literal quote) depth (p.right 2) rest).prepend ['\\', c]
  | .literal quote, depth, p, c :: rest =>
    (scanRawText (if c = quote then .code else .literal quote) depth (p.right 1) rest).prepend [c]
  | .line, depth, p, '\n' :: rest =>
    (scanRawText .code depth p.nextLine rest).prepend ['\n']
  | .line, depth, p, c :: rest =>
    (scanRawText .line depth (p.right 1) rest).prepend [c]
  | .block, depth, p, '*' :: '/' :: rest =>
    (scanRawText .code depth (p.right 2) rest).prepend ['*', '/']
  | .block, depth, p, c :: rest =>
    (scanRawText .block depth (p.right 1) rest).prepend [c]

/-- The raw block that follows the word `unsafe`: trivia, an opening
brace, and the code up to the brace that closes it. -/
def scanRawBlock (p : Pos) (cs : List Char) : Piece :=
  let gap := scanTrivia .gap p cs
  match cs.drop gap.width with
  | '{' :: body =>
    let raw := scanRawText .code 0 (gap.next.right 1) body
    { tokens := if raw.closed then [⟨.rawBlock, String.ofList raw.payload, gap.next⟩] else []
      errors := gap.errors ++ if raw.closed then [] else [⟨.unterminatedRawBlock, gap.next⟩]
      width := gap.width + 1 + raw.width
      next := raw.next }
  | _ => { gap with errors := gap.errors ++ [⟨.expectedRawBlock, gap.next⟩] }

-- ==== words

/-- The character may start an identifier or a keyword. -/
def isWordStart (c : Char) : Bool :=
  isLetter c || c = '_'

/-- The character may continue an identifier or a keyword. -/
def isWordChar (c : Char) : Bool :=
  isAlphanumeric c || c = '_'

/-- The kind of a word: its keyword, else an identifier. -/
def kindOfWord (word : String) : Kind :=
  (keywords.lookup word).getD .ident

/-- The longest word at the start of the text; the word `unsafe` takes
its raw block with it. -/
def scanWord (p : Pos) (cs : List Char) : Piece :=
  let word := cs.takeWhile isWordChar
  let lexeme := String.ofList word
  let token : Token := ⟨kindOfWord lexeme, lexeme, p⟩
  let behind := p.right word.length
  if token.kind = .kwUnsafe then
    let block := (scanRawBlock behind (cs.drop word.length)).widen word.length
    { block with tokens := token :: block.tokens }
  else
    { tokens := [token], width := word.length, next := behind }

-- ==== numbers

/-- The character is read as a hexadecimal digit. -/
def isHexDigit (c : Char) : Bool :=
  isDigit c || ('a' ≤ c && c ≤ 'f') || ('A' ≤ c && c ≤ 'F')

/-- The character is a binary digit. -/
def isBinaryDigit (c : Char) : Bool :=
  c = '0' || c = '1'

/-- A piece of one token with the given characters. -/
def Piece.ofLexeme (kind : Kind) (p : Pos) (lexeme : List Char)
    (errors : List ScanIssue) : Piece :=
  { tokens := [⟨kind, String.ofList lexeme, p⟩]
    errors := errors.map (⟨·, p⟩)
    width := lexeme.length
    next := p.right lexeme.length }

/-- The unit behind the amount of a duration. -/
def durationSuffix : List Char → List Char
  | 'm' :: 's' :: _ => ['m', 's']
  | 'u' :: 's' :: _ => ['u', 's']
  | 's' :: _ => ['s']
  | _ => []

/-- A decimal number: digits, then a fraction or a duration unit.  A
unit that runs into a further word character is reported. -/
def scanDecimal (p : Pos) (cs : List Char) : Piece :=
  let whole := cs.takeWhile isDigit
  let rest := cs.dropWhile isDigit
  match rest with
  | '.' :: behind =>
    let fraction := behind.takeWhile isDigit
    if fraction.isEmpty then .ofLexeme .int p whole []
    else .ofLexeme .float p (whole ++ '.' :: fraction) []
  | _ =>
    let suffix := durationSuffix rest
    if suffix.isEmpty then .ofLexeme .int p whole []
    else
      let runsOn := (rest.drop suffix.length).head?.any isWordChar
      .ofLexeme .duration p (whole ++ suffix) (if runsOn then [.trailingDurationSuffix] else [])

/-- A number: hexadecimal, binary or decimal. -/
def scanNumber (p : Pos) : List Char → Piece
  | '0' :: c :: rest =>
    if c = 'x' ∨ c = 'X' then
      let digits := rest.takeWhile isHexDigit
      .ofLexeme .int p ('0' :: c :: digits) (if digits.isEmpty then [.emptyHexadecimal] else [])
    else if c = 'b' ∨ c = 'B' then
      let digits := rest.takeWhile isBinaryDigit
      .ofLexeme .int p ('0' :: c :: digits) (if digits.isEmpty then [.emptyBinary] else [])
    else scanDecimal p ('0' :: c :: rest)
  | cs => scanDecimal p cs

-- ==== strings

/-- The inside of a string literal: the text it denotes, whether its
closing quote was found, and the characters read. -/
structure StringText where
  value : List Char := []
  closed : Bool
  width : Nat
  next : Pos

/-- The string text with one character in front that took `n` characters
of source. -/
def StringText.prepend (c : Char) (n : Nat) (s : StringText) : StringText :=
  { s with value := c :: s.value, width := s.width + n }

/-- The character that an escape denotes. -/
def unescape : Char → Char
  | 'n' => '\n'
  | 't' => '\t'
  | c => c

/-- Reads a string literal behind its opening quote.  A line break ends
it unclosed and is left to be read. -/
def scanStringText (p : Pos) : List Char → Except ScanFault StringText
  | [] => .ok { closed := false, width := 0, next := p }
  | '"' :: _ => .ok { closed := true, width := 1, next := p.right 1 }
  | '\n' :: _ => .ok { closed := false, width := 0, next := p }
  | '\\' :: [] => .error .danglingEscape
  | '\\' :: c :: rest => (scanStringText (p.right 2) rest).map (·.prepend (unescape c) 2)
  | c :: rest => (scanStringText (p.right 1) rest).map (·.prepend c 1)

/-- A string literal, the text starting behind its opening quote. -/
def scanString (p : Pos) (body : List Char) : Except ScanFault Piece := do
  let text ← scanStringText (p.right 1) body
  return {
    tokens := if text.closed then [⟨.string, String.ofList text.value, p⟩] else []
    errors := if text.closed then [] else [⟨.unterminatedString, p⟩]
    width := text.width + 1
    next := text.next }

-- ==== the whole

/-- An operator or separator, the longest that fits. -/
def scanOperator (p : Pos) (c : Char) (rest : List Char) : Piece :=
  match rest.head?.bind (operatorOfPair c) with
  | some kind => .ofLexeme kind p (c :: rest.take 1) []
  | none =>
    match operatorOfChar c with
    | some kind => .ofLexeme kind p [c] []
    | none => { errors := [⟨.unexpectedCharacter c, p⟩], width := 1, next := p.right 1 }

/-- The piece at the start of the text `c :: rest`. -/
def scanPiece (p : Pos) (c : Char) (rest : List Char) : Except ScanFault Piece :=
  if startsTrivia (c :: rest) then .ok (scanTrivia .gap p (c :: rest))
  else if isWordStart c then .ok (scanWord p (c :: rest))
  else if isDigit c then .ok (scanNumber p (c :: rest))
  else if c = '"' then scanString p rest
  else .ok (scanOperator p c rest)

/-- Scans a text, the first `skip` characters of which belong to the
piece before. -/
def scanFrom : Nat → Pos → List Char → Except ScanFault Scanned
  | _, p, [] => .ok { tokens := [⟨.eof, "", p⟩], errors := [] }
  | skip + 1, p, _ :: rest => scanFrom skip p rest
  | 0, p, c :: rest => do
    let piece ← scanPiece p c rest
    let behind ← scanFrom (piece.width - 1) piece.next rest
    return {
      tokens := piece.tokens ++ behind.tokens
      errors := piece.errors ++ behind.errors }

/-- The tokens of a source text. -/
def Token.scan (source : String) : Except ScanFault Scanned :=
  scanFrom 0 {} source.toList

end SketchCompiler
