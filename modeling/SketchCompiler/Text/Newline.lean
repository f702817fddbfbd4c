/-
Newlines.  Files and the output of tools may end their lines in a line
feed, a carriage return, or both; all count as one line feed.
-/

namespace SketchCompiler.Text

/-- The text with every line end a line feed. -/
def unifyNewlines : List Char → List Char
  | [] => []
  | '\r' :: '\n' :: rest => '\n' :: unifyNewlines rest
  | '\r' :: rest => '\n' :: unifyNewlines rest
  | c :: rest => c :: unifyNewlines rest

/-- The text of a file or of a tool's output, its lines ending in line
feeds. -/
def withLineFeeds (s : String) : String :=
  String.ofList (unifyNewlines s.toList)

/-- Cuts a text at line feeds; `line` holds the characters of the line
being read, last first.  A line feed at the very end opens no line. -/
def linesFrom (line : List Char) : List Char → List (List Char)
  | [] => if line.isEmpty then [] else [line.reverse]
  | '\n' :: rest => line.reverse :: linesFrom [] rest
  | c :: rest => linesFrom (c :: line) rest

/-- The lines of a tool's output, without their ends. -/
def outputLines (s : String) : List String :=
  (linesFrom [] (unifyNewlines s.toList)).map String.ofList

end SketchCompiler.Text
